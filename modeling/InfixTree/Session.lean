import InfixTree.Parse
import InfixTree.Tokenize
import InfixTree.Token.Spelling

/-! Sessions in which one expression is put together from several texts. A session holds
numbered allocators and a pool of the tokens read so far. Each request concerns at most
one allocator and leaves the others as they are. -/
namespace InfixTree

structure Session where
  allocators : List Allocator := [.fresh]
  pool : List Token := []
  deriving DecidableEq, Repr

namespace Session

inductive Request where
  | create (a : Allocator)
  /-- Another allocator that goes on from where this one is. -/
  | copy (slot : Nat)
  | allocate (slot : Nat)
  /-- Reads a text and adds its tokens to the pool. -/
  | tokenize (slot : Nat) (text : String)
  | spell
  | parse
  | clear
  deriving DecidableEq, Repr

inductive Reply where
  | done
  | id (n : Nat)
  | tokens (ts : List Token)
  | text (s : String)
  | tree (result : Except ParseError Tree)
  | outOfIds (e : OutOfIds)
  | noSuchSlot
  deriving Repr

/-- An allocator made anew takes the next free slot. -/
def add (s : Session) (a : Allocator) : Session := { s with allocators := s.allocators ++ [a] }

def replace (s : Session) (slot : Nat) (a : Allocator) : Session :=
  { s with allocators := s.allocators.set slot a }

def withSlot (s : Session) (slot : Nat) (f : Allocator → Reply × Session) : Reply × Session :=
  match s.allocators[slot]? with
  | some a => f a
  | none => (.noSuchSlot, s)

/-- Draws an id; a refusal changes nothing. -/
def allocate (s : Session) (slot : Nat) (a : Allocator) : Reply × Session :=
  match a.allocate with
  | (.ok id, a) => (.id id, s.replace slot a)
  | (.error e, a) => (.outOfIds e, s.replace slot a)

/-- A refusal leaves the pool alone, but ids drawn before it stay drawn. -/
def tokenize (s : Session) (slot : Nat) (a : Allocator) (text : String) : Reply × Session :=
  match tokenizeFrom a text with
  | (.ok ts, a) => (.tokens ts, { s.replace slot a with pool := s.pool ++ ts })
  | (.error e, a) => (.outOfIds e, s.replace slot a)

def step (s : Session) : Request → Reply × Session
  | .create a => (.done, s.add a)
  | .copy slot => s.withSlot slot fun a => (.done, s.add a)
  | .allocate slot => s.withSlot slot (s.allocate slot)
  | .tokenize slot text => s.withSlot slot (s.tokenize slot · text)
  | .spell => (.text (Token.spelling s.pool), s)
  | .parse => (.tree (InfixTree.parse s.pool), s)
  | .clear => (.done, { s with pool := [] })

/-- The replies to a list of requests, each with the session after it. -/
def run (s : Session) : List Request → List (Reply × Session)
  | [] => []
  | r :: rs =>
    let (reply, s) := s.step r
    (reply, s) :: s.run rs

end Session

end InfixTree
