import InfixTree.Text.Unprintable

/-! Quoted text, as the log shows it. Backslashes, the quotation mark in use and the
common controls are escaped by a backslash; other characters that cannot be shown are
given by their code point in hexadecimal. -/
namespace InfixTree.Text

def escapeChar (mark c : Char) : List Char :=
  if c = mark || c = '\\' then ['\\', c]
  else if c = '\x00' then ['\\', '0']
  else if c = '\t' then ['\\', 't']
  else if c = '\r' then ['\\', 'r']
  else if c = '\n' then ['\\', 'n']
  else if isUnprintable c then
    ['\\', 'u', '\x7b'] ++ Nat.toDigits 16 c.toNat ++ ['\x7d']
  else [c]

/-- Text between two quotation marks, which are escaped inside it. -/
def quoteWith (mark : Char) (cs : List Char) : String :=
  String.ofList (mark :: cs.flatMap (escapeChar mark) ++ [mark])

def quoted (s : String) : String := quoteWith '"' s.toList

def quotedChar (c : Char) : String := quoteWith '\'' [c]

end InfixTree.Text
