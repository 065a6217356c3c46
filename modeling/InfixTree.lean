import InfixTree.Main
import InfixTree.Session
import InfixTree.Proofs.Grammar
import InfixTree.Proofs.Balance
import InfixTree.Proofs.Yard.Steps
import InfixTree.Proofs.Yard.Refusals
import InfixTree.Proofs.Yard.Completeness
import InfixTree.Proofs.Yard.Soundness
import InfixTree.Proofs.Scan.Adjacency
import InfixTree.Proofs.Acceptance
import InfixTree.Proofs.Yard.Lockstep
import InfixTree.Proofs.Yard.Invariants
import InfixTree.Proofs.Yard.Conservation
import InfixTree.Proofs.Yard.Parentheses
import InfixTree.Proofs.Tree.Places
import InfixTree.Proofs.Yard.Nesting
import InfixTree.Proofs.Yard.Substitution
import InfixTree.Proofs.Scan.Spelling
import InfixTree.Proofs.Scan.Runs
import InfixTree.Proofs.Scan.Rereading
import InfixTree.Proofs.Yard.Renaming
import InfixTree.Proofs.Tree.Written
import InfixTree.Proofs.Regeneration
import InfixTree.Proofs.Scan.Image
import InfixTree.Proofs.Yard.Isolation
import InfixTree.Proofs.Minimality
import InfixTree.Proofs.Yard.Counting
import InfixTree.Proofs.Yard.Commas
import InfixTree.Proofs.Token.Numbering
import InfixTree.Proofs.Session
import InfixTree.Proofs.Tree.Inorder
import InfixTree.Proofs.Tree.Arity
import InfixTree.Proofs.Tree.Postorder
import InfixTree.Proofs.Yard.Replay
import InfixTree.Proofs.Tree.Levels
import InfixTree.Proofs.Tree.Edges
import InfixTree.Proofs.Tree.Stages
import InfixTree.Proofs.Tree.Heights
import InfixTree.Proofs.Text.Lines
import InfixTree.Proofs.Token.Limit
import InfixTree.Proofs.Scan.Pieces
import InfixTree.Proofs.Yard.Marks
import InfixTree.Proofs.Yard.Strict
import InfixTree.Proofs.Tree.Outline
import InfixTree.Proofs.Tree.Outliner
import InfixTree.Proofs.Tree.Drawing
import InfixTree.Proofs.Report
import InfixTree.Proofs.Yard.Precedence
import InfixTree.Proofs.Scan.Conservation
