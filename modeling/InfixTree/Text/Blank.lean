import InfixTree.Text.Ranges

/-! The white space of the Unicode character database, twenty-five code points. -/
namespace InfixTree.Text

def blankRanges : Ranges where
  list :=
    [(0x09, 0x0D), (0x20, 0x20), (0x85, 0x85), (0xA0, 0xA0), (0x1680, 0x1680), (0x2000, 0x200A),
      (0x2028, 0x2029), (0x202F, 0x202F), (0x205F, 0x205F), (0x3000, 0x3000)]
  rising := by decide

def isBlank (c : Char) : Bool := blankRanges.contains c

end InfixTree.Text
