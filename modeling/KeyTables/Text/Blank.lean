import KeyTables.Text.Basic

/-! Blank characters of texts, the blank-free words between them, and the removal of trailing
blanks. The table lists the spaces, the line and paragraph breaks and the four information
separators; the zero-width space and the byte order mark are not blank. -/
namespace KeyTables
set_option autoImplicit false

def blankRanges : List (Nat × Nat) :=
  [(0x0009, 0x000D), (0x001C, 0x0020), (0x0085, 0x0085), (0x00A0, 0x00A0), (0x1680, 0x1680),
   (0x2000, 0x200A), (0x2028, 0x2029), (0x202F, 0x202F), (0x205F, 0x205F), (0x3000, 0x3000)]

def isBlank (c : Char) : Bool :=
  inRanges blankRanges c.toNat

/-- The text without the blanks at its end. -/
def trimEnd (t : Text) : Text :=
  (t.reverse.dropWhile isBlank).reverse

/-- The maximal runs of characters that are not blank, in order. -/
def words (t : Text) : List Text :=
  (t.splitOnP isBlank).filter fun w => !w.isEmpty

example : (blankRanges.map fun r => r.2 - r.1 + 1).sum = 29 := by decide

end KeyTables
