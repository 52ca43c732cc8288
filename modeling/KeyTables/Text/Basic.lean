/-! Texts and bytes. A text is the list of its code points and a file is the list of its bytes, so
lengths, cuts and columns are list lengths, cuts and positions. -/
namespace KeyTables
set_option autoImplicit false

/-- A text, code point by code point. -/
abbrev Text := List Char

/-- The content of a file. -/
abbrev Bytes := List UInt8

/-- Whether `n` lies in one of the closed ranges. -/
def inRanges (ranges : List (Nat × Nat)) (n : Nat) : Bool :=
  ranges.any fun r => decide (r.1 ≤ n) && decide (n ≤ r.2)

/-- Spaces appended up to `width` columns. A text that is as wide already stays as it is, so any
integer will do as a width. -/
def padEnd (width : Int) (t : Text) : Text :=
  t ++ List.replicate (width - t.length).toNat ' '

theorem length_padEnd (width : Int) (t : Text) :
    (padEnd width t).length = max t.length width.toNat := by
  simp only [padEnd, List.length_append, List.length_replicate]
  omega

end KeyTables
