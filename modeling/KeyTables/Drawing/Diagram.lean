import KeyTables.Drawing.Border
import KeyTables.Text.Blank

/-! The diagram of a key table: border lines and key lines in turn, a border line first and last. Each
place takes `width + 3` columns: a corner or separator, then its edge, or its key between two
spaces. -/
namespace KeyTables
set_option autoImplicit false

namespace Slot

/-- What the diagram shows in the place: a gap shows as spaces. -/
def label : Slot → Text
  | .gap => []
  | .key k _ => k

end Slot

namespace Grid

def rowLength (g : Grid) (row : Nat) : Nat :=
  (g[row]?.getD []).length

/-- The number of places that the border line on top of `row` runs along: those of the longer one of
the rows above and below it. -/
def borderLength (g : Grid) (row : Nat) : Nat :=
  max (if row = 0 then 0 else g.rowLength (row - 1)) (g.rowLength row)

/-- The border line on top of `row`. For the row after the last one it is the bottom of the grid. -/
def borderLine (g : Grid) (row : Nat) (width : Int) : Text :=
  (List.range (g.borderLength row + 1)).flatMap fun (col : Nat) =>
    (g.vertex row col).char :: List.replicate (width + 2).toNat (g.edge row col).char

/-- The line of the keys of `row`, which `slots` holds. -/
def keyLine (g : Grid) (row : Nat) (slots : List Slot) (width : Int) : Text :=
  (List.range (slots.length + 1)).flatMap fun (col : Nat) =>
    (g.separator row col).char ::
      match slots[col]? with
      | none => []
      | some slot => ' ' :: padEnd width slot.label ++ [' ']

/-- The lines from the keys of `row` on, without the lead. -/
def linesFrom (g : Grid) (width : Int) (row : Nat) : List (List Slot) → List Text
  | [] => []
  | slots :: rest =>
    g.keyLine row slots width :: g.borderLine (row + 1) width :: linesFrom g width (row + 1) rest

/-- All lines without the lead. A grid without rows has none. -/
def diagramLines (g : Grid) (rows : List (List Slot)) (width : Int) : List Text :=
  match rows with
  | [] => []
  | _ :: _ => g.borderLine 0 width :: g.linesFrom width 0 rows

end Grid

/-- The diagram of a grid with its keys. Every line starts with `lead` and has no blanks at its end.
There is no diagram if the keys run out. -/
def diagram (g : Grid) (keys : List Text) (width : Int) (lead : Text) : Option (List Text) :=
  match g.fill keys with
  | none => none
  | some rows => some ((g.diagramLines rows width).map fun line => trimEnd (lead ++ line))

end KeyTables
