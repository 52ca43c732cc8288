import KeyTables.Grid.Basic
import KeyTables.Text.Blank

/-! The key list of a table as it stands in the source: one line for each row that holds a key, with
the keys padded to one width. A comma follows every key but the last one, and a placeholder stands for
a key that is not assigned. -/
namespace KeyTables
set_option autoImplicit false

/-- Seven underscores. -/
def placeholder : Text :=
  List.replicate 7 '_'

/-- Eight spaces. -/
def entryIndent : Text :=
  List.replicate 8 ' '

namespace Slot

/-- What the key list shows for the place: nothing for a gap. -/
def entry? (width : Int) : Slot → Option Text
  | .gap => none
  | .key k more =>
    let shown := padEnd width (if k.isEmpty then placeholder else k)
    some (if more then shown ++ [','] else shown)

end Slot

/-- The line of one row, if it holds a key. -/
def keyListLine? (width : Int) (slots : List Slot) : Option Text :=
  match slots.filterMap (Slot.entry? width) with
  | [] => none
  | entries => some (trimEnd (entryIndent ++ List.intercalate [' '] entries))

/-- The key list of a grid with its keys. There is none if the keys run out. -/
def keyListLines (g : Grid) (keys : List Text) (width : Int) : Option (List Text) :=
  match g.fill keys with
  | none => none
  | some rows => some (rows.filterMap (keyListLine? width))

end KeyTables
