import KeyTables.Drawing.Diagram
import KeyTables.Drawing.KeyList

/-! Drawing a whole key table: its diagram, its key list, and the text that takes the table's place in
the source. A table is drawn only if it has as many keys as the grid. -/
namespace KeyTables
set_option autoImplicit false

/-- The lead of diagram lines if no other is wanted: a comment sign and four spaces. -/
def defaultLead : Text :=
  ['/', '/', ' ', ' ', ' ', ' ']

structure Drawing where
  diagram : List Text
  keyList : List Text
  deriving DecidableEq

/-- The grid has `expected` keys, the table `actual`. -/
structure CountMismatch where
  expected : Nat
  actual : Nat
  deriving DecidableEq

def CountMismatch.message (m : CountMismatch) : String :=
  s!"layout has {m.expected} keys but table defines {m.actual}"

/-- The length of the longest key. -/
def keyWidth (keys : List Text) : Nat :=
  keys.foldr (fun k width => max k.length width) 0

/-- The drawing of a table with these keys. -/
def draw (g : Grid) (keys : List Text) (lead : Text) : Except CountMismatch Drawing :=
  if g.keyCount = keys.length then
    match diagram g keys (keyWidth keys) lead, keyListLines g keys (keyWidth keys) with
    | some picture, some list => .ok ⟨picture, list⟩
    | _, _ => .error ⟨g.keyCount, keys.length⟩
  else .error ⟨g.keyCount, keys.length⟩

/-- The text of a drawn table: on a line of its own each, the diagram, the opening of the entry, the
key list and its closing. It starts and ends with a line break. -/
def Drawing.entryText (d : Drawing) (name newline : Text) : Text :=
  let opening := [' ', ' ', ' ', ' ', '['] ++ name ++
    [']', ' ', '=', ' ', 'L', 'A', 'Y', 'O', 'U', 'T', '(']
  let closing := [' ', ' ', ' ', ' ', ')', ',']
  List.intercalate newline ([[]] ++ d.diagram ++ [opening] ++ d.keyList ++ [closing] ++ [[]])

end KeyTables
