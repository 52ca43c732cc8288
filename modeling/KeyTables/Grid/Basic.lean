import KeyTables.Text.Basic

/-! Grids: which places of a key matrix hold a key. Rows may differ in length, and every place outside
the rows is blank. -/
namespace KeyTables
set_option autoImplicit false

inductive Mark where
  | key
  | blank
  deriving DecidableEq

abbrev Grid := List (List Mark)

namespace Grid

def rowKeyCount (row : List Mark) : Nat :=
  row.count .key

def keyCount : Grid → Nat
  | [] => 0
  | row :: rows => rowKeyCount row + keyCount rows

/-- Whether the place holds a key. Places are integers, so the neighbours of a place need no case for
the edge. -/
def occupied (g : Grid) (row col : Int) : Bool :=
  if row < 0 ∨ col < 0 then false
  else ((g[row.toNat]?.getD [])[col.toNat]?) == some .key

end Grid

/-- What a place of the grid holds once the keys are put in. -/
inductive Slot where
  | gap
  /-- A key, and whether more keys come after it. -/
  | key (label : Text) (more : Bool)
  deriving DecidableEq

namespace Grid

/-- Puts the keys into the places of a row from left to right. The keys left over come back too;
there is no result if the keys run out. -/
def fillRow : List Mark → List Text → Option (List Slot × List Text)
  | [], keys => some ([], keys)
  | .blank :: row, keys =>
    match fillRow row keys with
    | none => none
    | some (slots, rest) => some (.gap :: slots, rest)
  | .key :: _, [] => none
  | .key :: row, k :: keys =>
    match fillRow row keys with
    | none => none
    | some (slots, rest) => some (.key k (!keys.isEmpty) :: slots, rest)

/-- Puts the keys into the places row by row. Keys left over at the end are ignored. -/
def fill : Grid → List Text → Option (List (List Slot))
  | [], _ => some []
  | row :: g, keys =>
    match fillRow row keys with
    | none => none
    | some (slots, rest) =>
      match fill g rest with
      | none => none
      | some rows => some (slots :: rows)

end Grid

end KeyTables
