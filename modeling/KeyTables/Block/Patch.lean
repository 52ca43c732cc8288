import KeyTables.Block.Basic

/-! Patching a source. The inside of a block is cut into segments, one for each table: a segment starts
where the table before it stops, or after the opening brace, and the last one ends at the closing
brace. A segment is kept or replaced as a whole, and every byte outside the braces is kept. -/
namespace KeyTables
set_option autoImplicit false

/-- The bytes from `start` up to `stop`. Offsets past the end are cut off, and a range that ends before
it starts is empty. -/
def slice (d : Bytes) (start stop : Nat) : Bytes :=
  (d.take stop).drop start

theorem slice_middle (a b c : Bytes) :
    slice (a ++ (b ++ c)) a.length (a.length + b.length) = b := by
  rw [slice, ← List.append_assoc, ← List.length_append, List.take_left, List.drop_left]

namespace Block

/-- The segments of the tables, from `start` up to `stop`. -/
def segmentsFrom (start stop : Nat) : List KeyTable → List (Nat × Nat)
  | [] => []
  | [_] => [(start, stop)]
  | t :: u :: ts => (start, t.stop) :: segmentsFrom t.stop stop (u :: ts)

def segments (b : Block) : List (Nat × Nat) :=
  segmentsFrom (b.start + 1) b.stop b.tables

theorem length_segmentsFrom (start stop : Nat) (tables : List KeyTable) :
    (segmentsFrom start stop tables).length = tables.length := by
  fun_induction segmentsFrom start stop tables with
  | case1 => rfl
  | case2 => rfl
  | case3 start t u ts ih => simp [ih]

/-- A segment after patching: a missing replacement keeps its bytes. -/
def patchedSegment (d : Bytes) (segment : Nat × Nat) : Option Text → Bytes
  | none => slice d segment.1 segment.2
  | some t => encode t

/-- The bytes between the braces after patching. A block without tables keeps them. -/
def patchedInside (d : Bytes) (b : Block) (replacements : List (Option Text)) : Bytes :=
  if b.tables.isEmpty then slice d (b.start + 1) b.stop
  else (b.segments.zipWith (patchedSegment d) replacements).flatten

def patchedBytes (d : Bytes) (b : Block) (replacements : List (Option Text)) : Bytes :=
  d.take (b.start + 1) ++ b.patchedInside d replacements ++ d.drop b.stop

end Block

inductive PatchError where
  /-- There must be one replacement for each table. -/
  | replacementCount (expected actual : Nat)
  /-- The patched bytes are no text. -/
  | undecodable (e : DecodeError)
  deriving DecidableEq

def PatchError.message : PatchError → String
  | .replacementCount expected actual => s!"expected {expected} replacements, got {actual}"
  | .undecodable e => e.message

/-- The source with the segments of the block replaced. -/
def patch (source : Text) (b : Block) (replacements : List (Option Text)) :
    Except PatchError Text :=
  if replacements.length = b.tables.length then
    match decode (b.patchedBytes (encode source) replacements) with
    | .error e => .error (.undecodable e)
    | .ok t => .ok t
  else .error (.replacementCount b.tables.length replacements.length)

end KeyTables
