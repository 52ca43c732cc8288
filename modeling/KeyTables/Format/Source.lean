import KeyTables.Block.Parser
import KeyTables.Block.Patch
import KeyTables.Drawing.Table
import KeyTables.Text.Lines

/-! Formatting a source: every table of its keymaps block that fits the grid is drawn anew, every other
one is kept. A source without a block, or with an entry in its block that is no table, is left as it
is. -/
namespace KeyTables
set_option autoImplicit false

structure Outcome where
  text : Text
  blockFound : Bool
  tables : Nat
  rendered : Nat
  skipped : Nat
  deriving DecidableEq

/-- A result and the notes taken on the way to it. -/
structure Noted (α : Type) where
  value : α
  notes : List Note

/-- The new text of a table. -/
def redraw (g : Grid) (lead newline : Text) (t : KeyTable) : Except CountMismatch Text :=
  match draw g t.keys lead with
  | .error e => .error e
  | .ok d => .ok (d.entryText t.name.text newline)

/-- The replacement of a table: a table that does not fit the grid is kept. -/
def replacement (g : Grid) (lead newline : Text) (t : KeyTable) : Option Text :=
  match redraw g lead newline t with
  | .error _ => none
  | .ok text => some text

/-- The note on a table that does not fit the grid. -/
def skipNote (g : Grid) (lead newline : Text) (t : KeyTable) : Option Note :=
  match redraw g lead newline t with
  | .error e => some (.skipped t.name.text e.expected e.actual)
  | .ok _ => none

/-- Formats the tables of a block whose entries are all tables. -/
def reformatBlock (source : Text) (b : Block) (g : Grid) (lead : Text) :
    Noted (Except PatchError Outcome) :=
  let replacements := b.tables.map (replacement g lead (breakOf source))
  let skips := b.tables.filterMap (skipNote g lead (breakOf source))
  let rendered := replacements.countP Option.isSome
  match patch source b replacements with
  | .error e => ⟨.error e, skips⟩
  | .ok text =>
    ⟨.ok ⟨text, true, b.tables.length, rendered, skips.length⟩,
      skips ++ [.formatted rendered b.tables.length]⟩

def reformat (source : Text) (g : Grid) (lead : Text) : Noted (Except PatchError Outcome) :=
  let parsed := parseBlock (encode source)
  match parsed.value with
  | none => ⟨.ok ⟨source, false, 0, 0, 0⟩, parsed.notes ++ [.noBlock]⟩
  | some b =>
    if b.unparsed = 0 then
      let formatted := reformatBlock source b g lead
      ⟨formatted.value, parsed.notes ++ formatted.notes⟩
    else
      ⟨.ok ⟨source, true, b.tables.length, 0, 0⟩, parsed.notes ++ [.unparsedEntries b.unparsed]⟩

end KeyTables
