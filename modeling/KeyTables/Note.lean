import KeyTables.Path
import KeyTables.Token.Basic

/-! Notes taken while a source is read and formatted. A note says what was met; its level, the channel
it goes to and its wording follow from that. -/
namespace KeyTables
set_option autoImplicit false

inductive Level where
  | notset | debug | info | warning | error | critical
  deriving DecidableEq

namespace Level

def rank : Level → Nat
  | .notset => 0
  | .debug => 10
  | .info => 20
  | .warning => 30
  | .error => 40
  | .critical => 50

def label : Level → String
  | .notset => "NOTSET"
  | .debug => "DEBUG"
  | .info => "INFO"
  | .warning => "WARNING"
  | .error => "ERROR"
  | .critical => "CRITICAL"

/-- A level by any of its names. -/
def ofName? (name : String) : Option Level :=
  match name with
  | "NOTSET" => some .notset
  | "DEBUG" => some .debug
  | "INFO" => some .info
  | "WARNING" => some .warning
  | "WARN" => some .warning
  | "ERROR" => some .error
  | "CRITICAL" => some .critical
  | "FATAL" => some .critical
  | _ => none

end Level

inductive Note where
  /-- A token of another kind than the one wanted. -/
  | unexpected (wanted : Token.Kind) (found : Token)
  /-- The source ends inside the block that opens at the offset. -/
  | neverClosed (offset : Nat)
  | noBlock
  | unparsedEntries (count : Nat)
  | skipped (name : Text) (expected actual : Nat)
  | formatted (rendered tables : Nat)
  | saved (path : Path) (rendered : Nat)
  deriving DecidableEq

namespace Note

def level : Note → Level
  | .unexpected .. => .debug
  | .neverClosed .. => .debug
  | .noBlock => .info
  | .unparsedEntries .. => .warning
  | .skipped .. => .warning
  | .formatted .. => .debug
  | .saved .. => .info

def channel : Note → String
  | .unexpected .. => "keymapfmt.source.parser"
  | .neverClosed .. => "keymapfmt.source.parser"
  | .noBlock => "keymapfmt.patcher"
  | .unparsedEntries .. => "keymapfmt.patcher"
  | .skipped .. => "keymapfmt.patcher"
  | .formatted .. => "keymapfmt.patcher"
  | .saved .. => "keymapfmt.pipeline"

def message : Note → String
  | .unexpected wanted found =>
    let shown := String.ofList (quoted found.text)
    s!"Expected {wanted.label} at offset {found.offset}, found {found.kind.label} {shown}"
  | .neverClosed offset => s!"Keymaps block opened at offset {offset} is never closed"
  | .noBlock => "No keymaps block found, leaving source unchanged"
  | .unparsedEntries count =>
    s!"{count} entries in the keymaps block could not be parsed, leaving source unchanged"
  | .skipped name expected actual =>
    let shown := String.ofList name
    s!"Skipping [{shown}]: expected {expected} keys, found {actual}"
  | .formatted rendered tables => s!"Formatted {rendered}/{tables} tables"
  | .saved path rendered => s!"Rewrote {path.shown} ({rendered} tables)"

/-- Whether the note is taken before the drawn tables are put into the source. -/
def precedesPatching : Note → Bool
  | .formatted .. => false
  | .saved .. => false
  | _ => true

/-- Whether a threshold lets the note through. -/
def reaches (n : Note) (threshold : Level) : Bool :=
  threshold.rank ≤ n.level.rank

end Note

end KeyTables
