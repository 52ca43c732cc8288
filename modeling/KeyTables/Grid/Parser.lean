import KeyTables.Grid.Basic
import KeyTables.Text.Blank
import KeyTables.Text.Lines
import KeyTables.Text.Utf8

/-! Reading grids. A line is a row of cells with blanks between them; empty lines and lines whose first
word starts with a number sign are skipped, but counted. The first bad cell is reported with the number
of its line.

* `Grid.ofText`: a grid from a text.
* `Grid.ofFile`: a grid from the content of a file. -/
namespace KeyTables
set_option autoImplicit false

inductive GridError where
  | unknownCell (line : Nat) (cell : Text)
  | noRows
  deriving DecidableEq

def GridError.message : GridError → String
  | .unknownCell line cell =>
    let shown := String.ofList (quoted cell)
    s!"line {line}: unknown cell {shown}"
  | .noRows => "layout defines no rows"

/-- The mark that a cell spells. -/
def Mark.ofCell? : Text → Option Mark
  | ['K'] => some .key
  | ['k'] => some .key
  | ['x'] => some .key
  | ['.'] => some .blank
  | ['_'] => some .blank
  | ['-'] => some .blank
  | _ => none

namespace Grid

/-- Whether a line with these words is no row. -/
def isSkipped : List Text → Bool
  | [] => true
  | word :: _ => word.head? == some '#'

/-- The row that the cells of a line spell. -/
def readRow (line : Nat) : List Text → Except GridError (List Mark)
  | [] => .ok []
  | cell :: cells =>
    match Mark.ofCell? cell with
    | none => .error (.unknownCell line cell)
    | some mark =>
      match readRow line cells with
      | .error e => .error e
      | .ok row => .ok (mark :: row)

/-- The rows of the lines, the first of which has the number `line`. -/
def readRows (line : Nat) : List Text → Except GridError Grid
  | [] => .ok []
  | l :: ls =>
    if isSkipped (words l) then readRows (line + 1) ls
    else
      match readRow line (words l) with
      | .error e => .error e
      | .ok row =>
        match readRows (line + 1) ls with
        | .error e => .error e
        | .ok g => .ok (row :: g)

end Grid

def Grid.ofText (t : Text) : Except GridError Grid :=
  match Grid.readRows 1 (lines t) with
  | .ok [] => .error .noRows
  | result => result

inductive GridFileError where
  | undecodable (e : DecodeError)
  | malformed (e : GridError)
  deriving DecidableEq

def Grid.ofFile (content : Bytes) : Except GridFileError Grid :=
  match decode content with
  | .error e => .error (.undecodable e)
  | .ok t =>
    match Grid.ofText (unifyBreaks t) with
    | .error e => .error (.malformed e)
    | .ok g => .ok g

end KeyTables
