import KeyTables.Drawing.Table
import KeyTables.Note
import KeyTables.Text.Capital

/-! Settings that come from the environment. -/
namespace KeyTables
set_option autoImplicit false

/-- The variables that are looked at, as far as they are set. -/
structure Environment where
  keymapLayout : Option RawText
  diagramLead : Option RawText
  logLevel : Option RawText

structure Settings where
  /-- The grid file that is used if none is named. -/
  layout : Option Path
  /-- The lead of every diagram line. -/
  lead : RawText
  /-- The name of the threshold for notes, in capitals. -/
  levelName : RawText
  deriving DecidableEq

/-- Names that stand for something else than a level, so that no threshold can be set. -/
inductive LevelError where
  /-- The name of the usual form of a log line. -/
  | lineForm
  /-- The name of the table of all forms of a log line. -/
  | formTable
  deriving DecidableEq

def LevelError.message : LevelError → String
  | .lineForm => "Unknown level: '%(levelname)s:%(name)s:%(message)s'"
  | .formTable =>
    "Level not an integer or a valid string: " ++
    "\x7b'%': (<class 'logging.PercentStyle'>, '%(levelname)s:%(name)s:%(message)s'), " ++
    "'\x7b': (<class 'logging.StrFormatStyle'>, " ++
    "'\x7blevelname\x7d:\x7bname\x7d:\x7bmessage\x7d'), " ++
    "'$': (<class 'logging.StringTemplateStyle'>, " ++
    "'$\x7blevelname\x7d:$\x7bname\x7d:$\x7bmessage\x7d')\x7d"

namespace Settings

/-- A layout that is set to nothing counts as not set. -/
def ofEnvironment (env : Environment) : Settings where
  layout :=
    match env.keymapLayout with
    | none => none
    | some [] => none
    | some t => some (Path.parse t)
  lead := env.diagramLead.getD (raw defaultLead)
  levelName := (env.logLevel.getD (raw ['I', 'N', 'F', 'O'])).capitals

/-- The name of the threshold, if it is a text. -/
def levelText? (s : Settings) : Option String :=
  s.levelName.text?.map String.ofList

/-- The threshold for notes. An unknown name stands for the usual one. -/
def threshold (s : Settings) : Level :=
  (s.levelText?.bind Level.ofName?).getD .info

/-- Why the threshold cannot be set. -/
def levelError? (s : Settings) : Option LevelError :=
  match s.levelText? with
  | some "BASIC_FORMAT" => some .lineForm
  | some "_STYLES" => some .formTable
  | _ => none

end Settings

end KeyTables
