import KeyTables.Command.Arguments
import KeyTables.Format.File
import KeyTables.Grid.Parser
import KeyTables.Settings

/-! A run of the command. It reads the grid file and the source file, formats the source, and prints the
result, writes it back or only reports whether it would change. What reading, writing and printing
come to is asked of the host, so a run is a plain function, and all that it does to the files is what
it says is written.

* `run`: a run on a host.
* `Disk.run`: a run on a disk, and the disk after it. -/
namespace KeyTables
set_option autoImplicit false

/-- What a run can do, and what comes of it. -/
structure Host where
  read : Path → Except AccessError Bytes
  /-- Why a content cannot be written to a path. -/
  writeError : Path → Bytes → Option AccessError
  /-- Why the encoding of the standard output cannot hold a text. -/
  refusal : Text → Option String

/-- What goes to the error output, in order. -/
inductive Report where
  | note (n : Note)
  | line (s : String)

/-- Failures that nothing takes care of. -/
inductive Crash where
  /-- The grid file is no text. -/
  | undecodableLayout (e : DecodeError)
  /-- The value of the layout was dropped. -/
  | droppedLayout
  /-- The path holds the character that ends texts in system calls. -/
  | nulInPath
  | level (e : LevelError)
  /-- A table was drawn with a lead that is no text. -/
  | unencodableLead (e : EncodeError)
  /-- The standard output cannot hold what is printed. -/
  | unprintable (reason : String)
  deriving DecidableEq

def Crash.message : Crash → String
  | .undecodableLayout e => e.message
  | .droppedLayout => "'list' object has no attribute 'read_text'"
  | .nulInPath => "embedded null byte"
  | .level e => e.message
  | .unencodableLead e => e.message
  | .unprintable reason => reason

inductive Ending where
  | exit (code : Nat)
  | crash (c : Crash)
  deriving DecidableEq

structure RunResult where
  ending : Ending
  output : Text
  reports : List Report
  /-- The file that is to be written, with its new content, also if that fails. -/
  written : Option (Path × Bytes)

/-! ## Wording -/

def usage : String :=
  "usage: format_keymap.py [-h] [--layout LAYOUT] [--overwrite] [--check] path\n"

def helpText : String :=
  usage ++
  "\nFormat the keymaps table of a QMK keymap.c\n" ++
  "\npositional arguments:\n" ++
  "  path             keymap source file\n" ++
  "\noptions:\n" ++
  "  -h, --help       show this help message and exit\n" ++
  "  --layout LAYOUT  Occupancy grid file (default: KEYMAP_LAYOUT from .env)\n" ++
  "  --overwrite      Write the result back to PATH instead of printing it\n" ++
  "  --check          Only report whether PATH would change; exit 1 if it would\n"

/-- A note as a line of the error output, with the time of day in front and the level in five
columns. -/
def noteLine (clock : String) (n : Note) : String :=
  let level := String.ofList (padEnd 5 n.level.label.toList)
  s!"{clock} {level} [{n.channel}] {n.message}\n"

/-- A report as text. Notes below the threshold are not shown. -/
def Report.text (clock : String) (threshold : Level) : Report → String
  | .note n => if n.reaches threshold then noteLine clock n else ""
  | .line s => s ++ "\n"

/-- The whole error output of a run. -/
def RunResult.errorOutput (clock : String) (threshold : Level) (r : RunResult) : String :=
  String.join (r.reports.map (Report.text clock threshold))

/-! ## Runs -/

/-- A run that ends early with one message. -/
def failure (code : Nat) (message : String) : RunResult :=
  ⟨.exit code, [], [.line message], none⟩

/-- A run that ends in a failure that nothing takes care of. -/
def crash (c : Crash) (reports : List Report) : RunResult :=
  ⟨.crash c, [], reports, none⟩

/-- A run that ends by printing. -/
def print (h : Host) (t : Text) (reports : List Report) : RunResult :=
  match h.refusal t with
  | none => ⟨.exit 0, t, reports, none⟩
  | some reason => crash (.unprintable reason) reports

/-- Warnings about a source that was formatted. -/
def warnings (path : Path) (o : Outcome) : List Report :=
  let noBlock :=
    if o.blockFound then [] else [.line s!"Warning: no keymaps block found in {path.shown}"]
  let unchanged := " tables left unchanged (key count does not match layout)"
  let skipped :=
    if o.skipped = 0 then []
    else [.line (s!"Warning: {o.skipped} of {o.tables}" ++ unchanged)]
  noBlock ++ skipped

/-- The end of a run whose source was formatted. A check wins over overwriting. -/
def conclude (h : Host) (request : Request) (f : FileOutcome) (notes : List Report) : RunResult :=
  let reports := notes ++ warnings request.path f.outcome
  if request.check then
    if f.changed then
      ⟨.exit 1, [], reports ++ [.line s!"{request.path.shown} would be reformatted"], none⟩
    else ⟨.exit 0, [], reports, none⟩
  else if request.overwrite then
    let state := if f.changed then "reformatted" else "unchanged"
    let count := s!"({f.outcome.rendered}/{f.outcome.tables} tables)"
    ⟨.exit 0, [], reports ++ [.line s!"{request.path.shown}: {state} {count}"], none⟩
  else print h f.outcome.text reports

/-- The end of a run whose source cannot be read, formatted or written. -/
def sourceFailure (request : Request) (notes : List Report) (message : String) : RunResult :=
  ⟨.exit 2, [], notes ++ [.line s!"Error: {request.path.shown}: {message}"], none⟩

/-- Writes the formatted source, if that is called for, and ends the run. The last note says that the
file was written. -/
def saveAndConclude (h : Host) (request : Request) (f : FileOutcome) (notes : List Note)
    (content : Option Bytes) : RunResult :=
  match content with
  | none => conclude h request f (notes.map .note)
  | some bytes =>
    let ended :=
      match h.writeError request.path bytes with
      | none => conclude h request f (notes.map .note)
      | some e => sourceFailure request (notes.dropLast.map .note) (e.message request.path)
    { ended with written := some (request.path, bytes) }

def hasNul (p : Path) : Bool :=
  p.text.contains (.char '\x00')

/-- The text of the file at a path. There is none if the path holds a NUL character, if no file can
be read there, and if the file is not UTF-8. -/
def textAt? (read : Path → Except AccessError Bytes) (p : Path) : Option Text :=
  if hasNul p then none
  else
    match read p with
    | .error _ => none
    | .ok content => (decode content).toOption

/-- Why the tables that were drawn cannot be encoded: each of them starts with a line break and the
lead. The text of a lead with stray bytes is a stand-in, which never gets further than here. -/
def tableError? (source : Text) (lead : RawText) (o : Outcome) : Option EncodeError :=
  if o.rendered = 0 then none else (raw (breakOf source) ++ lead).encodeError?

/-- A run whose grid is known. -/
def runOnGrid (h : Host) (settings : Settings) (request : Request) (g : Grid) : RunResult :=
  if hasNul request.path then crash .nulInPath []
  else
    let result := reformatFile request.path (h.read request.path) g
      (request.overwrite && !request.check) settings.lead.lossy
    match result.value with
    | .error e => sourceFailure request (result.notes.map .note) (e.message request.path)
    | .ok f =>
      match (textAt? h.read request.path).bind fun t => tableError? t settings.lead f.outcome with
      | some e =>
        let before := result.notes.takeWhile Note.precedesPatching
        crash (.unencodableLead e) (before.map .note)
      | none => saveAndConclude h request f result.notes result.written

/-- A run whose grid file is known. -/
def runOnLayout (h : Host) (settings : Settings) (request : Request) (layout : Path) : RunResult :=
  if hasNul layout then crash .nulInPath []
  else
    match h.read layout with
    | .error e =>
      let message := e.message layout
      failure 2 s!"Error: cannot read layout {layout.shown}: {message}"
    | .ok content =>
      match Grid.ofFile content with
      | .error (.undecodable e) => crash (.undecodableLayout e) []
      | .error (.malformed e) => failure 1 s!"Error: invalid layout {layout.shown}: {e.message}"
      | .ok g => runOnGrid h settings request g

/-- A run whose arguments were accepted. -/
def runRequest (h : Host) (settings : Settings) (request : Request) : RunResult :=
  match settings.levelError? with
  | some e => crash (.level e) []
  | none =>
    match request.layout with
    | .dropped => crash .droppedLayout []
    | .file layout => runOnLayout h settings request layout
    | .unset =>
      match settings.layout with
      | none => failure 1 "Error: no layout given. Use --layout or set KEYMAP_LAYOUT in .env."
      | some layout => runOnLayout h settings request layout

/-- A run of the command with the given arguments. -/
def run (h : Host) (settings : Settings) (arguments : List RawText) : RunResult :=
  match readArguments arguments with
  | .error e => failure 2 (usage ++ s!"format_keymap.py: error: {e.message}")
  | .ok none => print h helpText.toList []
  | .ok (some request) => runRequest h settings request

namespace Disk

variable {File : Type}

/-- A host with these files, and a standard output that refuses some texts. -/
def host (d : Disk File) (refusal : Text → Option String) : Host where
  read := d.read
  writeError := d.writeError
  refusal := refusal

/-- A run on a disk, and the disk after it. -/
def run [DecidableEq File] (d : Disk File) (refusal : Text → Option String) (settings : Settings)
    (arguments : List RawText) : RunResult × Disk File :=
  let result := KeyTables.run (d.host refusal) settings arguments
  match result.written with
  | none => (result, d)
  | some (path, bytes) => (result, d.write path bytes)

end Disk

end KeyTables
