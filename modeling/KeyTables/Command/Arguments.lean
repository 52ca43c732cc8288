import KeyTables.Path
import KeyTables.Text.Digit

/-! Command line arguments. Every argument is classified by its spelling first; then they are taken up
from left to right. Long options may be shortened as long as they stay unambiguous, and a double dash
ends the options.

* `classify`: what a single argument is.
* `readArguments`: what is asked for, or the first error. -/
namespace KeyTables
set_option autoImplicit false

inductive Switch where
  | help | layout | overwrite | check
  deriving DecidableEq

namespace Switch

def all : List Switch :=
  [.help, .layout, .overwrite, .check]

def name : Switch → String
  | .help => "--help"
  | .layout => "--layout"
  | .overwrite => "--overwrite"
  | .check => "--check"

/-- How messages call the switch. -/
def label : Switch → String
  | .help => "-h/--help"
  | s => s.name

end Switch

inductive Argument where
  | operand (t : RawText)
  /-- A switch, with the value that is attached to it. -/
  | switch (s : Switch) (value : Option RawText)
  /-- The one-letter switch for help, with more letters attached to it. -/
  | letters (t : RawText)
  | unknown (t : RawText)
  | separator
  deriving DecidableEq

inductive ArgumentError where
  | ambiguous (given : RawText) (candidates : List Switch)
  | missingValue (s : Switch)
  | ignoredValue (s : Switch) (value : RawText)
  | missingPath
  | unrecognized (arguments : List RawText)
  deriving DecidableEq

def ArgumentError.message : ArgumentError → String
  | .ambiguous given candidates =>
    let names := ", ".intercalate (candidates.map Switch.name)
    let shown := String.ofList given.shown
    s!"ambiguous option: {shown} could match {names}"
  | .missingValue s => s!"argument {s.label}: expected one argument"
  | .ignoredValue s value =>
    let shown := String.ofList value.quoted
    s!"argument {s.label}: ignored explicit argument {shown}"
  | .missingPath => "the following arguments are required: path"
  | .unrecognized arguments =>
    let shown := " ".intercalate (arguments.map fun t => String.ofList t.shown)
    s!"unrecognized arguments: {shown}"

/-! ## Classification -/

/-- The part before the first equals sign, and the part after it if there is one. -/
def splitValue (t : RawText) : RawText × Option RawText :=
  match t.dropWhile (· != .char '=') with
  | [] => (t, none)
  | _ :: value => (t.takeWhile (· != .char '='), some value)

/-- The switches that a long spelling may stand for: the one with exactly that name, or else all whose
names start with it. -/
def candidates (spelling : RawText) : List Switch :=
  match Switch.all.filter fun s => raw s.name.toList = spelling with
  | [] => Switch.all.filter fun s => spelling.isPrefixOf (raw s.name.toList)
  | exact => exact

def isDigit : Rune → Bool
  | .char c => isDecimalDigit c
  | .stray _ => false

def isDigits (t : RawText) : Bool :=
  !t.isEmpty && t.all isDigit

/-- The text without the line feed at its end, if there is one. -/
def dropLastFeed (t : RawText) : RawText :=
  if t.getLast? = some (.char '\n') then t.dropLast else t

/-- Digits, or a decimal point with digits after it and perhaps before it. -/
def isNumber (t : RawText) : Bool :=
  isDigits t ||
    match t.dropWhile isDigit with
    | .char '.' :: fraction => isDigits fraction
    | _ => false

/-- What starts with a dash but is no switch: negative numbers and texts with a space are operands. A
line feed after a number does not count. -/
def classifyOther (t : RawText) : Argument :=
  if isNumber (dropLastFeed t.tail) || t.contains (.char ' ') then .operand t else .unknown t

def classify (t : RawText) : Except ArgumentError Argument :=
  match t with
  | .char '-' :: .char '-' :: _ =>
    match candidates (splitValue t).1 with
    | [] => .ok (classifyOther t)
    | [s] => .ok (.switch s (splitValue t).2)
    | several => .error (.ambiguous t several)
  | [.char '-', .char 'h'] => .ok (.switch .help none)
  | .char '-' :: .char 'h' :: .char '=' :: value => .ok (.letters value)
  | .char '-' :: .char 'h' :: value => .ok (.letters value)
  | .char '-' :: _ :: _ => .ok (classifyOther t)
  | _ => .ok (.operand t)

/-- Everything after a double dash is an operand. -/
def classifyAll : List RawText → Except ArgumentError (List Argument)
  | [] => .ok []
  | [.char '-', .char '-'] :: rest => .ok (.separator :: rest.map .operand)
  | t :: rest =>
    match classify t with
    | .error e => .error e
    | .ok argument =>
      match classifyAll rest with
      | .error e => .error e
      | .ok others => .ok (argument :: others)

/-! ## Taking up -/

/-- The layout that the arguments name. -/
inductive LayoutChoice where
  | unset
  | file (p : Path)
  /-- The value is a double dash, which is dropped, so that no value is left. -/
  | dropped
  deriving DecidableEq

/-- The choice that a value makes. Only a value that is attached to its switch can be a double
dash. -/
def LayoutChoice.ofValue (t : RawText) : LayoutChoice :=
  if t = raw ['-', '-'] then .dropped else .file (Path.parse t)

/-- What has been taken up so far. -/
structure Taken where
  path : Option RawText
  layout : LayoutChoice
  overwrite : Bool
  check : Bool
  /-- What nothing was found for, in order. -/
  surplus : List RawText

/-- Letters attached to the switch for help must all be the same letter again; what starts with any
other one is a value, which the switch does not take. -/
def checkLetters : RawText → Except ArgumentError Unit
  | [.char 'h'] => .ok ()
  | .char 'h' :: t => checkLetters t
  | t => .error (.ignoredValue .help t)

/-- Takes up the arguments one by one; nothing comes back as soon as help is asked for. The first
operand is the path. A separator next to it is dropped, and `atPath` says that the path was taken up
last. -/
def takeUp (atPath : Bool) (taken : Taken) :
    List Argument → Except ArgumentError (Option Taken)
  | [] => .ok (some taken)
  | .operand t :: rest =>
    if taken.path.isNone then takeUp true { taken with path := some t } rest
    else takeUp false { taken with surplus := taken.surplus ++ [t] } rest
  | .separator :: rest =>
    if taken.path.isNone || atPath then takeUp false taken rest
    else takeUp false { taken with surplus := taken.surplus ++ [raw ['-', '-']] } rest
  | .unknown t :: rest => takeUp false { taken with surplus := taken.surplus ++ [t] } rest
  | .letters t :: _ =>
    match checkLetters t with
    | .error e => .error e
    | .ok _ => .ok none
  | .switch .help none :: _ => .ok none
  | .switch .layout (some value) :: rest => takeUp false { taken with layout := .ofValue value } rest
  | .switch .layout none :: .operand t :: rest =>
    takeUp false { taken with layout := .ofValue t } rest
  | .switch .layout none :: _ => .error (.missingValue .layout)
  | .switch .overwrite none :: rest => takeUp false { taken with overwrite := true } rest
  | .switch .check none :: rest => takeUp false { taken with check := true } rest
  | .switch s (some value) :: _ => .error (.ignoredValue s value)

/-- What a run is asked to do. -/
structure Request where
  path : Path
  layout : LayoutChoice
  overwrite : Bool
  check : Bool
  deriving DecidableEq

/-- The request that the arguments make, or nothing if they ask for help. -/
def readArguments (arguments : List RawText) : Except ArgumentError (Option Request) :=
  match classifyAll arguments with
  | .error e => .error e
  | .ok classified =>
    match takeUp false ⟨none, .unset, false, false, []⟩ classified with
    | .error e => .error e
    | .ok none => .ok none
    | .ok (some taken) =>
      match taken.path with
      | none => .error .missingPath
      | some path =>
        if taken.surplus.isEmpty then
          .ok (some ⟨Path.parse path, taken.layout, taken.overwrite, taken.check⟩)
        else .error (.unrecognized taken.surplus)

end KeyTables
