import KeyTables.Command.Run
import Std.Time.DateTime.Timestamp

/-! The command line program: it reads the environment and the files that a run asks for, and carries
out what the run says. Whether the source can be written shows only in the attempt, so a run that
writes is made again once the outcome is known. -/
namespace KeyTables
set_option autoImplicit false

/-- The number of a failure, which some system calls report with its sign changed. -/
def failureNumber (code : UInt32) : Nat :=
  if code.toNat < 0x80000000 then code.toNat else 0x100000000 - code.toNat

def failureOf (code : UInt32) (reason : String) : AccessError :=
  match failureNumber code with
  | 2 => .notFound
  | 20 => .notDirectory
  | 21 => .isDirectory
  | 36 => .nameTooLong
  | number => .failed number reason

/-- The failure that a system call reported. -/
def accessError (e : IO.Error) : AccessError :=
  match e with
  | .noFileOrDirectory .. => .notFound
  | .inappropriateType _ code reason => failureOf code reason
  | .permissionDenied _ code reason => failureOf code reason
  | .resourceExhausted _ code reason => failureOf code reason
  | .invalidArgument _ code reason => failureOf code reason
  | .otherError code reason => failureOf code reason
  | other => .failed 5 (toString other)

/-- The name of a file for system calls, which take texts only. -/
def fileName (p : Path) : String :=
  String.ofList p.text.lossy

def readFile (p : Path) : IO (Except AccessError Bytes) := do
  try
    let content ← IO.FS.readBinFile (fileName p)
    return .ok content.toList
  catch e => return .error (accessError e)

/-- Writes a file, and tells why it could not be written. -/
def writeFile (p : Path) (content : Bytes) : IO (Option AccessError) := do
  try
    IO.FS.writeBinFile (fileName p) (ByteArray.mk content.toArray)
    return none
  catch e => return some (accessError e)

def rawString (s : String) : RawText :=
  raw s.toList

def environmentText (name : String) : IO (Option RawText) := do
  return (← IO.getEnv name).map rawString

def twoDigits (n : Nat) : String :=
  if n < 10 then s!"0{n}" else toString n

/-- The time of day. -/
def clock : IO String := do
  let now ← Std.Time.Timestamp.now
  let seconds := now.toSecondsSinceUnixEpoch.val.toNat % 86400
  let hours := twoDigits (seconds / 3600)
  let minutes := twoDigits (seconds / 60 % 60)
  let rest := twoDigits (seconds % 60)
  return s!"{hours}:{minutes}:{rest}"

/-- The files that a run with these arguments may read. -/
def inputs (settings : Settings) (arguments : List RawText) : List Path :=
  match readArguments arguments with
  | .ok (some request) =>
    match request.layout with
    | .dropped => [request.path]
    | .file layout => [request.path, layout]
    | .unset => request.path :: settings.layout.toList
  | _ => []

end KeyTables

open KeyTables in
def main (arguments : List String) : IO UInt32 := do
  let settings := Settings.ofEnvironment
    ⟨← environmentText "KEYMAP_LAYOUT", ← environmentText "DIAGRAM_PREFIX", ← environmentText "LOG_LEVEL"⟩
  let arguments := arguments.map rawString
  let contents ← (inputs settings arguments).mapM fun p => return (p, ← readFile p)
  let read := fun p => (contents.lookup p).getD (.error .notFound)
  let resultWith := fun fault => run ⟨read, fun _ _ => fault, fun _ => none⟩ settings arguments
  let result ←
    match (resultWith none).written with
    | none => pure (resultWith none)
    | some (path, content) => do pure (resultWith (← writeFile path content))
  IO.eprint (result.errorOutput (← clock) settings.threshold)
  IO.print (String.ofList result.output)
  match result.ending with
  | .exit code => return code.toUInt32
  | .crash c =>
    IO.eprintln c.message
    return 1
