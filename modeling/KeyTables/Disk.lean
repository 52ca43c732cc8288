import KeyTables.Path

/-! Files that can be read and written. Which file a path leads to is left open: it may start from the
root or from the working directory, go up, and follow links, and several paths may lead to one file.
Any file may refuse to be read, and a write may be refused or break off halfway.

* `Disk.read`: what reading a path gives.
* `Disk.write`: the disk after a content is written to a path, also if that fails. -/
namespace KeyTables
set_option autoImplicit false

/-- Why a file cannot be used. -/
inductive AccessError where
  | notFound
  | isDirectory
  | notDirectory
  | nameTooLong
  /-- Any other failure to open it, with its number and its name. -/
  | failed (code : Nat) (reason : String)
  /-- A failure once it is open. Its message does not name the path. -/
  | brokenOff (code : Nat) (reason : String)
  deriving DecidableEq

namespace AccessError

def code : AccessError → Nat
  | .notFound => 2
  | .isDirectory => 21
  | .notDirectory => 20
  | .nameTooLong => 36
  | .failed code _ => code
  | .brokenOff code _ => code

def reason : AccessError → String
  | .notFound => "No such file or directory"
  | .isDirectory => "Is a directory"
  | .notDirectory => "Not a directory"
  | .nameTooLong => "File name too long"
  | .failed _ reason => reason
  | .brokenOff _ reason => reason

def message (e : AccessError) (p : Path) : String :=
  match e with
  | .brokenOff code reason => s!"[Errno {code}] {reason}"
  | e =>
    let shown := String.ofList p.text.quoted
    s!"[Errno {e.code}] {e.reason}: {shown}"

end AccessError

structure WriteFault where
  error : AccessError
  /-- How many bytes are written before it breaks off. Without a number the file is not opened, and
  stays as it is. -/
  kept : Option Nat

structure Disk (File : Type) where
  /-- The file that a path leads to. -/
  find : Path → Except AccessError File
  content : File → Bytes
  readFault : File → Option AccessError
  /-- Why the file does not take a content. -/
  writeFault : File → Bytes → Option WriteFault

namespace Disk

variable {File : Type} (d : Disk File)

def read (p : Path) : Except AccessError Bytes :=
  match d.find p with
  | .error e => .error e
  | .ok f =>
    match d.readFault f with
    | some e => .error e
    | none => .ok (d.content f)

/-- Why a content cannot be written to a path. -/
def writeError (p : Path) (bytes : Bytes) : Option AccessError :=
  match d.find p with
  | .error e => some e
  | .ok f => (d.writeFault f bytes).map WriteFault.error

/-- What a file holds once a content has been written to it. -/
def stored (f : File) (bytes : Bytes) : Bytes :=
  match d.writeFault f bytes with
  | none => bytes
  | some ⟨_, none⟩ => d.content f
  | some ⟨_, some kept⟩ => bytes.take kept

def write [DecidableEq File] (p : Path) (bytes : Bytes) : Disk File :=
  match d.find p with
  | .error _ => d
  | .ok f =>
    { d with content := fun other => if other = f then d.stored f bytes else d.content other }

end Disk

end KeyTables
