import KeyTables.Disk
import KeyTables.Text.Utf8

/-! A tree of files. Paths are followed step by step, from the root or from the working directory: every
step must leave a directory, and a parent step goes up again, though never above the root. Names and
paths have a greatest length in bytes. -/
namespace KeyTables
set_option autoImplicit false

def Rune.bytes : Rune → Bytes
  | .char c => encode [c]
  | .stray b => [b]

def RawText.bytes (t : RawText) : Bytes :=
  t.flatMap Rune.bytes

structure Tree where
  /-- The working directory, by the names from the root down. -/
  home : List RawText
  /-- The files, by the names from the root down. -/
  files : List (List RawText × Bytes)
  /-- Directories that need not hold a file. -/
  directories : List (List RawText)

namespace Tree

def file? (t : Tree) (names : List RawText) : Option Bytes :=
  t.files.lookup names

/-- Directories are the ones listed, the ones on the way to a file, and the ones down to the working
directory. -/
def isDirectory (t : Tree) (names : List RawText) : Bool :=
  names.isPrefixOf t.home || t.directories.any names.isPrefixOf ||
    t.files.any fun f => names.isPrefixOf f.1 && names != f.1

/-- The number of bytes that a single name may have. -/
def nameLimit : Nat := 255

/-- The number of bytes that a whole path may have. -/
def pathLimit : Nat := 4095

def isLongName (name : RawText) : Bool :=
  nameLimit < name.bytes.length

/-- One step of a path. -/
def step (t : Tree) (names : List RawText) (name : RawText) : Except AccessError (List RawText) :=
  if !t.isDirectory names then .error .notDirectory
  else if name = Path.above then .ok names.dropLast
  else if isLongName name then .error .nameTooLong
  else if (t.file? (names ++ [name])).isSome || t.isDirectory (names ++ [name]) then
    .ok (names ++ [name])
  else .error .notFound

def walk (t : Tree) (names : List RawText) : List RawText → Except AccessError (List RawText)
  | [] => .ok names
  | name :: rest =>
    match t.step names name with
    | .error e => .error e
    | .ok next => walk t next rest

def start (t : Tree) : Path.Root → List RawText
  | .relative => t.home
  | _ => []

/-- Where a path leads. -/
def locate (t : Tree) (p : Path) : Except AccessError (List RawText) :=
  if pathLimit < p.text.bytes.length then .error .nameTooLong
  else t.walk (t.start p.root) p.parts

/-- The file that a path leads to. -/
def find (t : Tree) (p : Path) : Except AccessError (List RawText) :=
  match t.locate p with
  | .error e => .error e
  | .ok names => if (t.file? names).isSome then .ok names else .error .isDirectory

/-- The tree as a disk whose files can all be read and written. -/
def disk (t : Tree) : Disk (List RawText) where
  find := t.find
  content := fun names => (t.file? names).getD []
  readFault := fun _ => none
  writeFault := fun _ _ => none

end Tree

end KeyTables
