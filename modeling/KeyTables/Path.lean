import KeyTables.Text.Raw

/-! File paths. A path is a root and the names below it; writing a path back gives its normal form,
without repeated slashes, single dots and a trailing slash. Parent steps are kept, since what they
mean depends on the files. -/
namespace KeyTables
set_option autoImplicit false

inductive Path.Root where
  /-- From the working directory. -/
  | relative
  | slash
  /-- Exactly two slashes in front, which stay two. -/
  | doubleSlash
  deriving DecidableEq

structure Path where
  root : Path.Root
  parts : List RawText
  deriving DecidableEq

namespace Path

def isSlash (r : Rune) : Bool :=
  r == .char '/'

def Root.ofSlashes : Nat → Root
  | 0 => .relative
  | 2 => .doubleSlash
  | _ => .slash

def Root.text : Root → RawText
  | .relative => []
  | .slash => raw ['/']
  | .doubleSlash => raw ['/', '/']

/-- The step to the same directory. -/
def here : RawText :=
  raw ['.']

/-- The step to the directory above. -/
def above : RawText :=
  raw ['.', '.']

def parse (t : RawText) : Path where
  root := Root.ofSlashes (t.takeWhile isSlash).length
  parts := (t.splitOnP isSlash).filter fun part => part != [] && part != here

/-- The normal form. The working directory itself is a single dot. -/
def text (p : Path) : RawText :=
  match p.root.text ++ List.intercalate (raw ['/']) p.parts with
  | [] => here
  | t => t

/-- The path as messages show it. -/
def shown (p : Path) : String :=
  String.ofList p.text.shown

end Path

end KeyTables
