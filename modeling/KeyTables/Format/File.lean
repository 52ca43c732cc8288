import KeyTables.Format.Source
import KeyTables.Disk

/-! Formatting the content of a file. The file is written back only if that is wanted and the text has
changed. Line breaks are kept as they are. -/
namespace KeyTables
set_option autoImplicit false

inductive FileError where
  | access (e : AccessError)
  | undecodable (e : DecodeError)
  | patching (e : PatchError)
  deriving DecidableEq

def FileError.message (path : Path) : FileError → String
  | .access e => e.message path
  | .undecodable e => e.message
  | .patching e => e.message

structure FileOutcome where
  outcome : Outcome
  changed : Bool
  deriving DecidableEq

structure FileResult where
  value : Except FileError FileOutcome
  notes : List Note
  /-- The new content of the file, if it is written. -/
  written : Option Bytes

/-- Formats the file at `path`, where `content` is what reading it gave. -/
def reformatFile (path : Path) (content : Except AccessError Bytes) (g : Grid) (write : Bool)
    (lead : Text) : FileResult :=
  match content with
  | .error e => ⟨.error (.access e), [], none⟩
  | .ok bytes =>
    match decode bytes with
    | .error e => ⟨.error (.undecodable e), [], none⟩
    | .ok source =>
      let formatted := reformat source g lead
      match formatted.value with
      | .error e => ⟨.error (.patching e), formatted.notes, none⟩
      | .ok outcome =>
        let changed := outcome.text != source
        if write && changed then
          ⟨.ok ⟨outcome, changed⟩, formatted.notes ++ [.saved path outcome.rendered],
            some (encode outcome.text)⟩
        else ⟨.ok ⟨outcome, changed⟩, formatted.notes, none⟩

end KeyTables
