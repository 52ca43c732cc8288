import KeyTables.Proofs.Command.Requests

/-! The modes of a run: printing, overwriting and checking.

* `Disk.ModesAgree`: overwriting leaves what printing prints, and a check tells whether that differs
  from what is there.
* `Disk.Unhindered`: a threshold for notes can be set, and the formatted text can be encoded, printed
  and written.
* `modes_agree`: the modes agree exactly on what is unhindered, and nothing but an overwriting run
  changes a file. -/
namespace KeyTables
set_option autoImplicit false

section
variable {File : Type} [DecidableEq File] (d : Disk File) (refusal : Text → Option String)
  (settings : Settings) (request : Request) (arguments : List RawText)

namespace Disk

/-! ## The disk after a run -/

theorem run_kept (h : readArguments arguments = .ok (some request))
    (hwritten : (runRequest (d.host refusal) settings request).written = none) :
    (d.run refusal settings arguments).2 = d := by
  rw [(d.run_request refusal settings arguments request h).2, hwritten, saved]

/-- A request that does not overwrite leaves the disk as it was. So does one that is a check. -/
theorem run_unwritten (h : readArguments arguments = .ok (some request))
    (hmode : request.overwrite = false ∨ request.check = true) :
    (d.run refusal settings arguments).2 = d := by
  refine d.run_kept refusal settings request arguments h
    (Option.eq_none_iff_forall_not_mem.mpr ?_)
  intro w hw
  obtain ⟨-, hover, hcheck, -⟩ := runRequest_written _ settings request w hw
  simp [hover, hcheck] at hmode

/-- A request whose grid or source cannot be read leaves the disk as it was. -/
theorem run_unread (h : readArguments arguments = .ok (some request))
    (hread : (∀ g, ¬ Loads d.read settings request.layout g) ∨
      textAt? d.read request.path = none) :
    (d.run refusal settings arguments).2 = d := by
  refine d.run_kept refusal settings request arguments h
    (Option.eq_none_iff_forall_not_mem.mpr ?_)
  intro w hw
  obtain ⟨-, -, -, ⟨g, hg⟩, t, ht⟩ := runRequest_written (d.host refusal) settings request w hw
  rcases hread with hgrid | hsource
  · exact hgrid g hg
  · exact Option.some_ne_none t (ht.symm.trans hsource)

/-- No run changes a file beside the one that its path leads to, also if a write breaks off. -/
theorem run_beside (h : readArguments arguments = .ok (some request)) (f : File)
    (hfind : d.find request.path = .ok f) :
    d.AgreeBeside f (d.run refusal settings arguments).2 := by
  rw [(d.run_request refusal settings arguments request h).2]
  cases hwritten : (runRequest (d.host refusal) settings request).written with
  | none => exact AgreeBeside.refl d f
  | some w =>
    have hpath := (runRequest_written (d.host refusal) settings request w hwritten).1
    exact d.agreeBeside_write w.1 f w.2 (hpath ▸ hfind)

end Disk

end

/-! ## The modes -/

/-- The commands make one request in all its modes. -/
def Modes (path : Path) (layout : LayoutChoice) (commands : Bool → Bool → List RawText) : Prop :=
  ∀ overwrite check,
    readArguments (commands overwrite check) = .ok (some ⟨path, layout, overwrite, check⟩)

/-- A command line for any path and any grid file. -/
def commandLine (pathText layoutText : RawText) (overwrite check : Bool) : List RawText :=
  (raw "--layout=".toList ++ layoutText) ::
    ((if overwrite then [raw "--overwrite".toList] else []) ++
      (if check then [raw "--check".toList] else []) ++ [raw ['-', '-'], pathText])

theorem modes_commandLine (pathText layoutText : RawText) :
    Modes (Path.parse pathText) (.ofValue layoutText) (commandLine pathText layoutText) := by
  intro overwrite check
  cases overwrite <;> cases check <;> rfl

section
variable {File : Type} [DecidableEq File] (d : Disk File) (refusal : Text → Option String)
  (settings : Settings) (path : Path) (layout : LayoutChoice)
  (commands : Bool → Bool → List RawText)

namespace Disk

/-- What the plain run prints. -/
def printed : Text :=
  (d.run refusal settings (commands false false)).1.output

/-- The disk after a run that overwrites. -/
def overwritten : Disk File :=
  (d.run refusal settings (commands true false)).2

/-- The modes agree on a source whose text is `t`, and whose formatted text is that of `o`. -/
structure ModesAgree (t : Text) (o : Outcome) : Prop where
  plainEnds : (d.run refusal settings (commands false false)).1.ending = .exit 0
  /-- What is printed is the formatted text. -/
  formatted : d.printed refusal settings commands = o.text
  overwriteEnds : (d.run refusal settings (commands true false)).1.ending = .exit 0
  /-- After overwriting, the path is read as what is printed. -/
  readBack : (d.overwritten refusal settings commands).read path =
    .ok (encode (d.printed refusal settings commands))
  /-- Overwriting leaves all other files as they were. -/
  beside : ∃ f, d.find path = .ok f ∧ d.AgreeBeside f (d.overwritten refusal settings commands)
  /-- A check tells whether what is printed differs from the file. -/
  checked : ∀ overwrite, (d.run refusal settings (commands overwrite true)).1.ending =
    .exit (if d.printed refusal settings commands = t then 0 else 1)

/-- Nothing is in the way of formatting the source `t` with the grid `g`, and of the outcome `o`. -/
structure Unhindered (g : Grid) (t : Text) (o : Outcome) : Prop where
  /-- A threshold for notes can be set. -/
  level : settings.levelError? = none
  /-- The lead is a text, if it is used. -/
  lead : Draws g t → ∃ lead, settings.lead = raw lead
  /-- The standard output takes the formatted text. -/
  output : refusal o.text = none
  /-- The file takes the formatted text, if that is new. -/
  file : o.text = t ∨ d.writeError path (encode o.text) = none

section
variable (g : Grid) (t : Text) (o : Outcome) (hf : Formats d.read settings layout path g t o)
  (hmodes : Modes path layout commands) (hlevel : settings.levelError? = none)
include hf hmodes hlevel

/-- A run in one of the modes, unless a drawn table cannot be encoded. -/
theorem run_mode (htable : tableError? t settings.lead o = none) (overwrite check : Bool) :
    ∃ notes, (d.run refusal settings (commands overwrite check)).1 =
        saveAndConclude (d.host refusal) ⟨path, layout, overwrite, check⟩ ⟨o, o.text != t⟩ notes
          (Request.rewritten ⟨path, layout, overwrite, check⟩ t o) ∧
      (d.run refusal settings (commands overwrite check)).2 =
        d.saved ((Request.rewritten ⟨path, layout, overwrite, check⟩ t o).map
          fun bytes => (path, bytes)) := by
  obtain ⟨notes, before, hrun⟩ := runRequest_formats (d.host refusal) settings
    ⟨path, layout, overwrite, check⟩ hlevel g t o hf
  obtain ⟨hresult, hdisk⟩ := d.run_request refusal settings _ _ (hmodes overwrite check)
  rw [htable] at hrun
  rw [hdisk, hresult, hrun, saveAndConclude_written]
  exact ⟨notes, rfl, rfl⟩

theorem run_mode_crash (e : EncodeError) (htable : tableError? t settings.lead o = some e)
    (overwrite check : Bool) :
    (d.run refusal settings (commands overwrite check)).1.ending = .crash (.unencodableLead e) := by
  obtain ⟨notes, before, hrun⟩ := runRequest_formats (d.host refusal) settings
    ⟨path, layout, overwrite, check⟩ hlevel g t o hf
  rw [(d.run_request refusal settings _ _ (hmodes overwrite check)).1, hrun, htable]
  rfl

end

/-- An overwriting request leaves the formatted text in its file, whether it has to write it or finds
it there. -/
theorem saved_rewritten (t : Text) (o : Outcome) (hread : d.read path = .ok (encode t))
    (hfile : o.text = t ∨ d.writeError path (encode o.text) = none) :
    (d.saved ((Request.rewritten ⟨path, layout, true, false⟩ t o).map
      fun bytes => (path, bytes))).read path = .ok (encode o.text) := by
  by_cases hsame : o.text = t
  · simpa [Request.rewritten, saved, hsame] using hread
  · simpa [Request.rewritten, saved, hsame] using
      d.read_write path (encode o.text) (encode t) hread (hfile.resolve_left hsame)

theorem modesAgree_of_unhindered (hmodes : Modes path layout commands) (g : Grid) (t : Text)
    (o : Outcome) (hf : Formats d.read settings layout path g t o)
    (h : d.Unhindered refusal settings path g t o) :
    d.ModesAgree refusal settings path commands t o := by
  have htable := (tableError?_eq_none_iff t g _ o hf.outcome settings.lead).mpr h.lead
  have hread := ((textAt?_eq_some_iff d.read path t).mp hf.text).2
  have hrun := d.run_mode refusal settings path layout commands g t o hf hmodes h.level htable
  have hplain : (d.run refusal settings (commands false false)).1.ending = .exit 0 ∧
      d.printed refusal settings commands = o.text := by
    obtain ⟨notes, hresult, -⟩ := hrun false false
    obtain ⟨reports, hprint⟩ := saveAndConclude_print (d.host refusal)
      ⟨path, layout, false, false⟩ t o notes rfl rfl
    rw [printed, hresult, hprint, print_taken (d.host refusal) o.text reports h.output]
    exact ⟨rfl, rfl⟩
  obtain ⟨notes, hresult, hdisk⟩ := hrun true false
  refine ⟨hplain.1, hplain.2, ?_, ?_, ?_, fun overwrite => ?_⟩
  · rw [hresult, saveAndConclude_overwrite _ _ t o notes rfl rfl]
    exact congrArg Ending.exit (if_pos h.file)
  · rw [hplain.2, overwritten, hdisk]
    exact d.saved_rewritten path layout t o hread h.file
  · obtain ⟨f, hfind, -⟩ := (d.read_eq_ok_iff path _).mp hread
    exact ⟨f, hfind, d.run_beside refusal settings _ _ (hmodes true false) f hfind⟩
  · obtain ⟨notes, hresult, -⟩ := hrun overwrite true
    rw [hresult, saveAndConclude_check _ _ t o notes rfl, hplain.2]

theorem unhindered_of_modesAgree (hmodes : Modes path layout commands) (g : Grid) (t : Text)
    (o : Outcome) (hf : Formats d.read settings layout path g t o)
    (h : d.ModesAgree refusal settings path commands t o) :
    d.Unhindered refusal settings path g t o := by
  -- each condition shows in one mode: the level in a check, the output in a plain run, and the file
  -- in a run that overwrites
  have hlevel : settings.levelError? = none := by
    have hchecked := h.checked false
    rw [(d.run_request refusal settings _ _ (hmodes false true)).1] at hchecked
    cases hlevel : settings.levelError? with
    | none => rfl
    | some e => simp [runRequest, hlevel, crash] at hchecked
  have htable : tableError? t settings.lead o = none := by
    cases htable : tableError? t settings.lead o with
    | none => rfl
    | some e =>
      have hcrash := d.run_mode_crash refusal settings path layout commands g t o hf hmodes hlevel
        e htable false false
      rw [h.plainEnds] at hcrash
      cases hcrash
  have hrun := d.run_mode refusal settings path layout commands g t o hf hmodes hlevel htable
  refine ⟨hlevel, (tableError?_eq_none_iff t g _ o hf.outcome settings.lead).mp htable, ?_, ?_⟩
  · obtain ⟨notes, hresult, -⟩ := hrun false false
    obtain ⟨reports, hprint⟩ := saveAndConclude_print (d.host refusal)
      ⟨path, layout, false, false⟩ t o notes rfl rfl
    have hends := h.plainEnds
    rw [hresult, hprint, print_ending] at hends
    cases hrefusal : refusal o.text with
    | none => rfl
    | some reason => simp [host, hrefusal] at hends
  · obtain ⟨notes, hresult, -⟩ := hrun true false
    have hends := h.overwriteEnds
    rw [hresult, saveAndConclude_overwrite _ _ t o notes rfl rfl] at hends
    refine Decidable.byContradiction fun hfile => ?_
    rw [if_neg (by exact hfile)] at hends
    cases hends

end Disk

end

def levelOnly (name : String) : Environment :=
  ⟨none, none, some (raw name.toList)⟩

/-- Commands that name the source from the root, and the grid through the directory above. -/
def farCommands : Bool → Bool → List RawText :=
  commandLine (raw "/w/k.c".toList) (raw "../w/g".toList)

def farLayout : LayoutChoice :=
  .file ⟨.relative, [Path.above, raw ['w'], raw ['g']]⟩

end KeyTables
