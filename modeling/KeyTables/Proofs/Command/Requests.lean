import KeyTables.Command.Run
import KeyTables.Proofs.Disk
import KeyTables.Proofs.Format.Safety
import KeyTables.Proofs.Text.Encoding
import KeyTables.Tree

/-! What a request finds on a host, and what a run does with it.

* `Loads`: the grid that a request uses; `Formats`: its grid, its source and the outcome of
  formatting it.
* `runRequest_formats`: the run of a request whose grid and source can be read.
* `runRequest_written`: only such a run writes, and only if it is asked to overwrite and not to
  check.
* `Disk.run_request`: the run of a request, and the disk after it. -/
namespace KeyTables
set_option autoImplicit false

/-- The grid file that a choice leads to. -/
def Settings.layoutOf (settings : Settings) : LayoutChoice → Option Path
  | .unset => settings.layout
  | .file p => some p
  | .dropped => none

/-- A choice leads to a file that spells the grid. -/
def Loads (read : Path → Except AccessError Bytes) (settings : Settings) (choice : LayoutChoice)
    (g : Grid) : Prop :=
  ∃ layout t, settings.layoutOf choice = some layout ∧ textAt? read layout = some t ∧
    Grid.ofText (unifyBreaks t) = .ok g

/-- The choice leads to the grid `g`, the path to the source `t`, and formatting it has the outcome
`o`. -/
structure Formats (read : Path → Except AccessError Bytes) (settings : Settings)
    (choice : LayoutChoice) (path : Path) (g : Grid) (t : Text) (o : Outcome) : Prop where
  loads : Loads read settings choice g
  text : textAt? read path = some t
  outcome : (reformat t g settings.lead.lossy).value = .ok o

/-- Some table is drawn: the entries of the block are all tables, and one of them fits the grid. -/
def Draws (g : Grid) (t : Text) : Prop :=
  ∃ b, (parseBlock (encode t)).value = some b ∧ b.unparsed = 0 ∧
    ∃ table ∈ b.tables, g.keyCount = table.keys.length

/-! ## Texts of files -/

section
variable (read : Path → Except AccessError Bytes) (p : Path)

theorem textAt?_eq_some_iff (t : Text) :
    textAt? read p = some t ↔ hasNul p = false ∧ read p = .ok (encode t) := by
  unfold textAt?
  cases hasNul p with
  | true => simp
  | false =>
    cases read p with
    | error e => simp
    | ok content =>
      have hdecode : (decode content).toOption = some t ↔ decode content = .ok t := by
        cases decode content <;> simp [Except.toOption]
      simpa [decode_eq_ok_iff] using hdecode

theorem textAt?_none (h : textAt? read p = none) :
    hasNul p = true ∨ (hasNul p = false ∧ ∃ e, read p = .error e) ∨
      (hasNul p = false ∧ ∃ content e, read p = .ok content ∧ decode content = .error e) := by
  unfold textAt? at h
  cases hnul : hasNul p with
  | true => exact Or.inl rfl
  | false =>
    cases hread : read p with
    | error e => exact Or.inr (Or.inl ⟨rfl, e, rfl⟩)
    | ok content =>
      cases hdecode : decode content with
      | error e => exact Or.inr (Or.inr ⟨rfl, content, e, rfl, hdecode⟩)
      | ok t => simp [hnul, hread, hdecode, Except.toOption] at h

end

/-! ## Tables that are drawn -/

section
variable (t : Text) (g : Grid) (lead : Text) (o : Outcome)
  (ho : (reformat t g lead).value = .ok o)
include ho

/-- The lead has no part in whether a table is drawn. -/
theorem rendered_ne_zero_iff : o.rendered ≠ 0 ↔ Draws g t := by
  cases hparse : (parseBlock (encode t)).value with
  | none =>
    simp only [reformat, hparse, Except.ok.injEq] at ho
    exact iff_of_false (by simp [← ho]) (by simp [Draws, hparse])
  | some b =>
    by_cases hu : b.unparsed = 0
    · obtain ⟨o', ho', -, -, -, hrendered, -⟩ := encode_reformat t g lead b hparse hu
      obtain rfl := Except.ok.inj (ho.symm.trans ho')
      simp [hrendered, Draws, hparse, hu, List.countP_eq_zero]
    · simp only [reformat, hparse, if_neg hu, Except.ok.injEq] at ho
      exact iff_of_false (by simp [← ho]) (by simp [Draws, hparse, hu])

theorem tableError?_eq_some_iff (raws : RawText) (e : EncodeError) :
    tableError? t raws o = some e ↔
      Draws g t ∧ (raw (breakOf t) ++ raws).encodeError? = some e := by
  rw [← rendered_ne_zero_iff t g lead o ho, tableError?]
  split
  · next hzero => simp [hzero]
  · next hne => simp [hne]

theorem tableError?_eq_none_iff (raws : RawText) :
    tableError? t raws o = none ↔ (Draws g t → ∃ u, raws = raw u) := by
  rw [← rendered_ne_zero_iff t g lead o ho, tableError?]
  split
  · next hzero => simp [hzero]
  · next hne =>
    rw [RawText.encodeError?, RawText.encodeErrorFrom_raw, RawText.encodeErrorFrom_eq_none_iff]
    exact ⟨fun h _ => h, fun h => h hne⟩

end

section
variable (h : Host) (settings : Settings) (request : Request)

/-! ## The grid -/

theorem runOnLayout_text (layout : Path) (t : Text) (ht : textAt? h.read layout = some t) :
    runOnLayout h settings request layout =
      match Grid.ofText (unifyBreaks t) with
      | .error e => failure 1 s!"Error: invalid layout {layout.shown}: {e.message}"
      | .ok g => runOnGrid h settings request g := by
  obtain ⟨hnul, hread⟩ := (textAt?_eq_some_iff h.read layout t).mp ht
  unfold runOnLayout Grid.ofFile
  simp only [hnul, hread, decode_encode]
  cases Grid.ofText (unifyBreaks t) <;> rfl

/-- A grid file without a text. A NUL character and bytes that are not UTF-8 are not taken care
of. -/
theorem runOnLayout_unread (layout : Path) (ht : textAt? h.read layout = none) :
    (runOnLayout h settings request layout).written = none ∧
      ((hasNul layout = true ∧
        (runOnLayout h settings request layout).ending = .crash .nulInPath) ∨
      (hasNul layout = false ∧ (∃ e, h.read layout = .error e) ∧
        (runOnLayout h settings request layout).ending = .exit 2) ∨
      (hasNul layout = false ∧ ∃ content e, h.read layout = .ok content ∧
        decode content = .error e ∧
        (runOnLayout h settings request layout).ending = .crash (.undecodableLayout e))) := by
  unfold runOnLayout Grid.ofFile
  rcases textAt?_none h.read layout ht with hnul | ⟨hnul, e, hread⟩ |
    ⟨hnul, content, e, hread, hdecode⟩
  · simp [hnul, crash]
  · simp [hnul, hread, failure]
  · simp [hnul, hread, hdecode, crash]

theorem runRequest_layout (hlevel : settings.levelError? = none) (layout : Path)
    (hlayout : settings.layoutOf request.layout = some layout) :
    runRequest h settings request = runOnLayout h settings request layout := by
  unfold runRequest
  rw [hlevel]
  unfold Settings.layoutOf at hlayout
  cases hchoice : request.layout with
  | unset =>
    simp only [hchoice] at hlayout
    simp only [hlayout]
  | file p =>
    simp only [hchoice, Option.some.injEq] at hlayout
    simp only [hlayout]
  | dropped => simp [hchoice] at hlayout

theorem runRequest_loaded (hlevel : settings.levelError? = none) (g : Grid)
    (hg : Loads h.read settings request.layout g) :
    runRequest h settings request = runOnGrid h settings request g := by
  obtain ⟨layout, t, hlayout, ht, hg⟩ := hg
  rw [runRequest_layout h settings request hlevel layout hlayout,
    runOnLayout_text h settings request layout t ht, hg]

/-! ## The source -/

/-- A source file without a text. -/
theorem runOnGrid_unread (g : Grid) (ht : textAt? h.read request.path = none) :
    (runOnGrid h settings request g).written = none ∧
      (runOnGrid h settings request g).ending =
        if hasNul request.path then .crash .nulInPath else .exit 2 := by
  unfold runOnGrid reformatFile
  rcases textAt?_none h.read request.path ht with hnul | ⟨hnul, e, hread⟩ |
    ⟨hnul, content, e, hread, hdecode⟩
  · simp [hnul, crash]
  · simp [hnul, hread, sourceFailure]
  · simp [hnul, hread, hdecode, sourceFailure]

/-- The new content of the source file, if the request has it written. -/
def Request.rewritten (source : Text) (o : Outcome) : Option Bytes :=
  if request.overwrite && !request.check && o.text != source then some (encode o.text) else none

theorem runOnGrid_text (g : Grid) (t : Text) (o : Outcome)
    (ht : textAt? h.read request.path = some t)
    (ho : (reformat t g settings.lead.lossy).value = .ok o) :
    ∃ notes before, runOnGrid h settings request g =
      match tableError? t settings.lead o with
      | some e => crash (.unencodableLead e) before
      | none =>
        saveAndConclude h request ⟨o, o.text != t⟩ notes (request.rewritten t o) := by
  obtain ⟨hnul, hread⟩ := (textAt?_eq_some_iff h.read request.path t).mp ht
  obtain ⟨hvalue, hwritten⟩ := reformatFile_ok g settings.lead.lossy request.path
    (request.overwrite && !request.check) t o ho
  unfold runOnGrid
  simp only [hnul, hread, hvalue, hwritten, ht, Bool.false_eq_true, if_false, Option.bind_some]
  exact ⟨_, _, rfl⟩

/-- A request whose grid and source can be read: a drawn table cannot be encoded, or the formatted
source is printed, written or checked. -/
theorem runRequest_formats (hlevel : settings.levelError? = none) (g : Grid) (t : Text) (o : Outcome)
    (hf : Formats h.read settings request.layout request.path g t o) :
    ∃ notes before, runRequest h settings request =
      match tableError? t settings.lead o with
      | some e => crash (.unencodableLead e) before
      | none =>
        saveAndConclude h request ⟨o, o.text != t⟩ notes (request.rewritten t o) := by
  rw [runRequest_loaded h settings request hlevel g hf.loads]
  exact runOnGrid_text h settings request g t o hf.text hf.outcome

/-! ## The modes -/

theorem print_ending (t : Text) (reports : List Report) :
    (print h t reports).ending =
      match h.refusal t with
      | none => .exit 0
      | some reason => .crash (.unprintable reason) := by
  unfold print
  cases h.refusal t <;> rfl

theorem print_taken (t : Text) (reports : List Report) (ht : h.refusal t = none) :
    print h t reports = ⟨.exit 0, t, reports, none⟩ := by
  rw [print, ht]

theorem conclude_written (f : FileOutcome) (notes : List Report) :
    (conclude h request f notes).written = none := by
  unfold conclude print
  cases request.check <;> cases f.changed <;> cases request.overwrite <;>
    cases h.refusal f.outcome.text <;> rfl

theorem saveAndConclude_written (f : FileOutcome) (notes : List Note) (content : Option Bytes) :
    (saveAndConclude h request f notes content).written =
      content.map fun bytes => (request.path, bytes) := by
  cases content with
  | none => exact conclude_written h request f _
  | some bytes => rfl

section
variable (t : Text) (o : Outcome) (notes : List Note)

/-- A check writes nothing. -/
theorem saveAndConclude_check (hcheck : request.check = true) :
    (saveAndConclude h request ⟨o, o.text != t⟩ notes (request.rewritten t o)).ending =
      .exit (if o.text = t then 0 else 1) := by
  have hkept : request.rewritten t o = none := by simp [Request.rewritten, hcheck]
  rw [hkept, saveAndConclude, conclude, if_pos hcheck]
  by_cases hsame : o.text = t <;> simp [hsame]

theorem saveAndConclude_print (hcheck : request.check = false) (hover : request.overwrite = false) :
    ∃ reports, saveAndConclude h request ⟨o, o.text != t⟩ notes (request.rewritten t o) =
      print h o.text reports := by
  have hkept : request.rewritten t o = none := by simp [Request.rewritten, hover]
  rw [hkept, saveAndConclude, conclude, hcheck, hover]
  exact ⟨_, rfl⟩

/-- Overwriting writes a text that has changed, and nothing else can fail. -/
theorem saveAndConclude_overwrite (hcheck : request.check = false)
    (hover : request.overwrite = true) :
    (saveAndConclude h request ⟨o, o.text != t⟩ notes (request.rewritten t o)).ending =
      .exit (if o.text = t ∨ h.writeError request.path (encode o.text) = none then 0 else 2) := by
  unfold Request.rewritten saveAndConclude
  by_cases hsame : o.text = t
  · simp [hsame, conclude, hcheck, hover]
  · cases hwrite : h.writeError request.path (encode o.text) <;>
      simp [hsame, hwrite, conclude, sourceFailure, hcheck, hover]

end

/-! ## Runs that write -/

theorem runOnGrid_written (g : Grid) (w : Path × Bytes)
    (hw : (runOnGrid h settings request g).written = some w) :
    w.1 = request.path ∧ request.overwrite = true ∧ request.check = false ∧
      ∃ t, textAt? h.read request.path = some t := by
  cases htext : textAt? h.read request.path with
  | none =>
    rw [(runOnGrid_unread h settings request g htext).1] at hw
    exact absurd hw (by simp)
  | some t =>
    obtain ⟨o, ho⟩ := reformat_ok t g settings.lead.lossy
    obtain ⟨notes, before, hrun⟩ := runOnGrid_text h settings request g t o htext ho
    rw [hrun] at hw
    cases htable : tableError? t settings.lead o with
    | some e => simp [htable, crash] at hw
    | none =>
      simp only [htable, saveAndConclude_written, Option.map_eq_some_iff] at hw
      obtain ⟨bytes, hbytes, rfl⟩ := hw
      unfold Request.rewritten at hbytes
      split at hbytes
      · next hwanted =>
        simp only [Bool.and_eq_true, Bool.not_eq_true'] at hwanted
        exact ⟨rfl, hwanted.1.1, hwanted.1.2, t, rfl⟩
      · exact absurd hbytes (by simp)

theorem runOnLayout_written (layout : Path) (w : Path × Bytes)
    (hw : (runOnLayout h settings request layout).written = some w) :
    ∃ t g, textAt? h.read layout = some t ∧ Grid.ofText (unifyBreaks t) = .ok g ∧
      (runOnGrid h settings request g).written = some w := by
  cases htext : textAt? h.read layout with
  | some t =>
    rw [runOnLayout_text h settings request layout t htext] at hw
    cases hg : Grid.ofText (unifyBreaks t) with
    | error e => simp [hg, failure] at hw
    | ok g =>
      rw [hg] at hw
      exact ⟨t, g, rfl, hg, hw⟩
  | none =>
    rw [(runOnLayout_unread h settings request layout htext).1] at hw
    exact absurd hw (by simp)

theorem runRequest_written (w : Path × Bytes)
    (hw : (runRequest h settings request).written = some w) :
    w.1 = request.path ∧ request.overwrite = true ∧ request.check = false ∧
      (∃ g, Loads h.read settings request.layout g) ∧
      ∃ t, textAt? h.read request.path = some t := by
  cases hlevel : settings.levelError? with
  | some e => simp [runRequest, hlevel, crash] at hw
  | none =>
    cases hlayout : settings.layoutOf request.layout with
    | some layout =>
      rw [runRequest_layout h settings request hlevel layout hlayout] at hw
      obtain ⟨t, g, ht, hg, hgrid⟩ := runOnLayout_written h settings request layout w hw
      obtain ⟨hpath, hover, hcheck, hsource⟩ := runOnGrid_written h settings request g w hgrid
      exact ⟨hpath, hover, hcheck, ⟨g, layout, t, hlayout, ht, hg⟩, hsource⟩
    | none =>
      unfold Settings.layoutOf at hlayout
      unfold runRequest at hw
      cases hchoice : request.layout with
      | file p => simp [hchoice] at hlayout
      | dropped => simp [hlevel, hchoice, crash] at hw
      | unset =>
        simp only [hchoice] at hlayout
        simp [hlevel, hchoice, hlayout, failure] at hw

end

/-! ## Runs on a disk -/

namespace Disk

variable {File : Type} [DecidableEq File] (d : Disk File)

/-- The disk after a run that has something written. -/
def saved : Option (Path × Bytes) → Disk File
  | none => d
  | some (path, bytes) => d.write path bytes

theorem run_request (refusal : Text → Option String) (settings : Settings)
    (arguments : List RawText) (request : Request)
    (h : readArguments arguments = .ok (some request)) :
    (d.run refusal settings arguments).1 = runRequest (d.host refusal) settings request ∧
      (d.run refusal settings arguments).2 =
        d.saved (runRequest (d.host refusal) settings request).written := by
  unfold run KeyTables.run
  simp only [h]
  cases (runRequest (d.host refusal) settings request).written <;> exact ⟨rfl, rfl⟩

end Disk

/-! ## A tree -/

/-- A grid of two keys, a grid file that is not UTF-8, and a source with a table that fits the grid and
one that does not. -/
def mixedTree : Tree where
  home := [raw ['w']]
  files := [([raw ['w'], raw ['g']], encode "K K\n".toList), ([raw ['w'], raw ['b']], [0xFF]),
    ([raw ['w'], raw "k.c".toList], encode mixedSource)]
  directories := []

/-- The source, by its name in the working directory. -/
def mixedPath : Path :=
  ⟨.relative, [raw "k.c".toList]⟩

/-- The source, from the root. -/
def mixedRootPath : Path :=
  ⟨.slash, [raw ['w'], raw "k.c".toList]⟩

end KeyTables
