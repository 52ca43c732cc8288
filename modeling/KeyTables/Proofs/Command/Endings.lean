import KeyTables.Proofs.Command.Requests

/-! How a run ends.

* `Documented`: the exit codes, as they are described.
* `Uncaught`: the requests that are not taken care of.
* `run_endings`: a run ends in the documented code, except for these requests. -/
namespace KeyTables
set_option autoImplicit false

section
variable {File : Type} (d : Disk File) (refusal : Text → Option String) (settings : Settings)
  (request : Request)

/-- The exit code of a request: 1 for a missing or malformed layout, 2 for a file without a text and
for one that cannot be written, 1 for a check of a source that would change, and 0 for everything
else. -/
inductive Documented : Nat → Prop
  | noLayout (hchoice : request.layout = .unset) (hlayout : settings.layout = none) : Documented 1
  | malformed (layout : Path) (t : Text) (e : GridError)
      (hlayout : settings.layoutOf request.layout = some layout)
      (ht : textAt? d.read layout = some t) (hg : Grid.ofText (unifyBreaks t) = .error e) :
      Documented 1
  | layoutUnread (layout : Path) (hlayout : settings.layoutOf request.layout = some layout)
      (ht : textAt? d.read layout = none) : Documented 2
  | sourceUnread (g : Grid) (hg : Loads d.read settings request.layout g)
      (ht : textAt? d.read request.path = none) : Documented 2
  | sourceUnwritten (g : Grid) (t : Text) (o : Outcome) (e : AccessError)
      (hf : Formats d.read settings request.layout request.path g t o)
      (hover : request.overwrite = true) (hcheck : request.check = false) (hchanged : o.text ≠ t)
      (hwrite : d.writeError request.path (encode o.text) = some e) : Documented 2
  | wouldChange (g : Grid) (t : Text) (o : Outcome)
      (hf : Formats d.read settings request.layout request.path g t o)
      (hcheck : request.check = true) (hchanged : o.text ≠ t) : Documented 1
  | done (g : Grid) (t : Text) (o : Outcome)
      (hf : Formats d.read settings request.layout request.path g t o)
      (hkept : request.check = true → o.text = t)
      (hwritten : request.overwrite = true → request.check = false → o.text ≠ t →
        d.writeError request.path (encode o.text) = none) : Documented 0

/-- The requests that nothing takes care of, and how they fail. -/
inductive Uncaught : Crash → Prop
  | dropped (hchoice : request.layout = .dropped) : Uncaught .droppedLayout
  | nulInLayout (layout : Path) (hlayout : settings.layoutOf request.layout = some layout)
      (hnul : hasNul layout = true) : Uncaught .nulInPath
  | undecodable (layout : Path) (content : Bytes) (e : DecodeError)
      (hlayout : settings.layoutOf request.layout = some layout) (hnul : hasNul layout = false)
      (hread : d.read layout = .ok content) (hdecode : decode content = .error e) :
      Uncaught (.undecodableLayout e)
  | nulInPath (g : Grid) (hg : Loads d.read settings request.layout g)
      (hnul : hasNul request.path = true) : Uncaught .nulInPath
  | unencodable (g : Grid) (t : Text) (o : Outcome) (e : EncodeError)
      (hf : Formats d.read settings request.layout request.path g t o) (hdraws : Draws g t)
      (hlead : (raw (breakOf t) ++ settings.lead).encodeError? = some e) :
      Uncaught (.unencodableLead e)
  | unprintable (g : Grid) (t : Text) (o : Outcome) (reason : String)
      (hf : Formats d.read settings request.layout request.path g t o)
      (hlead : Draws g t → ∃ lead, settings.lead = raw lead) (hover : request.overwrite = false)
      (hcheck : request.check = false) (hrefused : refusal o.text = some reason) :
      Uncaught (.unprintable reason)

theorem documented_of_formats (g : Grid) (t : Text) (o : Outcome)
    (hf : Formats d.read settings request.layout request.path g t o) :
    ∃ code, Documented d settings request code := by
  cases hcheck : request.check with
  | true =>
    by_cases hsame : o.text = t
    · exact ⟨0, .done g t o hf (fun _ => hsame) (fun _ hcheck' => by simp [hcheck] at hcheck')⟩
    · exact ⟨1, .wouldChange g t o hf hcheck hsame⟩
  | false =>
    cases hwrite : d.writeError request.path (encode o.text) with
    | none =>
      exact ⟨0, .done g t o hf (fun hcheck' => by simp [hcheck] at hcheck') fun _ _ _ => hwrite⟩
    | some e =>
      by_cases hwrites : request.overwrite = true ∧ o.text ≠ t
      · exact ⟨2, .sourceUnwritten g t o e hf hwrites.1 hcheck hwrites.2 hwrite⟩
      · refine ⟨0, .done g t o hf (fun hcheck' => by simp [hcheck] at hcheck') ?_⟩
        exact fun hover _ hchanged => absurd ⟨hover, hchanged⟩ hwrites

/-- A request has a documented code, or nothing takes care of it. -/
theorem documented_or_uncaught :
    (∃ code, Documented d settings request code) ∨ ∃ c, Uncaught d refusal settings request c := by
  cases hlayout : settings.layoutOf request.layout with
  | none =>
    cases hchoice : request.layout with
    | dropped => exact Or.inr ⟨_, .dropped hchoice⟩
    | file p => simp [Settings.layoutOf, hchoice] at hlayout
    | unset =>
      rw [hchoice] at hlayout
      exact Or.inl ⟨1, .noLayout hchoice hlayout⟩
  | some layout =>
    cases htext : textAt? d.read layout with
    | none => exact Or.inl ⟨2, .layoutUnread layout hlayout htext⟩
    | some t =>
      cases hg : Grid.ofText (unifyBreaks t) with
      | error e => exact Or.inl ⟨1, .malformed layout t e hlayout htext hg⟩
      | ok g =>
        have hloads : Loads d.read settings request.layout g := ⟨layout, t, hlayout, htext, hg⟩
        cases hsource : textAt? d.read request.path with
        | none => exact Or.inl ⟨2, .sourceUnread g hloads hsource⟩
        | some source =>
          obtain ⟨o, ho⟩ := reformat_ok source g settings.lead.lossy
          have hf : Formats d.read settings request.layout request.path g source o :=
            ⟨hloads, hsource, ho⟩
          exact Or.inl (documented_of_formats d settings request g source o hf)

/-- Where every failure is taken care of, every drawn table can be encoded. -/
theorem tableError?_of_caught (hcaught : ∀ c, ¬ Uncaught d refusal settings request c) (g : Grid)
    (t : Text) (o : Outcome) (hf : Formats d.read settings request.layout request.path g t o) :
    tableError? t settings.lead o = none := by
  cases htable : tableError? t settings.lead o with
  | none => rfl
  | some e =>
    obtain ⟨hdraws, hlead⟩ :=
      (tableError?_eq_some_iff t g _ o hf.outcome settings.lead e).mp htable
    exact absurd (.unencodable g t o e hf hdraws hlead) (hcaught _)

section
variable (hlevel : settings.levelError? = none)
include hlevel

theorem crash_of_uncaught (c : Crash) (h : Uncaught d refusal settings request c) :
    (runRequest (d.host refusal) settings request).ending = .crash c := by
  cases h with
  | dropped hchoice => simp [runRequest, hlevel, hchoice, crash]
  | nulInLayout layout hlayout hnul =>
    rw [runRequest_layout _ settings request hlevel layout hlayout]
    simp [runOnLayout, hnul, crash]
  | undecodable layout content e hlayout hnul hread hdecode =>
    rw [runRequest_layout _ settings request hlevel layout hlayout]
    simp [runOnLayout, Grid.ofFile, Disk.host, hnul, hread, hdecode, crash]
  | nulInPath g hg hnul =>
    rw [runRequest_loaded (d.host refusal) settings request hlevel g hg]
    simp [runOnGrid, hnul, crash]
  | unencodable g t o e hf hdraws hlead =>
    have htable := (tableError?_eq_some_iff t g _ o hf.outcome settings.lead e).mpr ⟨hdraws, hlead⟩
    obtain ⟨notes, before, hrun⟩ :=
      runRequest_formats (d.host refusal) settings request hlevel g t o hf
    rw [hrun, htable]
    rfl
  | unprintable g t o reason hf hlead hover hcheck hrefused =>
    have htable := (tableError?_eq_none_iff t g _ o hf.outcome settings.lead).mpr hlead
    obtain ⟨notes, before, hrun⟩ :=
      runRequest_formats (d.host refusal) settings request hlevel g t o hf
    obtain ⟨reports, hprint⟩ :=
      saveAndConclude_print (d.host refusal) request t o notes hcheck hover
    rw [hrun, htable]
    simp only [hprint, print_ending]
    rw [show (d.host refusal).refusal o.text = some reason from hrefused]

section
variable (hcaught : ∀ c, ¬ Uncaught d refusal settings request c)
include hcaught

/-- A request that is taken care of ends like its mode. -/
theorem run_caught (g : Grid) (t : Text) (o : Outcome)
    (hf : Formats d.read settings request.layout request.path g t o) :
    ∃ notes, runRequest (d.host refusal) settings request =
      saveAndConclude (d.host refusal) request ⟨o, o.text != t⟩ notes (request.rewritten t o) := by
  obtain ⟨notes, before, hrun⟩ :=
    runRequest_formats (d.host refusal) settings request hlevel g t o hf
  rw [tableError?_of_caught d refusal settings request hcaught g t o hf] at hrun
  exact ⟨notes, hrun⟩

theorem exit_of_documented (code : Nat) (h : Documented d settings request code) :
    (runRequest (d.host refusal) settings request).ending = .exit code := by
  cases h with
  | noLayout hchoice hlayout => simp [runRequest, hlevel, hchoice, hlayout, failure]
  | malformed layout t e hlayout ht hg =>
    rw [runRequest_layout _ settings request hlevel layout hlayout,
      runOnLayout_text (d.host refusal) settings request layout t ht, hg]
    rfl
  | layoutUnread layout hlayout ht =>
    rw [runRequest_layout _ settings request hlevel layout hlayout]
    rcases (runOnLayout_unread (d.host refusal) settings request layout ht).2 with ⟨hnul, -⟩ |
      ⟨-, -, hexit⟩ | ⟨hnul, content, e, hread, hdecode, -⟩
    · exact absurd (.nulInLayout layout hlayout hnul) (hcaught _)
    · exact hexit
    · exact absurd (.undecodable layout content e hlayout hnul hread hdecode) (hcaught _)
  | sourceUnread g hg ht =>
    rw [runRequest_loaded (d.host refusal) settings request hlevel g hg,
      (runOnGrid_unread (d.host refusal) settings request g ht).2]
    split
    · next hnul => exact absurd (.nulInPath g hg hnul) (hcaught _)
    · rfl
  | sourceUnwritten g t o e hf hover hcheck hchanged hwrite =>
    obtain ⟨notes, hrun⟩ := run_caught d refusal settings request hlevel hcaught g t o hf
    rw [hrun, saveAndConclude_overwrite _ request t o notes hcheck hover]
    simp [hchanged, Disk.host, hwrite]
  | wouldChange g t o hf hcheck hchanged =>
    obtain ⟨notes, hrun⟩ := run_caught d refusal settings request hlevel hcaught g t o hf
    rw [hrun, saveAndConclude_check _ request t o notes hcheck, if_neg hchanged]
  | done g t o hf hkept hwritten =>
    obtain ⟨notes, hrun⟩ := run_caught d refusal settings request hlevel hcaught g t o hf
    rw [hrun]
    cases hcheck : request.check with
    | true => rw [saveAndConclude_check _ request t o notes hcheck, if_pos (hkept hcheck)]
    | false =>
      cases hover : request.overwrite with
      | true =>
        rw [saveAndConclude_overwrite _ request t o notes hcheck hover, if_pos]
        exact Classical.or_iff_not_imp_left.mpr (hwritten hover hcheck)
      | false =>
        obtain ⟨reports, hprint⟩ :=
          saveAndConclude_print (d.host refusal) request t o notes hcheck hover
        rw [hprint, print_ending]
        -- a text that the output refuses would be one of the requests that are not taken care of
        cases hrefused : (d.host refusal).refusal o.text with
        | none => rfl
        | some reason =>
          have htable := tableError?_of_caught d refusal settings request hcaught g t o hf
          have hlead := (tableError?_eq_none_iff t g _ o hf.outcome settings.lead).mp htable
          exact absurd (.unprintable g t o reason hf hlead hover hcheck hrefused) (hcaught _)

end

theorem ending_cases :
    (∃ code, Documented d settings request code ∧ (∀ c, ¬ Uncaught d refusal settings request c) ∧
      (runRequest (d.host refusal) settings request).ending = .exit code) ∨
    ∃ c, Uncaught d refusal settings request c ∧
      (runRequest (d.host refusal) settings request).ending = .crash c := by
  by_cases hcaught : ∃ c, Uncaught d refusal settings request c
  · obtain ⟨c, hc⟩ := hcaught
    exact Or.inr ⟨c, hc, crash_of_uncaught d refusal settings request hlevel c hc⟩
  · rw [not_exists] at hcaught
    rcases documented_or_uncaught d refusal settings request with ⟨code, hdoc⟩ | ⟨c, hc⟩
    · exact Or.inl ⟨code, hdoc, hcaught,
        exit_of_documented d refusal settings request hlevel hcaught code hdoc⟩
    · exact absurd hc (hcaught c)

end

end

/-- A grid file in the environment, and a level by a name in small letters. -/
def gridSettings : Settings :=
  .ofEnvironment ⟨some (raw ['g']), none, some (raw "info".toList)⟩

end KeyTables
