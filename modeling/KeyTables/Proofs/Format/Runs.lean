import KeyTables.Proofs.Format.Outcome

/-! Runs of edits on one file.

* `Edit`: formatting the file in place with a grid and a lead, or only looking at the result.
* `Keeps l content`: the content has a layout with the opening, the closing, the names and the keys
  of `l`.
* `keeps_edit`, `keeps_edits`: an edit keeps them, and so does a run of edits. -/
namespace KeyTables
set_option autoImplicit false

/-! ## Plain keys -/

/-- A key of printable characters in ASCII that does not hold two slashes in a row. -/
def isPlainKey (k : Text) : Bool :=
  (k.all fun c => decide (0x21 ≤ c.toNat ∧ c.toNat ≤ 0x7E)) && !hasSlashPair k

theorem isLasting_of_plain (k : Text) (h : isPlainKey k = true) : isLasting k = true := by
  rw [isPlainKey, Bool.and_eq_true, List.all_eq_true] at h
  rw [isLasting, Bool.and_eq_true]
  refine ⟨List.all_eq_true.mpr ?_, h.2⟩
  intro c hc
  have := of_decide_eq_true (h.1 c hc)
  exact decide_eq_true (by omega)

theorem isBlank_of_printable (c : Char) (h : 0x21 ≤ c.toNat ∧ c.toNat ≤ 0x7E) :
    isBlank c = false := by
  simp only [isBlank, inRanges, blankRanges, List.any_cons, List.any_nil, Bool.or_false,
    Bool.or_eq_false_iff, Bool.and_eq_false_iff, decide_eq_false_iff_not]
  omega

theorem survives_of_plain (keys : List Text) (h : ∀ k ∈ keys, isPlainKey k = true) :
    survives keys = true := by
  have hblank : endsBlank keys = false := by
    refine Bool.eq_false_iff.mpr (fun hb => ?_)
    obtain ⟨k, hk, hkb⟩ := (Option.any_eq_true _ _).mp hb
    obtain ⟨c, hc, hcb⟩ := (Option.any_eq_true _ _).mp hkb
    have hplain := h k (List.mem_of_getLast? hk)
    rw [isPlainKey, Bool.and_eq_true, List.all_eq_true] at hplain
    have := isBlank_of_printable c (of_decide_eq_true (hplain.1 c (List.mem_of_getLast? hc)))
    rw [hcb] at this
    simp at this
  rw [survives, hblank, Bool.not_false, Bool.and_true, List.all_eq_true]
  exact fun k hk => isLasting_of_plain k (h k hk)

theorem Layout.Frames.plain {l : Layout} {b : Block} (h : l.Frames b)
    (hplain : ∀ t ∈ b.tables, ∀ k ∈ t.keys, isPlainKey k = true) :
    ∀ p ∈ l.segments, ∀ k ∈ p.keys, isPlainKey k = true :=
  (h.forall_keys fun keys => ∀ k ∈ keys, isPlainKey k = true).mp hplain

/-! ## Edits -/

structure Edit where
  grid : Grid
  write : Bool
  lead : Text

/-- The content of the file after the edit. -/
def Edit.apply (path : Path) (e : Edit) (content : Bytes) : Except FileError Bytes :=
  let result := reformatFile path (.ok content) e.grid e.write e.lead
  match result.value with
  | .error err => .error err
  | .ok _ => .ok (result.written.getD content)

def applyAll (path : Path) : List Edit → Bytes → Except FileError Bytes
  | [], content => .ok content
  | e :: es, content =>
    match e.apply path content with
    | .error err => .error err
    | .ok content' => applyAll path es content'

structure Keeps (l : Layout) (content : Bytes) (l' : Layout) : Prop where
  content : content = encode l'.text
  valid : l'.Valid
  opening : l'.opening = l.opening
  closing : l'.closing = l.closing
  contents : contents l'.segments = contents l.segments

theorem apply_layout (path : Path) (e : Edit) (l : Layout) (h : l.Valid) :
    e.apply path (encode l.text) = .ok (encode l.text) ∨
      e.apply path (encode l.text) =
        .ok (encode (l.redrawnWith e.grid e.lead (breakOf l.text)).text) := by
  obtain ⟨hvalue, hwritten⟩ := reformatFile_ok e.grid e.lead path e.write l.text _
    (reformat_layout e.grid e.lead l h)
  simp only [Edit.apply, hvalue, hwritten]
  split
  · exact Or.inr rfl
  · exact Or.inl rfl

theorem keys_of_contents (ps qs : List Segment) (P : List Text → Prop)
    (h : contents ps = contents qs) (hp : ∀ p ∈ ps, P p.keys) : ∀ q ∈ qs, P q.keys := by
  intro q hq
  have hmem : (q.name, q.keys) ∈ contents ps := by
    rw [h]
    exact List.mem_map.mpr ⟨q, hq, rfl⟩
  obtain ⟨p, hpm, he⟩ := List.mem_map.mp hmem
  rw [← (Prod.mk.inj he).2]
  exact hp p hpm

theorem keeps_edit (path : Path) (l l' : Layout) (content : Bytes) (e : Edit)
    (hplain : ∀ p ∈ l.segments, ∀ k ∈ p.keys, isPlainKey k = true) (he : IsLead e.lead)
    (h : Keeps l content l') :
    ∃ content' l'', e.apply path content = .ok content' ∧ Keeps l content' l'' := by
  rw [h.content]
  rcases apply_layout path e l' h.valid with happly | happly
  · exact ⟨_, l', happly, rfl, h.valid, h.opening, h.closing, h.contents⟩
  · have hsurvives : ∀ p ∈ l'.segments, survives p.keys = true :=
      keys_of_contents _ _ (survives · = true) h.contents.symm
        (fun p hp => survives_of_plain _ (hplain p hp))
    refine ⟨_, _, happly, rfl, ?_, h.opening, h.closing, ?_⟩
    · exact valid_redrawn e.grid e.lead _ l' (isNewline_breakOf _) he h.valid
        (fun p hp _ => hsurvives p hp)
    · rw [Layout.redrawnWith, contents_redrawn, h.contents]

theorem keeps_edits (path : Path) (l l' : Layout) (content : Bytes) (es : List Edit)
    (hplain : ∀ p ∈ l.segments, ∀ k ∈ p.keys, isPlainKey k = true)
    (he : ∀ e ∈ es, IsLead e.lead) (h : Keeps l content l') :
    ∃ content' l'', applyAll path es content = .ok content' ∧ Keeps l content' l'' := by
  induction es generalizing content l' with
  | nil => exact ⟨content, l', rfl, h⟩
  | cons e es ih =>
    obtain ⟨content', l'', happly, hkeeps⟩ := keeps_edit path l l' content e hplain
      (he e List.mem_cons_self) h
    obtain ⟨content'', l''', hrest, hlast⟩ := ih l'' content'
      (fun x hx => he x (List.mem_cons_of_mem e hx)) hkeeps
    refine ⟨content'', l''', ?_, hlast⟩
    rw [applyAll, happly]
    exact hrest

/-! ## The block -/

/-- After any run of edits the file still holds a block without faults, with the same names and keys
in order, and every byte outside the braces is as it was. -/
theorem edits_keep_block (path : Path) (s : Text) (b : Block)
    (hparse : (parseBlock (encode s)).value = some b) (hu : b.unparsed = 0)
    (hplain : ∀ t ∈ b.tables, ∀ k ∈ t.keys, isPlainKey k = true) (es : List Edit)
    (he : ∀ e ∈ es, IsLead e.lead) :
    ∃ s' b', applyAll path es (encode s) = .ok (encode s') ∧
      (parseBlock (encode s')).value = some b' ∧ b'.unparsed = 0 ∧ b'.contents = b.contents ∧
      (encode s').take (b'.start + 1) = (encode s).take (b.start + 1) ∧
      (encode s').drop b'.stop = (encode s).drop b.stop := by
  obtain ⟨l, hvalid, rfl, hframes⟩ := layout_of_parseBlock s b hparse hu
  obtain ⟨content, l', hrun, hkeeps⟩ := keeps_edits path l l (encode l.text) es
    (hframes.plain hplain) he ⟨rfl, hvalid, rfl, rfl, rfl⟩
  obtain ⟨b', hparse', hframes'⟩ := parseBlock_layout l' hkeeps.valid
  refine ⟨l'.text, b', ?_, hparse', hframes'.unparsed, ?_, ?_, ?_⟩
  · rw [hrun, hkeeps.content]
  · rw [hframes'.contents, hkeeps.contents, hframes.contents]
  · rw [hframes'.around.1, hkeeps.opening, hframes.around.1]
  · rw [hframes'.around.2, hkeeps.closing, hframes.around.2]

/-- The first edit draws one table, the second one the other. -/
theorem edits_keep_mixed : ∃ s' b',
    applyAll ⟨.relative, []⟩ [⟨[[.key, .key]], true, defaultLead⟩, ⟨[[.key]], true, ['/', '/']⟩]
        (encode mixedSource) = .ok (encode s') ∧
      (parseBlock (encode s')).value = some b' ∧ b'.unparsed = 0 ∧
      b'.contents = mixedBlock.contents ∧
      (encode s').take (b'.start + 1) = (encode mixedSource).take (mixedBlock.start + 1) ∧
      (encode s').drop b'.stop = (encode mixedSource).drop mixedBlock.stop := by
  refine edits_keep_block _ mixedSource mixedBlock parseBlock_mixed rfl (by decide) _ ?_
  intro e he
  simp only [List.mem_cons, List.not_mem_nil, or_false] at he
  rcases he with rfl | rfl
  · exact ⟨by decide, by decide⟩
  · exact ⟨by decide, by decide⟩

end KeyTables
