import KeyTables.Proofs.Format.Breaks
import KeyTables.Proofs.Format.Runs

/-! Formatting a formatted source.

* `stale`: the number of kept tables directly after a drawn one.
* `length_redrawn_twice`, `redrawn_twice`: each of them gains a line break when its source is
  formatted once more, and nothing else changes.
* `KeptAfterDrawn`: there is such a table. -/
namespace KeyTables
set_option autoImplicit false

/-- How many tables that do not fit the grid stand directly after one that does. -/
def stale (g : Grid) : (afterDrawn : Bool) → List (List Text) → Nat
  | _, [] => 0
  | afterDrawn, keys :: rest =>
    if g.keyCount = keys.length then stale g true rest
    else (if afterDrawn then 1 else 0) + stale g false rest

section
variable (g : Grid) (lead newline : Text)

theorem stale_fits (after : Bool) (p : Segment) (ps : List Segment) (h : p.fits g = true) :
    stale g after ((p :: ps).map Segment.keys) = stale g true (ps.map Segment.keys) := by
  rw [List.map_cons, stale, if_pos (beq_iff_eq.mp h)]

theorem stale_kept (after : Bool) (p : Segment) (ps : List Segment) (h : p.fits g = false) :
    stale g after ((p :: ps).map Segment.keys) =
      (if after then 1 else 0) + stale g false (ps.map Segment.keys) := by
  rw [List.map_cons, stale, if_neg (beq_eq_false_iff_ne.mp h)]

theorem stale_all (after : Bool) (ps : List Segment) (h : ∀ p ∈ ps, p.fits g = true) :
    stale g after (ps.map Segment.keys) = 0 := by
  induction ps generalizing after with
  | nil => rfl
  | cons p ps ih =>
    rw [stale_fits g after p ps (h p List.mem_cons_self),
      ih true (fun x hx => h x (List.mem_cons_of_mem p hx))]

/-! ## Twice -/

theorem length_redrawn_twice (after : Bool) (ps : List Segment) :
    (joined (redrawn g lead newline after (redrawn g lead newline after ps))).length =
      (joined (redrawn g lead newline after ps)).length +
        newline.length * stale g after (ps.map Segment.keys) := by
  induction ps generalizing after with
  | nil => rfl
  | cons p ps ih =>
    rcases draw_fits g lead p with ⟨hf, d, hd⟩ | ⟨hf, e, hd⟩
    · rw [redrawn_ok g lead newline after p ps d hd, stale_fits g after p ps hf,
        redrawn_ok g lead newline after ⟨_, p.name, p.keys, true⟩ _ d hd]
      simp only [joined_cons, List.length_append, ih true]
      omega
    · rw [redrawn_error g lead newline after p ps e hd, stale_kept g after p ps hf,
        redrawn_error g lead newline after
          ⟨carried newline after ++ p.text, p.name, p.keys, p.comma⟩ _ e hd]
      simp only [joined_cons, List.length_append, ih false, Nat.mul_add]
      cases after with
      | true =>
        simp only [carried, if_true]
        omega
      | false =>
        simp only [carried, Bool.false_eq_true, if_false, List.length_nil]
        omega

theorem redrawn_twice (after : Bool) (ps : List Segment)
    (h : stale g after (ps.map Segment.keys) = 0) :
    redrawn g lead newline after (redrawn g lead newline after ps) =
      redrawn g lead newline after ps := by
  induction ps generalizing after with
  | nil => rfl
  | cons p ps ih =>
    rcases draw_fits g lead p with ⟨hf, d, hd⟩ | ⟨hf, e, hd⟩
    · rw [stale_fits g after p ps hf] at h
      rw [redrawn_ok g lead newline after p ps d hd,
        redrawn_ok g lead newline after ⟨_, p.name, p.keys, true⟩ _ d hd, ih true h]
    · rw [stale_kept g after p ps hf] at h
      have hafter : after = false := by
        cases after with
        | true => simp at h
        | false => rfl
      subst hafter
      rw [redrawn_error g lead newline false p ps e hd,
        redrawn_error g lead newline false
          ⟨carried newline false ++ p.text, p.name, p.keys, p.comma⟩ _ e hd,
        ih false (by simpa using h)]
      rfl

theorem redrawnTail_twice (tail : Text) (after : Bool) (ps : List Segment) :
    redrawnTail g lead newline (redrawnTail g lead newline tail ps)
      (redrawn g lead newline after ps) = redrawnTail g lead newline tail ps := by
  induction ps generalizing after with
  | nil => rfl
  | cons p ps ih =>
    cases ps with
    | nil =>
      rw [redrawnTail]
      rcases draw_fits g lead p with ⟨-, d, hd⟩ | ⟨-, e, hd⟩
      · rw [redrawn_ok g lead newline after p [] d hd, redrawn, redrawnTail]
        simp only [hd]
      · rw [redrawn_error g lead newline after p [] e hd, redrawn, redrawnTail]
        simp only [hd]
    | cons q ps =>
      have hnext : ∀ after, ∃ q' ps', redrawn g lead newline after (q :: ps) = q' :: ps' := by
        intro after
        rcases draw_fits g lead q with ⟨-, d, hd⟩ | ⟨-, e, hd⟩
        · exact ⟨_, _, redrawn_ok g lead newline after q ps d hd⟩
        · exact ⟨_, _, redrawn_error g lead newline after q ps e hd⟩
      rw [redrawnTail]
      rcases draw_fits g lead p with ⟨-, d, hd⟩ | ⟨-, e, hd⟩
      · obtain ⟨q', ps', hq⟩ := hnext true
        rw [redrawn_ok g lead newline after p _ d hd, hq, redrawnTail, ← hq, ih true]
      · obtain ⟨q', ps', hq⟩ := hnext false
        rw [redrawn_error g lead newline after p _ e hd, hq, redrawnTail, ← hq, ih false]

/-- Formatting a formatted source changes its text exactly if a kept table stands directly after a
drawn one. -/
theorem text_redrawn_twice (l : Layout) (hn : IsNewline newline) :
    ((l.redrawnWith g lead newline).redrawnWith g lead newline).text =
      (l.redrawnWith g lead newline).text ↔ stale g false (l.segments.map Segment.keys) = 0 := by
  constructor
  · intro h
    have hlen := congrArg List.length h
    simp only [Layout.text, Layout.redrawnWith, List.length_append, redrawnTail_twice,
      length_redrawn_twice] at hlen
    have hpos : 0 < newline.length := by rcases hn with rfl | rfl <;> decide
    have hzero : newline.length * stale g false (l.segments.map Segment.keys) = 0 := by omega
    rcases Nat.mul_eq_zero.mp hzero with hz | hz
    · omega
    · exact hz
  · intro h
    simp only [Layout.text, Layout.redrawnWith, redrawnTail_twice, redrawn_twice g lead newline _ _ h]

end

/-! ## Tables -/

/-- Some table that does not fit the grid stands directly after one that does. -/
def KeptAfterDrawn (g : Grid) (tables : List KeyTable) : Prop :=
  ∃ before drawn kept after, tables = before ++ drawn :: kept :: after ∧
    g.keyCount = drawn.keys.length ∧ g.keyCount ≠ kept.keys.length

theorem keptAfterDrawn_cons (g : Grid) (t : KeyTable) (ts : List KeyTable) :
    KeptAfterDrawn g (t :: ts) ↔
      (g.keyCount = t.keys.length ∧ ∃ u rest, ts = u :: rest ∧ g.keyCount ≠ u.keys.length) ∨
        KeptAfterDrawn g ts := by
  constructor
  · rintro ⟨before, drawn, kept, after, he, hd, hk⟩
    cases before with
    | nil =>
      obtain ⟨rfl, rfl⟩ := List.cons.inj he
      exact Or.inl ⟨hd, kept, after, rfl, hk⟩
    | cons x before =>
      exact Or.inr ⟨before, drawn, kept, after, (List.cons.inj he).2, hd, hk⟩
  · rintro (⟨hd, u, rest, rfl, hk⟩ | ⟨before, drawn, kept, after, rfl, hd, hk⟩)
    · exact ⟨[], t, u, rest, rfl, hd, hk⟩
    · exact ⟨t :: before, drawn, kept, after, rfl, hd, hk⟩

theorem stale_pos_iff (g : Grid) (tables : List KeyTable) (after : Bool) :
    0 < stale g after (tables.map KeyTable.keys) ↔
      (after = true ∧ ∃ t rest, tables = t :: rest ∧ g.keyCount ≠ t.keys.length) ∨
        KeptAfterDrawn g tables := by
  induction tables generalizing after with
  | nil => simp [stale, KeptAfterDrawn]
  | cons t ts ih =>
    rw [List.map_cons, stale, keptAfterDrawn_cons]
    by_cases ht : g.keyCount = t.keys.length
    · rw [if_pos ht, ih true]
      simp [ht]
    · have hrest := ih false
      simp only [Bool.false_eq_true, false_and, false_or] at hrest
      rw [if_neg ht]
      cases after with
      | true =>
        simp only [ht, if_true, true_and]
        exact ⟨fun _ => Or.inl ⟨t, ts, rfl, ht⟩, fun _ => by omega⟩
      | false => simp [ht, hrest]

theorem stale_eq_zero_iff (g : Grid) (tables : List KeyTable) :
    stale g false (tables.map KeyTable.keys) = 0 ↔ ¬ KeptAfterDrawn g tables := by
  have h := stale_pos_iff g tables false
  simp only [Bool.false_eq_true, false_and, false_or] at h
  rw [← h]
  omega

/-! ## Outcomes -/

theorem countP_contents (ps qs : List Segment) (f : List Text → Bool)
    (h : contents ps = contents qs) :
    ps.countP (fun p => f p.keys) = qs.countP fun q => f q.keys := by
  have hcount : ∀ rs : List Segment,
      rs.countP (fun p => f p.keys) = (contents rs).countP fun c => f c.2 := by
    intro rs
    rw [contents, List.countP_map]
    rfl
  rw [hcount, hcount, h]

/-- The outcome of formatting a formatted source once more. -/
theorem reformat_redrawn (g : Grid) (lead : Text) (l : Layout) (h : l.Valid) (hl : IsLead lead)
    (hplain : ∀ p ∈ l.segments, ∀ k ∈ p.keys, isPlainKey k = true) :
    (reformat (l.redrawnWith g lead (breakOf l.text)).text g lead).value =
      .ok ⟨((l.redrawnWith g lead (breakOf l.text)).redrawnWith g lead (breakOf l.text)).text, true,
        l.segments.length, l.segments.countP (Segment.fits g),
        l.segments.countP fun p => !p.fits g⟩ := by
  have hvalid := valid_redrawn g lead (breakOf l.text) l (isNewline_breakOf _) hl h
    (fun p hp _ => survives_of_plain _ (hplain p hp))
  have hcontents := contents_redrawn g lead (breakOf l.text) false l.segments
  have hlength : (l.redrawnWith g lead (breakOf l.text)).segments.length = l.segments.length := by
    have := congrArg List.length hcontents
    rwa [contents, contents, List.length_map, List.length_map] at this
  have hfits : (l.redrawnWith g lead (breakOf l.text)).segments.countP (Segment.fits g) =
      l.segments.countP (Segment.fits g) :=
    countP_contents _ _ (fun keys => g.keyCount == keys.length) hcontents
  have hkept : ((l.redrawnWith g lead (breakOf l.text)).segments.countP fun p => !p.fits g) =
      l.segments.countP fun p => !p.fits g :=
    countP_contents _ _ (fun keys => !(g.keyCount == keys.length)) hcontents
  rw [reformat_layout g lead _ hvalid, breakOf_redrawn g lead l h hl, hlength, hfits, hkept]

theorem plain_of_parse (s : Text) (b : Block) (h : (parseBlock (encode s)).value = some b)
    (hplain : ∀ t ∈ b.tables, ∀ k ∈ t.keys, isPlainKey k = true) :
    ∀ b', (parseBlock (encode s)).value = some b' →
      ∀ t ∈ b'.tables, ∀ k ∈ t.keys, isPlainKey k = true := by
  intro b' hb'
  rw [h] at hb'
  obtain rfl := Option.some.inj hb'
  exact hplain

theorem stale_segments (g : Grid) (l : Layout) (b : Block) (h : l.Frames b) :
    stale g false (l.segments.map Segment.keys) = 0 ↔ ¬ KeptAfterDrawn g b.tables := by
  rw [← h.keys, stale_eq_zero_iff]

/-- A block of two tables of two keys. -/
def evenSource : Text :=
  "const T PROGMEM K[][R][C] = \x7b[A] = LAYOUT(X, F(Y)), [B] = LAYOUT(_, Z)\x7d;".toList

def evenBlock : Block :=
  ⟨28, 70, [⟨⟨.ident, 30, [0x41]⟩, [['X'], ['F', '(', 'Y', ')']], 29, 51⟩,
    ⟨⟨.ident, 53, [0x42]⟩, [[], ['Z']], 52, 70⟩], 0⟩

/-- A formatted source in which every table was drawn is not changed by formatting it again. -/
theorem reformat_fixed_point (s : Text) (g : Grid) (lead : Text) (hl : IsLead lead)
    (hplain : ∀ b, (parseBlock (encode s)).value = some b →
      ∀ t ∈ b.tables, ∀ k ∈ t.keys, isPlainKey k = true) :
    ∃ o, (reformat s g lead).value = .ok o ∧
      (o.skipped = 0 → (reformat o.text g lead).value = .ok o) := by
  rcases reformat_cases s g lead with ⟨l, hvalid, rfl, b, hparse, -, hframes⟩ | ⟨-, o, ho, hs⟩
  · refine ⟨_, reformat_layout g lead l hvalid, ?_⟩
    intro hskipped
    have hall : ∀ p ∈ l.segments, p.fits g = true := by
      intro p hp
      simpa using List.countP_eq_zero.mp hskipped p hp
    have hstale := stale_all g false l.segments hall
    rw [reformat_redrawn g lead l hvalid hl (hframes.plain (hplain b hparse)),
      (text_redrawn_twice g lead _ l (isNewline_breakOf _)).mpr hstale]
  · exact ⟨o, ho, fun _ => by rw [hs, ho]⟩

theorem reformat_even_fixed : ∃ o, (reformat evenSource [[.key], [.key]] defaultLead).value = .ok o ∧
    o.skipped = 0 ∧ o.rendered = 2 ∧
    (reformat o.text [[.key], [.key]] defaultLead).value = .ok o := by
  obtain ⟨o, ho, hfixed⟩ := reformat_fixed_point evenSource [[.key], [.key]] defaultLead
    ⟨by decide, by decide⟩ (plain_of_parse evenSource evenBlock (by decide +kernel) (by decide))
  have hcounts : (reformat evenSource [[.key], [.key]] defaultLead).value.toOption.map
      (fun o => (o.skipped, o.rendered)) = some (0, 2) := by decide +kernel
  rw [ho] at hcounts
  obtain ⟨hskipped, hrendered⟩ := Prod.mk.inj (Option.some.inj hcounts)
  exact ⟨o, ho, hskipped, hrendered, hfixed hskipped⟩

/-- Formatting a formatted source changes nothing, and a check reports no change, if and only if no
table that was kept stands directly after one that was drawn. -/
theorem reformat_stable_iff (path : Path) (s : Text) (g : Grid) (lead : Text) (hl : IsLead lead)
    (hplain : ∀ b, (parseBlock (encode s)).value = some b →
      ∀ t ∈ b.tables, ∀ k ∈ t.keys, isPlainKey k = true) :
    ∃ o o' r, (reformat s g lead).value = .ok o ∧ (reformat o.text g lead).value = .ok o' ∧
      (reformatFile path (.ok (encode o.text)) g false lead).value = .ok r ∧
      (o'.text = o.text ↔ ¬ ∃ b, (parseBlock (encode s)).value = some b ∧ b.unparsed = 0 ∧
        KeptAfterDrawn g b.tables) ∧
      (r.changed = false ↔ o'.text = o.text) := by
  have check : ∀ o o' : Outcome, (reformat o.text g lead).value = .ok o' →
      ∃ r, (reformatFile path (.ok (encode o.text)) g false lead).value = .ok r ∧
        (r.changed = false ↔ o'.text = o.text) := by
    intro o o' ho
    exact ⟨_, (reformatFile_ok g lead path false o.text o' ho).1, bne_eq_false_iff_eq⟩
  rcases reformat_cases s g lead with ⟨l, hvalid, rfl, b, hparse, hu, hframes⟩ | ⟨hno, o, ho, hs⟩
  · have htwice := reformat_redrawn g lead l hvalid hl (hframes.plain (hplain b hparse))
    obtain ⟨r, hr, hchanged⟩ := check ⟨_, true, _, _, _⟩ _ htwice
    refine ⟨_, _, r, reformat_layout g lead l hvalid, htwice, hr, ?_, hchanged⟩
    rw [text_redrawn_twice g lead _ l (isNewline_breakOf _), stale_segments g l b hframes]
    constructor
    · rintro hkept ⟨b', hb', -, hb⟩
      rw [hparse] at hb'
      obtain rfl := Option.some.inj hb'
      exact hkept hb
    · intro hkept hb
      exact hkept ⟨b, hparse, hu, hb⟩
  · have ho' : (reformat o.text g lead).value = .ok o := by rw [hs, ho]
    obtain ⟨r, hr, hchanged⟩ := check o o ho'
    refine ⟨o, o, r, ho, ho', hr, ⟨fun _ => ?_, fun _ => rfl⟩, hchanged⟩
    rintro ⟨b, hb, hu, -⟩
    exact hno b hb hu

/-- A kept table in front of a drawn one is where it was after the second time. -/
theorem reformat_mixed_stable : ∃ o o' r,
    (reformat mixedSource [[.key]] defaultLead).value = .ok o ∧ o.rendered = 1 ∧ o.skipped = 1 ∧
      (reformat o.text [[.key]] defaultLead).value = .ok o' ∧
      (reformatFile ⟨.relative, []⟩ (.ok (encode o.text)) [[.key]] false defaultLead).value =
        .ok r ∧
      o'.text = o.text ∧ r.changed = false := by
  obtain ⟨o, o', r, ho, ho', hr, hstable, hchanged⟩ := reformat_stable_iff ⟨.relative, []⟩
    mixedSource [[.key]] defaultLead ⟨by decide, by decide⟩
    (plain_of_parse mixedSource mixedBlock parseBlock_mixed (by decide))
  have hcounts : (reformat mixedSource [[.key]] defaultLead).value.toOption.map
      (fun o => (o.rendered, o.skipped)) = some (1, 1) := by decide +kernel
  rw [ho] at hcounts
  obtain ⟨hrendered, hskipped⟩ := Prod.mk.inj (Option.some.inj hcounts)
  have htext : o'.text = o.text := by
    refine hstable.mpr ?_
    rintro ⟨b, hb, -, hkept⟩
    rw [parseBlock_mixed] at hb
    obtain rfl := Option.some.inj hb
    exact (stale_eq_zero_iff [[.key]] mixedBlock.tables).mp (by decide) hkept
  exact ⟨o, o', r, ho, hrendered, hskipped, ho', hr, htext, hchanged.mpr htext⟩

/-- A kept table after a drawn one gains a line break the second time. -/
theorem reformat_mixed_changes : (parseBlock (encode mixedSource)).value = some mixedBlock ∧
    (∀ t ∈ mixedBlock.tables, ∀ k ∈ t.keys, isPlainKey k = true) ∧
    ∃ o o', (reformat mixedSource [[.key, .key]] defaultLead).value = .ok o ∧ o.rendered = 1 ∧
      o.skipped = 1 ∧ (reformat o.text [[.key, .key]] defaultLead).value = .ok o' ∧
      o'.text ≠ o.text := by
  obtain ⟨o, ho, hcounts⟩ := exists_ok (reformat mixedSource [[.key, .key]] defaultLead).value
    (fun o => o.rendered == 1 && o.skipped == 1 &&
      (reformat o.text [[.key, .key]] defaultLead).value.toOption.any fun o' =>
        o'.text != o.text) (by decide +kernel)
  simp only [Bool.and_eq_true, beq_iff_eq] at hcounts
  obtain ⟨⟨hrendered, hskipped⟩, htwice⟩ := hcounts
  obtain ⟨o', ho', hne⟩ := exists_ok _ _ htwice
  exact ⟨parseBlock_mixed, by decide, o, o', ho, hrendered, hskipped, ho', bne_iff_ne.mp hne⟩

end KeyTables
