import KeyTables.Proofs.Format.Outcome

/-! Line breaks of a formatted source.

* `Segment.Reads.last`: a segment ends with a parenthesis or a comma.
* `evenBreaks_text`: no break of a layout is cut, so its breaks are even if those of its parts are.
* `evenBreaks_redrawn`: a layout with even breaks keeps them when its tables are drawn.
* `breakOf_redrawn`: a formatted source asks for the same line breaks as the source.
* `reformat_line_ends`: a source with one kind of line breaks is given no other kind. -/
namespace KeyTables
set_option autoImplicit false

/-! ## Ends of segments -/

theorem Segment.Reads.last (p : Segment) (h : p.Reads) :
    ∃ s c, p.text = s ++ [c] ∧ (c = ')' ∨ c = ',') := by
  obtain ⟨table, htokens, -, -, hstop⟩ := h.2 0
  obtain ⟨before, t, hts, ht, hend⟩ := PieceTokens.last _ _ _ htokens
  obtain ⟨s1, x, s2, hs, hp, hoffset, -⟩ := text_cut 0 p.text before [] t hts (isMark_of_last t ht)
  have hlen : (encode [Char.ofNat x.toNat]).length = 1 := by
    rw [encode_cons, utf8EncodeChar_ofNat x (mark_lt x _ hp)]
    rfl
  have hnil : s2 = [] := by
    refine encode_injective s2 [] (List.eq_nil_of_length_eq_zero ?_)
    rw [hs, ← List.singleton_append, encode_append, encode_append, List.length_append,
      List.length_append, hlen] at hstop
    omega
  refine ⟨s1, Char.ofNat x.toNat, by rw [hs, hnil], ?_⟩
  have hx := mark_all (fun b kind => decide ((kind = .rparen → Char.ofNat b.toNat = ')') ∧
    (kind = .comma → Char.ofNat b.toNat = ','))) (by decide) x _ hp
  obtain ⟨h1, h2⟩ := of_decide_eq_true hx
  exact ht.imp h1 h2

theorem Segment.Reads.last_ne (p : Segment) (h : p.Reads) : p.text.getLast? ≠ some '\r' := by
  obtain ⟨s, c, hs, hc⟩ := h.last
  rw [hs, List.getLast?_append, List.getLast?_singleton]
  rcases hc with rfl | rfl <;> simp

/-! ## Drawn tables -/

section
variable (paired : Bool)

theorem evenBreaks_body (d : Drawing) (name : Text) (hname : '\n' ∉ name)
    (hd : ∀ l ∈ d.diagram, PlainLine l) (hk : ∀ l ∈ d.keyList, PlainLine l) :
    EvenBreaks paired (d.body name (breakFor paired)) := by
  have hbreak := evenBreaks_breakFor paired
  have hseam : (breakFor paired).getLast? ≠ some '\r' := by
    rw [breakFor_last]
    decide
  have hopening : '\n' ∉ entryOpening name := by simp [entryOpening, hname]
  have hhead : EvenBreaks paired (d.head name (breakFor paired)) := by
    rw [Drawing.head, evenBreaks_append paired _ _ (Or.inl hseam),
      evenBreaks_append paired _ _ (Or.inr (by simp [entryOpening]))]
    exact ⟨hbreak, evenBreaks_ended paired _ hd, evenBreaks_of_not_mem paired _ hopening⟩
  have hlist : EvenBreaks paired (d.list (breakFor paired)) := by
    rw [Drawing.list, evenBreaks_append paired _ _ (Or.inl hseam),
      evenBreaks_append paired _ _ (Or.inr (by decide))]
    exact ⟨hbreak, evenBreaks_ended paired _ hk, evenBreaks_of_not_mem paired _ (by decide)⟩
  have hlast : (d.head name (breakFor paired)).getLast? = some '(' := by
    simp only [Drawing.head, entryOpening, List.getLast?_append]
    rfl
  rw [Drawing.body, evenBreaks_append paired _ _ (Or.inl (by rw [hlast]; decide)),
    evenBreaks_append paired _ _ (Or.inr (by decide))]
  exact ⟨hhead, hlist, evenBreaks_of_not_mem paired _ (by decide)⟩

/-! ## Layouts -/

theorem evenBreaks_joined (ps : List Segment) (rest : Text)
    (h : ∀ p ∈ ps, p.text.getLast? ≠ some '\r') :
    EvenBreaks paired (joined ps ++ rest) ↔
      (∀ p ∈ ps, EvenBreaks paired p.text) ∧ EvenBreaks paired rest := by
  induction ps with
  | nil => simp
  | cons p ps ih =>
    rw [joined_cons, List.append_assoc,
      evenBreaks_append paired _ _ (Or.inl (h p List.mem_cons_self)),
      ih (fun q hq => h q (List.mem_cons_of_mem p hq)), List.forall_mem_cons, and_assoc]

theorem evenBreaks_text (l : Layout) (hopening : l.opening.getLast? ≠ some '\r')
    (hsegments : ∀ p ∈ l.segments, p.text.getLast? ≠ some '\r')
    (hclosing : l.closing.head? ≠ some '\n') :
    EvenBreaks paired l.text ↔
      EvenBreaks paired l.opening ∧ (∀ p ∈ l.segments, EvenBreaks paired p.text) ∧
        EvenBreaks paired l.tail ∧ EvenBreaks paired l.closing := by
  rw [Layout.text, evenBreaks_append paired _ _ (Or.inl hopening),
    evenBreaks_joined paired _ _ hsegments, evenBreaks_append paired _ _ (Or.inr hclosing)]

end

/-! ## Formatted sources -/

section
variable (g : Grid) (lead : Text)

theorem reads_of_inside (tail closing : Text) (ps : List Segment) (h : Inside tail closing ps) :
    ∀ p ∈ ps, p.Reads := by
  induction ps with
  | nil => simp
  | cons p ps ih =>
    intro q hq
    rcases List.mem_cons.mp hq with rfl | hq
    · exact h.1
    · exact ih h.2.2 q hq

/-- A drawn table brings its line break into the text. -/
theorem newline_within (newline : Text) (after : Bool) (ps : List Segment)
    (h : ∃ p ∈ ps, p.fits g = true) : newline <:+: joined (redrawn g lead newline after ps) := by
  induction ps generalizing after with
  | nil => simp at h
  | cons p ps ih =>
    rcases draw_fits g lead p with ⟨hf, d, hd⟩ | ⟨hf, e, hd⟩
    · rw [redrawn_ok g lead newline after p ps d hd, joined_cons]
      exact ⟨carried newline after, ended newline d.diagram ++ (entryOpening p.name ++
        (d.list newline ++ ([')', ','] ++ joined (redrawn g lead newline true ps)))),
        by simp [Drawing.body, Drawing.head]⟩
    · rw [redrawn_error g lead newline after p ps e hd, joined_cons]
      refine List.infix_append_of_infix_right (ih false ?_)
      obtain ⟨q, hq, hqf⟩ := h
      rcases List.mem_cons.mp hq with rfl | hq
      · rw [hf] at hqf
        simp at hqf
      · exact ⟨q, hq, hqf⟩

theorem redrawn_none (newline : Text) (ps : List Segment) (h : ∀ p ∈ ps, p.fits g = false) :
    redrawn g lead newline false ps = ps := by
  induction ps with
  | nil => rfl
  | cons p ps ih =>
    have hrest := ih (fun x hx => h x (List.mem_cons_of_mem p hx))
    rcases draw_fits g lead p with ⟨hf, d, hd⟩ | ⟨-, e, hd⟩
    · rw [h p List.mem_cons_self] at hf
      simp at hf
    · rw [redrawn_error g lead newline false p ps e hd, hrest]
      rfl

theorem redrawnTail_cases (newline tail : Text) (ps : List Segment) :
    (redrawnTail g lead newline tail ps = tail ∨ redrawnTail g lead newline tail ps = newline) ∧
      ((∀ p ∈ ps, p.fits g = false) → redrawnTail g lead newline tail ps = tail) := by
  induction ps with
  | nil => exact ⟨Or.inl rfl, fun _ => rfl⟩
  | cons p ps ih =>
    cases ps with
    | nil =>
      rw [redrawnTail]
      rcases draw_fits g lead p with ⟨hf, d, hd⟩ | ⟨-, e, hd⟩
      · rw [hd]
        refine ⟨Or.inr rfl, fun h => ?_⟩
        rw [h p List.mem_cons_self] at hf
        simp at hf
      · rw [hd]
        exact ⟨Or.inl rfl, fun _ => rfl⟩
    | cons q ps =>
      rw [redrawnTail]
      exact ⟨ih.1, fun h => ih.2 (fun x hx => h x (List.mem_cons_of_mem p hx))⟩

theorem redrawnWith_none (l : Layout) (newline : Text)
    (h : ∀ p ∈ l.segments, p.fits g = false) : l.redrawnWith g lead newline = l := by
  rw [Layout.redrawnWith, redrawn_none g lead newline _ h,
    (redrawnTail_cases g lead newline l.tail l.segments).2 h]

theorem evenBreaks_carried (paired after : Bool) (t : Text) (hlast : t.getLast? ≠ some '\r')
    (ht : EvenBreaks paired t) :
    (carried (breakFor paired) after ++ t).getLast? ≠ some '\r' ∧
      EvenBreaks paired (carried (breakFor paired) after ++ t) := by
  have hcarried : (carried (breakFor paired) after).getLast? ≠ some '\r' := by
    cases after with
    | true => rw [carried, if_pos rfl, breakFor_last]; decide
    | false => simp [carried]
  have heven : EvenBreaks paired (carried (breakFor paired) after) := by
    cases after with
    | true => exact evenBreaks_breakFor paired
    | false => exact evenBreaks_of_not_mem paired [] (by simp)
  refine ⟨?_, (evenBreaks_append paired _ _ (Or.inl hcarried)).mpr ⟨heven, ht⟩⟩
  rw [List.getLast?_append]
  cases hc : t.getLast? with
  | none => exact hcarried
  | some c =>
    rw [hc] at hlast
    exact hlast

/-- The text of a segment after drawing: a drawn table or the old text, behind the break that the
table in front has left. -/
theorem text_of_mem_redrawn (newline : Text) (after : Bool) (ps : List Segment) (q : Segment)
    (h : q ∈ redrawn g lead newline after ps) :
    ∃ p ∈ ps, ∃ after', q.text = carried newline after' ++ p.text ∨
      ∃ d, draw g p.keys lead = .ok d ∧
        q.text = carried newline after' ++ d.body p.name newline := by
  induction ps generalizing after with
  | nil => simp [redrawn] at h
  | cons p ps ih =>
    cases hd : draw g p.keys lead with
    | ok d =>
      rw [redrawn_ok g lead newline after p ps d hd, List.mem_cons] at h
      rcases h with rfl | h
      · exact ⟨p, List.mem_cons_self, after, Or.inr ⟨d, hd, rfl⟩⟩
      · obtain ⟨p', hp', hq⟩ := ih true h
        exact ⟨p', List.mem_cons_of_mem p hp', hq⟩
    | error e =>
      rw [redrawn_error g lead newline after p ps e hd, List.mem_cons] at h
      rcases h with rfl | h
      · exact ⟨p, List.mem_cons_self, after, Or.inl rfl⟩
      · obtain ⟨p', hp', hq⟩ := ih false h
        exact ⟨p', List.mem_cons_of_mem p hp', hq⟩

theorem evenBreaks_redrawn (paired : Bool) (l : Layout) (h : l.Valid) (hlead : '\n' ∉ lead)
    (heven : EvenBreaks paired l.text) :
    EvenBreaks paired (l.redrawnWith g lead (breakFor paired)).text := by
  obtain ⟨before, hbefore, -⟩ := h.opened
  obtain ⟨behind, hbehind⟩ := h.closed
  have hreads := reads_of_inside _ _ _ h.inside
  have hopening : l.opening.getLast? ≠ some '\r' := by
    rw [hbefore, List.getLast?_append]
    simp
  have hclosing : l.closing.head? ≠ some '\n' := by
    rw [hbehind]
    simp
  rw [evenBreaks_text paired l hopening (fun p hp => (hreads p hp).last_ne) hclosing] at heven
  obtain ⟨heopening, hesegments, hetail, heclosing⟩ := heven
  have hsegments : ∀ q ∈ redrawn g lead (breakFor paired) false l.segments,
      q.text.getLast? ≠ some '\r' ∧ EvenBreaks paired q.text := by
    intro q hq
    obtain ⟨p, hp, after, hkept | ⟨d, hd, hdrawn⟩⟩ := text_of_mem_redrawn g lead _ _ _ q hq
    · rw [hkept]
      exact evenBreaks_carried paired after _ (hreads p hp).last_ne (hesegments p hp)
    · have hname : '\n' ∉ p.name := fun hmem =>
        not_lineFeed_of_ink _ ((hreads p hp).name_text.1.ink _ hmem) rfl
      have hkeys : ∀ k ∈ p.keys, '\n' ∉ k := fun k hk hmem =>
        not_lineFeed_of_ink _ ((Segment.Reads.keys_text p (hreads p hp) k hk).ink _ hmem) rfl
      obtain ⟨hdiagram, hlist⟩ := plainLine_draw g p.keys lead d hlead hkeys hd
      rw [hdrawn]
      refine evenBreaks_carried paired after _ ?_ (evenBreaks_body paired d _ hname hdiagram hlist)
      simp only [Drawing.body, List.getLast?_append]
      simp
  refine (evenBreaks_text paired (l.redrawnWith g lead (breakFor paired)) hopening
    (fun q hq => (hsegments q hq).1) hclosing).mpr ⟨heopening, fun q hq => (hsegments q hq).2, ?_,
      heclosing⟩
  show EvenBreaks paired (redrawnTail g lead (breakFor paired) l.tail l.segments)
  obtain ht | ht := (redrawnTail_cases g lead (breakFor paired) l.tail l.segments).1
  · rw [ht]
    exact hetail
  · rw [ht]
    exact evenBreaks_breakFor paired

theorem breakOf_redrawn (l : Layout) (h : l.Valid) (hl : IsLead lead) :
    breakOf (l.redrawnWith g lead (breakOf l.text)).text = breakOf l.text := by
  by_cases hex : ∃ p ∈ l.segments, p.fits g = true
  · rcases breakOf_cases l.text with ⟨hb, -⟩ | ⟨hb, hno⟩
    · have hpair : hasPairedBreak (l.redrawnWith g lead ['\r', '\n']).text = true := by
        rw [hasPairedBreak_iff]
        refine (newline_within g lead ['\r', '\n'] false l.segments hex).trans ?_
        exact List.infix_append_of_infix_right List.infix_append_left
      rw [hb, breakOf, if_pos hpair]
    · have heven : EvenBreaks false l.text := by
        rw [evenBreaks_false_iff, ← hasPairedBreak_iff, hno]
        simp
      have hsingle := evenBreaks_redrawn g lead false l h hl.2 heven
      rw [evenBreaks_false_iff, ← hasPairedBreak_iff] at hsingle
      rw [hb, breakOf]
      exact if_neg hsingle
  · rw [redrawnWith_none g lead l _ (fun p hp => by
      refine Bool.eq_false_iff.mpr (fun hf => hex ⟨p, hp, hf⟩))]

end

/-- A source whose breaks are all paired is given paired breaks only, and a source without a paired
break is given none. -/
theorem reformat_line_ends (s : Text) (g : Grid) (lead : Text) (hlead : '\n' ∉ lead) :
    ∃ o, (reformat s g lead).value = .ok o ∧
      (['\r', '\n'] <:+: s → (∀ u v, s = u ++ '\n' :: v → u.getLast? = some '\r') →
        ∀ u v, o.text = u ++ '\n' :: v → u.getLast? = some '\r') ∧
      (¬ ['\r', '\n'] <:+: s → ¬ ['\r', '\n'] <:+: o.text) := by
  rcases reformat_cases s g lead with ⟨l, hvalid, rfl, -⟩ | ⟨-, o, ho, hs⟩
  · have heven := evenBreaks_redrawn g lead (hasPairedBreak l.text) l hvalid hlead
    refine ⟨_, reformat_layout g lead l hvalid, ?_, ?_⟩
    · intro hpair hall
      rw [← hasPairedBreak_iff] at hpair
      rw [hpair, evenBreaks_true_iff, evenBreaks_true_iff] at heven
      rw [breakOf, if_pos hpair]
      exact heven hall
    · intro hnone
      have hsingle : hasPairedBreak l.text = false := by
        rwa [← hasPairedBreak_iff, Bool.not_eq_true] at hnone
      rw [hsingle, evenBreaks_false_iff, evenBreaks_false_iff] at heven
      rw [breakOf, hsingle]
      exact heven hnone
  · refine ⟨o, ho, ?_, ?_⟩
    · rw [hs]
      exact fun _ hall => hall
    · rw [hs]
      exact id

/-- A block of a table of one key and a table of two, on lines with paired breaks. -/
def pairedSource : Text :=
  ended ['\r', '\n'] ["const T PROGMEM K[][R][C] = \x7b".toList, "[A] = LAYOUT(X),".toList,
    "[B] = LAYOUT(Y, Z)\x7d;".toList]

/-- A lead that starts no comment and ends in a carriage return. -/
theorem reformat_paired_ends : ['\r', '\n'] <:+: pairedSource ∧
    (∀ u v, pairedSource = u ++ '\n' :: v → u.getLast? = some '\r') ∧
    ∃ o, (reformat pairedSource [[.key]] ['#', '\r']).value = .ok o ∧ o.rendered = 1 ∧
      o.skipped = 1 ∧ ∀ u v, o.text = u ++ '\n' :: v → u.getLast? = some '\r' := by
  have hpair : ['\r', '\n'] <:+: pairedSource := (hasPairedBreak_iff _).mp (by decide +kernel)
  have hall : ∀ u v, pairedSource = u ++ '\n' :: v → u.getLast? = some '\r' :=
    (evenBreaks_true_iff _).mp (evenBreaks_ended true _ (by unfold PlainLine; decide +kernel))
  obtain ⟨o, ho, hends, -⟩ := reformat_line_ends pairedSource [[.key]] ['#', '\r'] (by decide)
  have hcounts : (reformat pairedSource [[.key]] ['#', '\r']).value.toOption.map
      (fun o => (o.rendered, o.skipped)) = some (1, 1) := by decide +kernel
  rw [ho] at hcounts
  obtain ⟨hrendered, hskipped⟩ := Prod.mk.inj (Option.some.inj hcounts)
  exact ⟨hpair, hall, o, ho, hrendered, hskipped, hends hpair hall⟩

end KeyTables
