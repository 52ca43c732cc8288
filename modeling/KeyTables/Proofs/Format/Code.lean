import KeyTables.Proofs.Drawing.TableCode
import KeyTables.Proofs.Format.Stability

/-! Which code survives formatting.

* `aligned`: pieces of code that are exchanged for others of no more brackets and parentheses make the
  same code only if each of them does.
* `code_redrawn_iff`: the redrawn layout has the same code if and only if each drawn table has the
  code of the text that it replaces.
* `pieces_layout`: these texts are the segments that the block of a source has. -/
namespace KeyTables
set_option autoImplicit false
open Cursor

/-! ## Stretches -/

theorem joined_stretches (tail : Text) (p : Segment) (ps : List Segment) :
    joined (p :: ps) ++ tail = (stretches tail (p :: ps)).flatMap Prod.snd := by
  induction ps generalizing p with
  | nil => simp [stretches, joined]
  | cons q ps ih =>
    rw [joined_cons, List.append_assoc, ih q, stretches, List.flatMap_cons]

theorem spliced_map (tail : Text) (r : Segment → Option Text) (p : Segment) (ps : List Segment) :
    spliced tail (p :: ps) ((p :: ps).map r) =
      (stretches tail (p :: ps)).flatMap fun x => (r x.1).getD x.2 := by
  rw [spliced_stretches tail p ps _ (List.length_map r), ← map_stretches tail r,
    List.zipWith_map_right, List.zipWith_self, List.flatMap_def]

theorem fst_of_mem_stretches (tail : Text) (ps : List Segment) (x : Segment × Text)
    (h : x ∈ stretches tail ps) : x.1 ∈ ps ∧ ∃ rest, x.2 = x.1.text ++ rest := by
  fun_induction stretches tail ps with
  | case1 => simp at h
  | case2 p =>
    rw [List.mem_singleton.mp h]
    exact ⟨List.mem_cons_self, tail, rfl⟩
  | case3 p q ps ih =>
    rcases List.mem_cons.mp h with rfl | h
    · exact ⟨List.mem_cons_self, [], (List.append_nil _).symm⟩
    · obtain ⟨hmem, hrest⟩ := ih h
      exact ⟨List.mem_cons_of_mem p hmem, hrest⟩

/-- The code of stretches of which each ends with a token, up to the closing brace. -/
theorem codeOf_stretches (tail : Text) (closing : Bytes) (f : Segment × Text → Text) (p : Segment)
    (ps : List Segment) (hsealed : ∀ q ∈ p :: ps, Sealed (encode (f (q, q.text))))
    (hlast : ∀ q ∈ p :: ps, codeOf (encode (f (q, q.text ++ tail)) ++ closing) =
      codeOf (encode (f (q, q.text ++ tail))) ++ codeOf closing) :
    codeOf (encode ((stretches tail (p :: ps)).flatMap f) ++ closing) =
      (stretches tail (p :: ps)).flatMap (fun x => codeOf (encode (f x))) ++ codeOf closing := by
  induction ps generalizing p with
  | nil =>
    have hp := hlast p List.mem_cons_self
    simpa [stretches] using hp
  | cons q ps ih =>
    have hrest := ih q (fun x hx => hsealed x (List.mem_cons_of_mem p hx))
      (fun x hx => hlast x (List.mem_cons_of_mem p hx))
    rw [stretches, List.flatMap_cons, List.flatMap_cons, encode_append, List.append_assoc,
      codeOf_sealed _ _ (hsealed p List.mem_cons_self), hrest, List.append_assoc]

/-! ## Alignment -/

section
variable (ahead a b : List (Token.Kind × Text))

/-- A piece that is kept moves what is ahead to the end of it. -/
theorem ahead_of_same (x : List (Token.Kind × Text)) (h : ahead ++ (x ++ a) = x ++ b) :
    ∃ ahead', ahead ++ x = x ++ ahead' ∧ ahead' ++ a = b := by
  rw [← List.append_assoc] at h
  have hstarts : x <+: ahead ++ x :=
    List.prefix_of_prefix_length_le ⟨b, h.symm⟩ ⟨a, rfl⟩ (by simp)
  obtain ⟨ahead', hahead⟩ := hstarts
  rw [← hahead, List.append_assoc] at h
  exact ⟨ahead', hahead.symm, List.append_cancel_left h⟩

/-- Where a piece is exchanged nothing is ahead, for the new piece starts with a bracket and there
are no others for what is ahead to start with. -/
theorem Fits.none_ahead {old new : List (Token.Kind × Text)} (hfits : Fits old new)
    (hle : weight (· == '[') b ≤ weight (· == '[') a) (h : ahead ++ (old ++ a) = new ++ b) :
    ahead = [] ∧ ∃ more, old = new ++ more ∧ more ++ a = b := by
  obtain rfl : ahead = [] := by
    cases ahead with
    | nil => rfl
    | cons f ahead =>
      obtain ⟨tail, hnew⟩ := List.head?_eq_some_iff.mp hfits.first
      have hfirst : f = (.lbracket, ['[']) := by
        rw [hnew] at h
        exact (List.cons.inj h).1
      have hweight := congrArg (weight (· == '[')) h
      have hone : (['['].countP (· == '[')) = 1 := by decide
      have hopenings := hfits.openings
      rw [hfirst, List.cons_append, weight_cons, hone] at hweight
      simp only [weight_append] at hweight
      omega
  rw [List.nil_append] at h
  obtain ⟨more, hmore⟩ : new <+: old := by
    obtain hp | hp := List.prefix_or_prefix_of_prefix ⟨a, h⟩ (List.prefix_append new b)
    · exact ⟨[], by rw [List.append_nil, hfits.eq_of_starts hp]⟩
    · exact hp
  rw [← hmore, List.append_assoc] at h
  exact ⟨rfl, more, hmore.symm, List.append_cancel_left h⟩

end

section
variable {α : Type} (old new : α → List (Token.Kind × Text))

theorem openings_le (xs : List α) (h : ∀ x ∈ xs, old x = new x ∨ Fits (old x) (new x)) :
    weight (· == '[') (xs.flatMap new) ≤ weight (· == '[') (xs.flatMap old) := by
  induction xs with
  | nil => exact Nat.le_refl _
  | cons x xs ih =>
    have hrest := ih (fun y hy => h y (List.mem_cons_of_mem x hy))
    rw [List.flatMap_cons, List.flatMap_cons, weight_append, weight_append]
    obtain hsame | hfits := h x List.mem_cons_self
    · rw [hsame]
      omega
    · have hx := hfits.openings
      omega

/-- Pieces that are the same, or exchanged for ones that fit, make the same code only if all of them
are the same. `ahead` is what the old code is ahead of the new one. -/
theorem aligned (xs : List α) (h : ∀ x ∈ xs, old x = new x ∨ Fits (old x) (new x))
    (ahead : List (Token.Kind × Text))
    (heq : ahead ++ xs.flatMap old = xs.flatMap new) :
    ahead = [] ∧ ∀ x ∈ xs, old x = new x := by
  induction xs generalizing ahead with
  | nil =>
    rw [List.flatMap_nil, List.flatMap_nil, List.append_nil] at heq
    exact ⟨heq, by simp⟩
  | cons x xs ih =>
    have hrest : ∀ y ∈ xs, old y = new y ∨ Fits (old y) (new y) :=
      fun y hy => h y (List.mem_cons_of_mem x hy)
    rw [List.flatMap_cons, List.flatMap_cons] at heq
    rw [List.forall_mem_cons]
    obtain hsame | hfits := h x List.mem_cons_self
    · rw [hsame] at heq
      obtain ⟨ahead', hahead, hnext⟩ := ahead_of_same ahead _ _ (new x) heq
      obtain ⟨rfl, hall⟩ := ih hrest ahead' hnext
      exact ⟨List.append_cancel_right (hahead.trans (List.append_nil _)), hsame, hall⟩
    · obtain ⟨rfl, more, hmore, hnext⟩ :=
        hfits.none_ahead ahead _ _ (openings_le old new xs hrest) heq
      obtain ⟨rfl, hall⟩ := ih hrest more hnext
      exact ⟨rfl, hmore.trans (List.append_nil _), hall⟩

end

/-! ## Layouts -/

theorem inside_behind (tail closing : Text) (before ps : List Segment)
    (h : Inside tail closing (before ++ ps)) : Inside tail closing ps := by
  induction before with
  | nil => exact h
  | cons p before ih => exact ih h.2.2

/-- The code between the last table and the closing brace can be told from what follows. -/
theorem codeOf_tail (tail closing : Text) (h : Inside tail closing []) :
    codeOf (encode tail ++ encode closing) = codeOf (encode tail) ++ codeOf (encode closing) := by
  obtain ⟨gap, after, -, hts⟩ := h 0
  rw [encode_append] at hts
  refine codeOf_cut _ _ gap after _ hts ?_
  exact Nat.zero_add _

section
variable (g : Grid) (lead newline : Text) (hn : IsNewline newline) (hl : IsLead lead)
include hn hl

theorem redraw_cases (p : Segment) (hp : p.Reads) :
    (p.fits g = true ∧ ∃ d, Drawn d p.name p.keys newline ∧
      redraw? g lead newline p = some (d.entryText p.name newline)) ∨
    (p.fits g = false ∧ redraw? g lead newline p = none) := by
  rcases draw_fits g lead p with ⟨hf, d, hd⟩ | ⟨hf, e, hd⟩
  · refine Or.inl ⟨hf, d, drawn_segment g lead newline p d hn hl hp hd, ?_⟩
    rw [redraw?, hd]
  · refine Or.inr ⟨hf, ?_⟩
    rw [redraw?, hd]

/-- A segment that is kept or drawn ends with a token. -/
theorem sealed_redraw (p : Segment) (hp : p.Reads) :
    Sealed (encode ((redraw? g lead newline p).getD p.text)) := by
  obtain ⟨-, d, hd, hsome⟩ | ⟨-, hnone⟩ := redraw_cases g lead newline hn hl p hp
  · rw [hsome]
    exact sealed_entryText d p.name newline p.keys hd
  · rw [hnone]
    exact hp.1

/-- The code of the redrawn layout, stretch by stretch. -/
theorem codeOf_redrawn (tail closing : Text) (p : Segment) (ps : List Segment)
    (h : Inside tail closing (p :: ps)) :
    codeOf (encode (spliced tail (p :: ps) ((p :: ps).map (redraw? g lead newline)) ++ closing)) =
        (stretches tail (p :: ps)).flatMap
          (fun x => codeOf (encode ((redraw? g lead newline x.1).getD x.2))) ++
        codeOf (encode closing) ∧
      codeOf (encode (joined (p :: ps) ++ (tail ++ closing))) =
        (stretches tail (p :: ps)).flatMap (fun x => codeOf (encode x.2)) ++
          codeOf (encode closing) := by
  have hreads := reads_of_inside tail closing (p :: ps) h
  have hend : Inside tail closing [] :=
    inside_behind tail closing (p :: ps) [] (by rwa [List.append_nil])
  have htail := codeOf_tail tail closing hend
  have hkept : ∀ q ∈ p :: ps, codeOf (encode (q.text ++ tail) ++ encode closing) =
      codeOf (encode (q.text ++ tail)) ++ codeOf (encode closing) := by
    intro q hq
    have hq := (hreads q hq).1
    rw [encode_append, List.append_assoc, codeOf_sealed _ _ hq, htail, codeOf_sealed _ _ hq,
      List.append_assoc]
  refine ⟨?_, ?_⟩
  · rw [spliced_map, encode_append]
    refine codeOf_stretches tail (encode closing)
      (fun x => (redraw? g lead newline x.1).getD x.2) p ps
      (fun q hq => sealed_redraw g lead newline hn hl q (hreads q hq)) ?_
    intro q hq
    obtain ⟨-, d, hd, hsome⟩ | ⟨-, hnone⟩ := redraw_cases g lead newline hn hl q (hreads q hq)
    · rw [hsome]
      exact codeOf_sealed _ _ (sealed_entryText d q.name newline q.keys hd)
    · rw [hnone]
      exact hkept q hq
  · rw [← List.append_assoc, joined_stretches, encode_append]
    exact codeOf_stretches tail (encode closing) Prod.snd p ps (fun q hq => (hreads q hq).1) hkept

/-- What becomes of the code of one stretch. -/
theorem code_stretch (tail : Text) (ps : List Segment) (hreads : ∀ p ∈ ps, p.Reads)
    (x : Segment × Text) (hx : x ∈ stretches tail ps) :
    (x.1.fits g = false ∧ redraw? g lead newline x.1 = none) ∨
    (x.1.fits g = true ∧ ∃ t, redraw? g lead newline x.1 = some t ∧
      Fits (codeOf (encode x.2)) (codeOf (encode t)) ∧
      (codeOf (encode x.2) = codeOf (encode t) ↔
        survives x.1.keys = true ∧ codeOf (encode x.2) = tableCode x.1.name x.1.keys)) := by
  obtain ⟨hmem, rest, hrest⟩ := fst_of_mem_stretches tail ps x hx
  have hp := hreads x.1 hmem
  obtain ⟨hf, d, hd, hsome⟩ | hnone := redraw_cases g lead newline hn hl x.1 hp
  · refine Or.inr ⟨hf, _, hsome, ?_⟩
    rw [hrest, encode_append, codeOf_sealed _ _ hp.1]
    exact ⟨fits_entry x.1 hp d newline hd _, code_entry_iff x.1 hp d newline hd _⟩
  · exact Or.inl hnone

theorem code_redrawn_iff (l : Layout) (h : l.Valid) :
    codeOf (encode (l.redrawnWith g lead newline).text) = codeOf (encode l.text) ↔
      ∀ x ∈ stretches l.tail l.segments, x.1.fits g = true →
        survives x.1.keys = true ∧ codeOf (encode x.2) = tableCode x.1.name x.1.keys := by
  obtain ⟨-, -, hsealed, -⟩ := h.opened
  have hinside := h.inside
  have hopening : ∀ t, codeOf (encode (l.opening ++ t)) =
      codeOf (encode l.opening) ++ codeOf (encode t) := by
    intro t
    rw [encode_append, codeOf_sealed _ _ hsealed]
  rw [text_redrawn, Layout.text, hopening, hopening, List.append_cancel_left_eq]
  cases hsegments : l.segments with
  | nil => simp [spliced, stretches]
  | cons p ps =>
    rw [hsegments] at hinside
    obtain ⟨hnew, hold⟩ := codeOf_redrawn g lead newline hn hl l.tail l.closing p ps hinside
    have hreads := reads_of_inside l.tail l.closing (p :: ps) hinside
    rw [hnew, hold, List.append_cancel_right_eq]
    have hstretch := code_stretch g lead newline hn hl l.tail (p :: ps) hreads
    constructor
    · intro heq x hx hf
      have hfits : ∀ y ∈ stretches l.tail (p :: ps),
          codeOf (encode y.2) = codeOf (encode ((redraw? g lead newline y.1).getD y.2)) ∨
            Fits (codeOf (encode y.2))
              (codeOf (encode ((redraw? g lead newline y.1).getD y.2))) := by
        intro y hy
        obtain ⟨-, hnone⟩ | ⟨-, t, ht, hfits, -⟩ := hstretch y hy
        · exact Or.inl (by rw [hnone]; rfl)
        · exact Or.inr (by rw [ht]; exact hfits)
      have hsame := (aligned _ _ _ hfits [] heq.symm).2 x hx
      obtain ⟨hno, -⟩ | ⟨-, t, ht, -, hiff⟩ := hstretch x hx
      · rw [hf] at hno
        simp at hno
      · rw [ht] at hsame
        exact hiff.mp hsame
    · intro hall
      rw [List.flatMap_def, List.flatMap_def]
      congr 1
      refine List.map_congr_left ?_
      intro x hx
      obtain ⟨-, hnone⟩ | ⟨hf, t, ht, -, hiff⟩ := hstretch x hx
      · rw [hnone]
        rfl
      · rw [ht]
        exact (hiff.mpr (hall x hx hf)).symm

end

/-! ## Sources -/

/-- The tables of a block with the bytes of their segments. -/
def Block.pieces (b : Block) (d : Bytes) : List (KeyTable × Bytes) :=
  b.tables.zip (b.segments.map fun r => slice d r.1 r.2)

/-- The pieces of a block are the stretches of its layout. -/
theorem pieces_layout (l : Layout) (b : Block) (h : l.Frames b) :
    ((b.pieces (encode l.text)).map fun x => ((x.1.name.text, x.1.keys), x.2)) =
      (stretches l.tail l.segments).map fun x => ((x.1.name, x.1.keys), encode x.2) := by
  have hcontents : (b.tables.map fun t => (t.name.text, t.keys)) =
      (stretches l.tail l.segments).map fun x => (x.1.name, x.1.keys) := by
    rw [contents_tiles _ _ _ h.tables, contents, map_stretches l.tail fun p => (p.name, p.keys)]
  have hzip : ((b.pieces (encode l.text)).map fun x => ((x.1.name.text, x.1.keys), x.2)) =
      (b.tables.map fun t => (t.name.text, t.keys)).zip
        (b.segments.map fun r => slice (encode l.text) r.1 r.2) := by
    rw [List.zip_map_left]
    rfl
  rw [hzip, hcontents, slices_layout l b h, List.zip_map']

/-- A source keeps its code when it is formatted if and only if each table that is drawn stands for
all the code of its segment, and its keys survive. -/
theorem code_kept_iff (s : Text) (g : Grid) (lead : Text) (hl : IsLead lead) :
    ∃ o, (reformat s g lead).value = .ok o ∧
      (codeOf (encode o.text) = codeOf (encode s) ↔
        ∀ b, (parseBlock (encode s)).value = some b → b.unparsed = 0 →
          ∀ x ∈ b.pieces (encode s), g.keyCount = x.1.keys.length →
            survives x.1.keys = true ∧ codeOf x.2 = tableCode x.1.name.text x.1.keys) := by
  rcases reformat_cases s g lead with ⟨l, hvalid, rfl, b, hparse, hu, hframes⟩ | ⟨hno, o, ho, hs⟩
  · refine ⟨_, reformat_layout g lead l hvalid, ?_⟩
    have hpieces : ∀ P : (Text × List Text) × Bytes → Prop,
        (∀ x ∈ b.pieces (encode l.text), P ((x.1.name.text, x.1.keys), x.2)) ↔
          ∀ x ∈ stretches l.tail l.segments, P ((x.1.name, x.1.keys), encode x.2) := by
      intro P
      have hmap := pieces_layout l b hframes
      rw [← List.forall_mem_map, hmap, List.forall_mem_map]
    have hb : ∀ P : Block → Prop, (∀ b', (parseBlock (encode l.text)).value = some b' →
        b'.unparsed = 0 → P b') ↔ P b := by
      intro P
      simp [hparse, hu]
    rw [code_redrawn_iff g lead _ (isNewline_breakOf _) hl l hvalid, hb,
      hpieces fun x => g.keyCount = x.1.2.length →
        survives x.1.2 = true ∧ codeOf x.2 = tableCode x.1.1 x.1.2]
    simp only [Segment.fits, beq_iff_eq]
  · refine ⟨o, ho, ?_⟩
    rw [hs]
    exact iff_of_true rfl (fun b hb hu => absurd hu (hno b hb))

theorem code_kept_mixed : ∃ o, (reformat mixedSource [[.key, .key]] defaultLead).value = .ok o ∧
    o.rendered = 1 ∧ codeOf (encode o.text) = codeOf (encode mixedSource) := by
  obtain ⟨o, ho, hiff⟩ := code_kept_iff mixedSource [[.key, .key]] defaultLead
    ⟨by decide, by decide⟩
  have hrendered : (reformat mixedSource [[.key, .key]] defaultLead).value.toOption.map
      Outcome.rendered = some 1 := by decide +kernel
  rw [ho] at hrendered
  refine ⟨o, ho, Option.some.inj hrendered, hiff.mpr ?_⟩
  intro b hb _
  rw [parseBlock_mixed] at hb
  obtain rfl := Option.some.inj hb
  decide +kernel

/-- A block whose one table has a key in parentheses. -/
def wrappedSource : Text :=
  "const T PROGMEM K[][R][C] = \x7b[A] = LAYOUT((X), Y)\x7d;".toList

/-- The first parenthesis ends the list of keys, and what stands behind it is dropped. -/
theorem code_lost_wrapped : ∃ o, (reformat wrappedSource [[.key]] defaultLead).value = .ok o ∧
    o.rendered = 1 ∧ (Token.Kind.ident, ['Y']) ∈ codeOf (encode wrappedSource) ∧
      (Token.Kind.ident, ['Y']) ∉ codeOf (encode o.text) ∧
      codeOf (encode o.text) ≠ codeOf (encode wrappedSource) := by
  obtain ⟨o, ho, hcode⟩ := exists_ok (reformat wrappedSource [[.key]] defaultLead).value
    (fun o => o.rendered == 1 && !(codeOf (encode o.text)).contains (.ident, ['Y']))
    (by decide +kernel)
  have hkept : (Token.Kind.ident, ['Y']) ∈ codeOf (encode wrappedSource) := by decide +kernel
  simp only [Bool.and_eq_true, beq_iff_eq, Bool.not_eq_true', List.contains_eq_mem,
    decide_eq_false_iff_not] at hcode
  refine ⟨o, ho, hcode.1, hkept, hcode.2, ?_⟩
  intro hsame
  rw [← hsame] at hkept
  exact hcode.2 hkept

end KeyTables
