import KeyTables.Proofs.Block.Patching
import KeyTables.Proofs.Format.Breaks

/-! What formatting leaves alone.

* `encode_reformat`: the bytes of a formatted source are the patched ones.
* `handled_segments`: every table is drawn or kept, in order. -/
namespace KeyTables
set_option autoImplicit false

/-! ## Tables -/

/-- What is put in the place of a table: its drawing if it fits the grid, and otherwise something
that holds its bytes, from its bracket to its end. -/
def Handled (d : Bytes) (g : Grid) (lead newline : Text) (t : KeyTable) (part : Bytes) : Prop :=
  if g.keyCount = t.keys.length then
    ∃ drawing, draw g t.keys lead = .ok drawing ∧
      part = encode (drawing.entryText t.name.text newline)
  else slice d t.start t.stop <:+: part

theorem handled_replacement (d : Bytes) (g : Grid) (lead newline : Text) (t : KeyTable)
    (segment : Nat × Nat) (h : segment.1 ≤ t.start ∧ t.stop ≤ segment.2) :
    Handled d g lead newline t
      (Block.patchedSegment d segment (replacement g lead newline t)) := by
  unfold Handled replacement redraw
  by_cases hcount : g.keyCount = t.keys.length
  · obtain ⟨drawing, hd⟩ := draw_of_count g t.keys lead hcount
    rw [if_pos hcount, hd]
    exact ⟨drawing, rfl, rfl⟩
  · rw [if_neg hcount, draw, if_neg hcount]
    exact slice_within d segment.1 t.start t.stop segment.2 h.1 h.2

theorem handled_segments (d : Bytes) (g : Grid) (lead newline : Text) (tables : List KeyTable)
    (segments : List (Nat × Nat))
    (h : List.Forall₂ (fun t segment => segment.1 ≤ t.start ∧ t.stop ≤ segment.2) tables
      segments) :
    List.Forall₂ (Handled d g lead newline) tables
      (segments.zipWith (Block.patchedSegment d) (tables.map (replacement g lead newline))) := by
  induction h with
  | nil => exact .nil
  | cons hsegment _ ih => exact .cons (handled_replacement d g lead newline _ _ hsegment) ih

/-! ## Outcomes -/

theorem Layout.Frames.countP {l : Layout} {b : Block} (h : l.Frames b) (f : List Text → Bool) :
    l.segments.countP (fun p => f p.keys) = b.tables.countP fun t => f t.keys := by
  have hsegments : (l.segments.map Segment.keys).countP f =
      l.segments.countP fun p => f p.keys := List.countP_map
  have htables : (b.tables.map KeyTable.keys).countP f =
      b.tables.countP fun t => f t.keys := List.countP_map
  rw [← hsegments, ← htables, h.keys]

section
variable (s : Text) (g : Grid) (lead : Text) (b : Block)

/-- The outcome for a block whose entries are all tables. -/
theorem encode_reformat (hparse : (parseBlock (encode s)).value = some b) (hu : b.unparsed = 0) :
    ∃ o, (reformat s g lead).value = .ok o ∧
      encode o.text = b.patchedBytes (encode s)
        (b.tables.map (replacement g lead (breakOf s))) ∧
      o.blockFound = true ∧ o.tables = b.tables.length ∧
      o.rendered = b.tables.countP (fun t => g.keyCount == t.keys.length) ∧
      o.skipped = b.tables.countP (fun t => g.keyCount != t.keys.length) ∧
      (o.rendered = 0 → o.text = s) := by
  obtain ⟨l, hvalid, rfl, hframes⟩ := layout_of_parseBlock s b hparse hu
  refine ⟨_, reformat_layout g lead l hvalid, ?_, rfl, ?_, ?_, ?_, ?_⟩
  · rw [text_redrawn, replacement_tiles g lead _ _ _ _ hframes.tables,
      patchedBytes_layout l b hframes _ (List.length_map _)]
  · exact (length_tiles _ _ _ hframes.tables).symm
  · exact hframes.countP fun keys => g.keyCount == keys.length
  · exact hframes.countP fun keys => g.keyCount != keys.length
  · intro hnone
    have hkept : ∀ p ∈ l.segments, p.fits g = false := by
      intro p hp
      simpa using List.countP_eq_zero.mp hnone p hp
    rw [redrawnWith_none g lead l _ hkept]

/-- Formatting always gives a result. Bytes outside the braces are kept, and so is every table that
does not fit the grid; what becomes of the tables stands in their order. Without a block, with an
entry that is no table, and if no table is drawn, the text is as it was. -/
theorem reformat_safe : ∃ o, (reformat s g lead).value = .ok o ∧ (o.rendered = 0 → o.text = s) ∧
    ((parseBlock (encode s)).value = none → o = ⟨s, false, 0, 0, 0⟩) ∧
    ∀ b, (parseBlock (encode s)).value = some b →
      o.blockFound = true ∧ o.tables = b.tables.length ∧
      (b.unparsed ≠ 0 → o.text = s ∧ o.rendered = 0 ∧ o.skipped = 0) ∧
      (encode s)[b.start]? = some 0x7B ∧ (encode s)[b.stop]? = some 0x7D ∧
      ∃ inside, encode o.text =
          (encode s).take (b.start + 1) ++ inside ++ (encode s).drop b.stop ∧
        (b.unparsed = 0 → o.rendered + o.skipped = o.tables ∧
          o.skipped = b.tables.countP (fun t => g.keyCount != t.keys.length) ∧
          ∃ parts, List.Forall₂ (Handled (encode s) g lead (breakOf s)) b.tables parts ∧
            (b.tables ≠ [] → inside = parts.flatten)) := by
  cases hparse : (parseBlock (encode s)).value with
  | none =>
    refine ⟨⟨s, false, 0, 0, 0⟩, ?_, fun _ => rfl, fun _ => rfl, by simp⟩
    simp only [reformat, hparse]
  | some b =>
    obtain ⟨hopen, hclose, hlt, -⟩ := braces_of_parseBlock (encode s) b hparse
    obtain ⟨hordered, hinside⟩ := tables_of_parseBlock (encode s) b hparse
    by_cases hu : b.unparsed = 0
    · obtain ⟨o, ho, hbytes, hfound, htables, hrendered, hskipped, hnone⟩ :=
        encode_reformat s g lead b hparse hu
      refine ⟨o, ho, hnone, by simp, ?_⟩
      rintro b' hb
      obtain rfl := Option.some.inj hb
      refine ⟨hfound, htables, fun h => absurd hu h, hopen, hclose, _, hbytes, fun _ => ?_⟩
      refine ⟨?_, hskipped, _, handled_segments (encode s) g lead (breakOf s) b.tables b.segments
        (covers_segmentsFrom _ _ _ (fun t ht => (hinside t ht).2.1)
          (fun t ht => (hinside t ht).2.2) hordered), ?_⟩
      · have hall := List.length_eq_countP_add_countP
          (fun t : KeyTable => g.keyCount == t.keys.length) (l := b.tables)
        simp only [Bool.not_eq_true, Bool.decide_eq_false] at hall
        rw [hrendered, hskipped, htables, hall]
        rfl
      · intro hne
        unfold Block.patchedInside
        rw [if_neg (by simpa using hne)]
    · refine ⟨⟨s, true, b.tables.length, 0, 0⟩, ?_, fun _ => rfl, by simp, ?_⟩
      · simp only [reformat, hparse, if_neg hu]
      · rintro b' hb
        obtain rfl := Option.some.inj hb
        refine ⟨rfl, rfl, fun _ => ⟨rfl, rfl, rfl⟩, hopen, hclose,
          slice (encode s) (b.start + 1) b.stop, ?_, fun h => absurd h hu⟩
        exact (take_slice_drop (encode s) (b.start + 1) b.stop hlt).symm

end

end KeyTables
