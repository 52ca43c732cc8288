import KeyTables.Drawing.Table
import KeyTables.Proofs.Grid.Fill
import KeyTables.Proofs.Text.Lines

/-! The lines of a drawn table.

* `draw_ok`, `draw_of_count`: a table is drawn if and only if it has as many keys as the grid.
* `plainLine_draw`: its lines make no break with what follows them.
* `commentLine_draw`: the lines of its diagram are comments if the lead starts one. -/
namespace KeyTables
set_option autoImplicit false

/-! ## Characters of a diagram -/

theorem Glyph.char_ne (glyph : Glyph) : glyph.char ≠ '\n' := by
  cases glyph <;> decide

theorem not_mem_padEnd (width : Int) (t : Text) (h : '\n' ∉ t) : '\n' ∉ padEnd width t := by
  intro hmem
  rcases List.mem_append.mp hmem with hmem | hmem
  · exact h hmem
  · exact absurd (List.eq_of_mem_replicate hmem) (by decide)

namespace Grid

theorem not_mem_borderLine (g : Grid) (row : Nat) (width : Int) :
    '\n' ∉ g.borderLine row width := by
  intro hmem
  obtain ⟨col, -, hc⟩ := List.mem_flatMap.mp hmem
  rcases List.mem_cons.mp hc with hc | hc
  · exact Glyph.char_ne _ hc.symm
  · exact Glyph.char_ne _ (List.eq_of_mem_replicate hc).symm

theorem not_mem_keyLine (g : Grid) (row : Nat) (slots : List Slot) (width : Int)
    (h : ∀ slot ∈ slots, '\n' ∉ slot.label) : '\n' ∉ g.keyLine row slots width := by
  intro hmem
  obtain ⟨col, -, hc⟩ := List.mem_flatMap.mp hmem
  rcases List.mem_cons.mp hc with hc | hc
  · exact Glyph.char_ne _ hc.symm
  · split at hc
    · simp at hc
    · next slot hslot =>
      have hlabel := not_mem_padEnd width slot.label (h slot (List.mem_of_getElem? hslot))
      simp only [List.cons_append, List.mem_cons, List.mem_append, List.not_mem_nil,
        or_false] at hc
      rcases hc with hc | hc | hc
      · exact absurd hc (by decide)
      · exact hlabel hc
      · exact absurd hc (by decide)

theorem not_mem_linesFrom (g : Grid) (width : Int) (row : Nat) (rows : List (List Slot))
    (h : ∀ slots ∈ rows, ∀ slot ∈ slots, '\n' ∉ slot.label) :
    ∀ l ∈ g.linesFrom width row rows, '\n' ∉ l := by
  induction rows generalizing row with
  | nil => simp [linesFrom]
  | cons slots rows ih =>
    have hrest := ih (row + 1) (fun s hs => h s (List.mem_cons_of_mem slots hs))
    intro l hl
    rw [linesFrom] at hl
    rcases List.mem_cons.mp hl with rfl | hl
    · exact g.not_mem_keyLine row slots width (h slots List.mem_cons_self)
    · rcases List.mem_cons.mp hl with rfl | hl
      · exact g.not_mem_borderLine (row + 1) width
      · exact hrest l hl

theorem not_mem_diagramLines (g : Grid) (rows : List (List Slot)) (width : Int)
    (h : ∀ slots ∈ rows, ∀ slot ∈ slots, '\n' ∉ slot.label) :
    ∀ l ∈ g.diagramLines rows width, '\n' ∉ l := by
  intro l hl
  unfold diagramLines at hl
  split at hl
  · simp at hl
  · rcases List.mem_cons.mp hl with rfl | hl
    · exact g.not_mem_borderLine 0 width
    · exact g.not_mem_linesFrom width 0 _ h l hl

end Grid

/-! ## Lines -/

theorem not_mem_label (keys : List Text) (rows : List (List Slot))
    (hrows : rows.flatMap (·.filterMap Slot.flagged?) = flags keys) (hk : ∀ k ∈ keys, '\n' ∉ k) :
    ∀ slots ∈ rows, ∀ slot ∈ slots, '\n' ∉ slot.label := by
  intro slots hslots slot hslot
  cases slot with
  | gap => simp [Slot.label]
  | key k more =>
    refine hk k (mem_of_flags keys (k, more) ?_)
    rw [← hrows]
    exact List.mem_flatMap.mpr ⟨slots, hslots, List.mem_filterMap.mpr ⟨_, hslot, rfl⟩⟩

/-- The lines of a diagram are trimmed lines that start with the lead. -/
theorem diagram_lines (g : Grid) (keys ls : List Text) (width : Int) (lead : Text)
    (hcount : g.keyCount = keys.length) (hk : ∀ k ∈ keys, '\n' ∉ k)
    (h : diagram g keys width lead = some ls) :
    ∀ l ∈ ls, ∃ line, '\n' ∉ line ∧ l = trimEnd (lead ++ line) := by
  obtain ⟨rows, hfill, hrows⟩ := g.fill_flags keys (by omega)
  rw [hcount, take_flags] at hrows
  rw [diagram, hfill, Option.some.injEq] at h
  intro l hl
  rw [← h] at hl
  obtain ⟨line, hline, rfl⟩ := List.mem_map.mp hl
  exact ⟨line, g.not_mem_diagramLines rows width (not_mem_label keys rows hrows hk) line hline, rfl⟩

theorem comment_trimEnd (lead line : Text) (h : ['/', '/'] <+: lead) :
    ∃ r, trimEnd (lead ++ line) = '/' :: '/' :: r := by
  obtain ⟨more, rfl⟩ := h
  obtain ⟨r, hr⟩ := trimEnd_append_cons ['/'] (more ++ line) '/' (by decide)
  exact ⟨r, hr⟩

theorem not_mem_intercalate (sep : Text) (ls : List Text) (hs : '\n' ∉ sep)
    (h : ∀ l ∈ ls, '\n' ∉ l) : '\n' ∉ List.intercalate sep ls := by
  rcases List.eq_nil_or_concat ls with rfl | ⟨init, t, rfl⟩
  · simp [List.intercalate]
  · rw [List.concat_eq_append] at h ⊢
    rw [intercalate_ended]
    intro hmem
    rcases List.mem_append.mp hmem with hmem | hmem
    · obtain ⟨l, hl, hc⟩ := List.mem_flatMap.mp hmem
      rcases List.mem_append.mp hc with hc | hc
      · exact h l (List.mem_append_left _ hl) hc
      · exact hs hc
    · exact h t (by simp) hmem

theorem not_mem_entry (width : Int) (slot : Slot) (t : Text) (hslot : '\n' ∉ slot.label)
    (h : slot.entry? width = some t) : '\n' ∉ t := by
  cases slot with
  | gap => simp [Slot.entry?] at h
  | key k more =>
    have hshown : '\n' ∉ padEnd width (if k.isEmpty then placeholder else k) := by
      refine not_mem_padEnd width _ ?_
      split
      · decide
      · exact hslot
    simp only [Slot.entry?, Option.some.injEq] at h
    rw [← h]
    split
    · intro hmem
      rcases List.mem_append.mp hmem with hmem | hmem
      · exact hshown hmem
      · exact absurd hmem (by decide)
    · exact hshown

/-- No line of a key list holds a line feed or ends with a carriage return. -/
theorem plainLine_keyList (g : Grid) (keys ls : List Text) (width : Int)
    (hcount : g.keyCount = keys.length) (hk : ∀ k ∈ keys, '\n' ∉ k)
    (h : keyListLines g keys width = some ls) : ∀ l ∈ ls, PlainLine l := by
  obtain ⟨rows, hfill, hrows⟩ := g.fill_flags keys (by omega)
  rw [hcount, take_flags] at hrows
  rw [keyListLines, hfill, Option.some.injEq] at h
  intro l hl
  rw [← h] at hl
  obtain ⟨slots, hslots, hline⟩ := List.mem_filterMap.mp hl
  unfold keyListLine? at hline
  split at hline
  · simp at hline
  · rw [← Option.some.inj hline]
    refine plainLine_trimEnd _ ?_
    intro hmem
    rcases List.mem_append.mp hmem with hmem | hmem
    · exact absurd hmem (by decide)
    · refine not_mem_intercalate [' '] _ (by decide) ?_ hmem
      intro t ht
      obtain ⟨slot, hslot, hentry⟩ := List.mem_filterMap.mp ht
      exact not_mem_entry width slot t (not_mem_label keys rows hrows hk slots hslots slot hslot)
        hentry

/-! ## Drawing -/

/-- A line of a diagram: a comment up to the end of the line. -/
def CommentLine (l : Text) : Prop :=
  PlainLine l ∧ ∃ r, l = '/' :: '/' :: r

theorem draw_ok (g : Grid) (keys : List Text) (lead : Text) (d : Drawing)
    (h : draw g keys lead = .ok d) :
    g.keyCount = keys.length ∧ diagram g keys (keyWidth keys) lead = some d.diagram ∧
      keyListLines g keys (keyWidth keys) = some d.keyList := by
  rw [draw] at h
  split at h
  · next hcount =>
    split at h
    · next h1 h2 =>
      obtain rfl := Except.ok.inj h
      exact ⟨hcount, h1, h2⟩
    · simp at h
  · simp at h

theorem draw_of_count (g : Grid) (keys : List Text) (lead : Text)
    (h : g.keyCount = keys.length) : ∃ d, draw g keys lead = .ok d := by
  obtain ⟨rows, hfill, -⟩ := g.fill_flags keys (by omega)
  rw [draw, if_pos h]
  simp only [diagram, keyListLines, hfill]
  exact ⟨_, rfl⟩

theorem plainLine_draw (g : Grid) (keys : List Text) (lead : Text) (d : Drawing)
    (hline : '\n' ∉ lead) (hk : ∀ k ∈ keys, '\n' ∉ k) (h : draw g keys lead = .ok d) :
    (∀ l ∈ d.diagram, PlainLine l) ∧ ∀ l ∈ d.keyList, PlainLine l := by
  obtain ⟨hcount, hdiagram, hlist⟩ := draw_ok g keys lead d h
  refine ⟨?_, plainLine_keyList g keys _ _ hcount hk hlist⟩
  intro l hl
  obtain ⟨line, hl', rfl⟩ := diagram_lines g keys _ _ lead hcount hk hdiagram l hl
  refine plainLine_trimEnd _ ?_
  intro hmem
  rcases List.mem_append.mp hmem with hmem | hmem
  · exact hline hmem
  · exact hl' hmem

theorem commentLine_draw (g : Grid) (keys : List Text) (lead : Text) (d : Drawing)
    (hlead : ['/', '/'] <+: lead) (hline : '\n' ∉ lead) (hk : ∀ k ∈ keys, '\n' ∉ k)
    (h : draw g keys lead = .ok d) : ∀ l ∈ d.diagram, CommentLine l := by
  obtain ⟨hcount, hdiagram, -⟩ := draw_ok g keys lead d h
  intro l hl
  refine ⟨(plainLine_draw g keys lead d hline hk h).1 l hl, ?_⟩
  obtain ⟨line, -, rfl⟩ := diagram_lines g keys _ _ lead hcount hk hdiagram l hl
  exact comment_trimEnd lead line hlead

end KeyTables
