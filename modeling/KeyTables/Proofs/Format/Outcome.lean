import KeyTables.Format.File
import KeyTables.Proofs.Format.Redraw

/-! Formatting a source, in terms of its layout.

* `reformat_layout`: the formatted source is the redrawn layout, and the counts are those of the
  tables that fit the grid and of those that do not.
* `reformat_cases`: a source without one is left as it is, so there is always a result
  (`reformat_ok`).
* `reformatFile_ok`: a file is written with the formatted text if that is wanted and differs. -/
namespace KeyTables
set_option autoImplicit false

/-- Names and keys of the tables of a block. -/
def Block.contents (b : Block) : List (Text × List Text) :=
  b.tables.map fun t => (t.name.text, t.keys)

/-- Whether the table is drawn. -/
def Segment.fits (g : Grid) (p : Segment) : Bool :=
  g.keyCount == p.keys.length

theorem isNewline_breakOf (t : Text) : IsNewline (breakOf t) := by
  rcases breakOf_cases t with ⟨h, -⟩ | ⟨h, -⟩
  · exact Or.inr h
  · exact Or.inl h

theorem contents_tiles (o : Nat) (ps : List Segment) (tables : List KeyTable)
    (h : Tiles o ps tables) : (tables.map fun t => (t.name.text, t.keys)) = contents ps := by
  induction ps generalizing o tables with
  | nil =>
    rw [show tables = [] from h]
    rfl
  | cons p ps ih =>
    obtain ⟨table, rest, rfl, ⟨hname, hkeys, -⟩, hrest⟩ := h
    rw [List.map_cons, ih _ rest hrest, hname, hkeys]
    rfl

theorem Layout.Frames.contents {l : Layout} {b : Block} (h : l.Frames b) :
    b.contents = contents l.segments :=
  contents_tiles _ _ _ h.tables

theorem Layout.Frames.keys {l : Layout} {b : Block} (h : l.Frames b) :
    b.tables.map KeyTable.keys = l.segments.map Segment.keys := by
  have hkeys := congrArg (List.map Prod.snd) h.contents
  rwa [Block.contents, KeyTables.contents, List.map_map, List.map_map] at hkeys

theorem Layout.Frames.forall_keys {l : Layout} {b : Block} (h : l.Frames b)
    (P : List Text → Prop) : (∀ t ∈ b.tables, P t.keys) ↔ ∀ p ∈ l.segments, P p.keys := by
  have htables : (∀ keys ∈ b.tables.map KeyTable.keys, P keys) ↔ ∀ t ∈ b.tables, P t.keys :=
    List.forall_mem_map
  have hsegments : (∀ keys ∈ l.segments.map Segment.keys, P keys) ↔
      ∀ p ∈ l.segments, P p.keys :=
    List.forall_mem_map
  rw [← htables, ← hsegments, h.keys]

section
variable (g : Grid) (lead newline : Text)

theorem draw_fits (p : Segment) :
    (p.fits g = true ∧ ∃ d, draw g p.keys lead = .ok d) ∨
      (p.fits g = false ∧ ∃ e, draw g p.keys lead = .error e) := by
  by_cases h : g.keyCount = p.keys.length
  · exact Or.inl ⟨beq_iff_eq.mpr h, draw_of_count g p.keys lead h⟩
  · refine Or.inr ⟨beq_eq_false_iff_ne.mpr h, ⟨g.keyCount, p.keys.length⟩, ?_⟩
    rw [draw, if_neg h]

theorem replacement_tiles (o : Nat) (ps : List Segment) (tables : List KeyTable)
    (h : Tiles o ps tables) :
    tables.map (replacement g lead newline) = ps.map (redraw? g lead newline) := by
  induction ps generalizing o tables with
  | nil =>
    rw [show tables = [] from h]
    rfl
  | cons p ps ih =>
    obtain ⟨table, rest, rfl, ⟨hname, hkeys, -⟩, hrest⟩ := h
    rw [List.map_cons, List.map_cons, ih _ rest hrest, replacement, redraw, redraw?, hname, hkeys]
    cases draw g p.keys lead <;> rfl

theorem countP_redraw (ps : List Segment) :
    (ps.map (redraw? g lead newline)).countP Option.isSome = ps.countP (Segment.fits g) := by
  rw [List.countP_map]
  congr 1
  funext p
  rw [Function.comp_apply, redraw?]
  rcases draw_fits g lead p with ⟨hf, d, hd⟩ | ⟨hf, e, hd⟩
  · rw [hd, hf]
    rfl
  · rw [hd, hf]
    rfl

theorem length_skips (o : Nat) (ps : List Segment) (tables : List KeyTable)
    (h : Tiles o ps tables) :
    (tables.filterMap (skipNote g lead newline)).length = ps.countP fun p => !p.fits g := by
  induction ps generalizing o tables with
  | nil =>
    rw [show tables = [] from h]
    rfl
  | cons p ps ih =>
    obtain ⟨table, rest, rfl, ⟨hname, hkeys, -⟩, hrest⟩ := h
    rw [List.filterMap_cons, skipNote, redraw, hkeys, List.countP_cons]
    rcases draw_fits g lead p with ⟨hf, d, hd⟩ | ⟨hf, e, hd⟩
    · simp only [hd, hf]
      exact ih _ rest hrest
    · simp only [hd, hf, List.length_cons]
      rw [ih _ rest hrest]
      rfl

theorem reformat_layout (l : Layout) (h : l.Valid) :
    (reformat l.text g lead).value = .ok ⟨(l.redrawnWith g lead (breakOf l.text)).text, true,
      l.segments.length, l.segments.countP (Segment.fits g),
      l.segments.countP fun p => !p.fits g⟩ := by
  obtain ⟨b, hparse, hframes⟩ := parseBlock_layout l h
  have hreplacements := replacement_tiles g lead (breakOf l.text) _ _ _ hframes.tables
  have hskips := length_skips g lead (breakOf l.text) _ _ _ hframes.tables
  have hcount := length_tiles _ _ _ hframes.tables
  have hpatch := patch_layout l b hframes (l.segments.map (redraw? g lead (breakOf l.text)))
    (List.length_map _)
  rw [← text_redrawn] at hpatch
  simp only [reformat, hparse, hframes.unparsed, if_true, reformatBlock, hreplacements, hpatch,
    hskips, hcount, countP_redraw]

/-- The result of formatting a file whose text has the outcome `o`. -/
theorem reformatFile_ok (path : Path) (write : Bool) (source : Text) (o : Outcome)
    (h : (reformat source g lead).value = .ok o) :
    (reformatFile path (.ok (encode source)) g write lead).value =
        .ok ⟨o, o.text != source⟩ ∧
      (reformatFile path (.ok (encode source)) g write lead).written =
        if write && o.text != source then some (encode o.text) else none := by
  simp only [reformatFile, decode_encode, h]
  cases write && o.text != source with
  | true => exact ⟨rfl, rfl⟩
  | false => exact ⟨rfl, rfl⟩

end

/-- A source has a layout, or formatting leaves it as it is. -/
theorem reformat_cases (s : Text) (g : Grid) (lead : Text) :
    (∃ l : Layout, l.Valid ∧ l.text = s ∧
      ∃ b, (parseBlock (encode s)).value = some b ∧ b.unparsed = 0 ∧ l.Frames b) ∨
    ((∀ b, (parseBlock (encode s)).value = some b → b.unparsed ≠ 0) ∧
      ∃ o, (reformat s g lead).value = .ok o ∧ o.text = s) := by
  cases hparse : (parseBlock (encode s)).value with
  | none =>
    refine Or.inr ⟨by simp, ⟨s, false, 0, 0, 0⟩, ?_, rfl⟩
    simp only [reformat, hparse]
  | some b =>
    by_cases hu : b.unparsed = 0
    · obtain ⟨l, hvalid, htext, hframes⟩ := layout_of_parseBlock s b hparse hu
      exact Or.inl ⟨l, hvalid, htext, b, rfl, hu, hframes⟩
    · refine Or.inr ⟨?_, ⟨s, true, b.tables.length, 0, 0⟩, ?_, rfl⟩
      · rintro b' hb
        obtain rfl := Option.some.inj hb
        exact hu
      · simp only [reformat, hparse, if_neg hu]

theorem reformat_ok (s : Text) (g : Grid) (lead : Text) :
    ∃ o, (reformat s g lead).value = .ok o := by
  rcases reformat_cases s g lead with ⟨l, hvalid, rfl, -⟩ | ⟨-, o, ho, -⟩
  · exact ⟨_, reformat_layout g lead l hvalid⟩
  · exact ⟨o, ho⟩

/-! ## A source -/

/-- A block of a table of two keys and a table of one. -/
def mixedSource : Text :=
  "const T PROGMEM K[][R][C] = \x7b[A] = LAYOUT(X, F(Y)), [B] = LAYOUT(_)\x7d;".toList

def mixedBlock : Block :=
  ⟨28, 67, [⟨⟨.ident, 30, [0x41]⟩, [['X'], ['F', '(', 'Y', ')']], 29, 51⟩,
    ⟨⟨.ident, 53, [0x42]⟩, [[]], 52, 67⟩], 0⟩

theorem parseBlock_mixed : (parseBlock (encode mixedSource)).value = some mixedBlock := by
  decide +kernel

theorem exists_ok {ε α : Type} (r : Except ε α) (p : α → Bool) (h : r.toOption.any p = true) :
    ∃ a, r = .ok a ∧ p a = true := by
  cases r with
  | error e => exact absurd h Bool.false_ne_true
  | ok a => exact ⟨a, rfl, h⟩

end KeyTables
