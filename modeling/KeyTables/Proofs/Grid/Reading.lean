import Mathlib.Data.List.Forall2
import KeyTables.Grid.Parser
import KeyTables.Proofs.Text.Words

/-! Reading a grid takes the format and nothing else, and blames the first bad cell.

* `Mark.spellings`: the cells that spell a mark.
* `Grid.skips`: the lines that hold no row.
* `readRows_ok_iff`, `readRows_error_iff`: what the lines must hold to be read, and what is reported
  if they do not.
* `RowText`, `WrittenGrid`: the ways to write a row, and a grid.
* `grid_format`: a text is read if and only if it is a written grid, and gives that grid.
* `file_read_as_text`: a file is read as the text that it decodes to. -/
namespace KeyTables
set_option autoImplicit false

/-! ## Cells -/

def Mark.spellings : Mark → List Text
  | .key => [['K'], ['k'], ['x']]
  | .blank => [['.'], ['_'], ['-']]

def spelledCells : List Text :=
  Mark.key.spellings ++ Mark.blank.spellings

theorem ofCell_eq_some_iff (cell : Text) (mark : Mark) :
    Mark.ofCell? cell = some mark ↔ cell ∈ mark.spellings := by
  constructor
  · intro h
    unfold Mark.ofCell? at h
    split at h
    all_goals cases h
    all_goals decide
  · intro h
    cases mark with
    | key =>
      simp only [Mark.spellings, List.mem_cons, List.not_mem_nil, or_false] at h
      rcases h with rfl | rfl | rfl <;> rfl
    | blank =>
      simp only [Mark.spellings, List.mem_cons, List.not_mem_nil, or_false] at h
      rcases h with rfl | rfl | rfl <;> rfl

theorem mem_spelledCells (cell : Text) :
    cell ∈ spelledCells ↔ ∃ mark : Mark, cell ∈ mark.spellings := by
  rw [spelledCells, List.mem_append]
  constructor
  · rintro (h | h)
    · exact ⟨.key, h⟩
    · exact ⟨.blank, h⟩
  · rintro ⟨mark, h⟩
    cases mark with
    | key => exact Or.inl h
    | blank => exact Or.inr h

theorem ofCell_eq_none_iff (cell : Text) : Mark.ofCell? cell = none ↔ cell ∉ spelledCells := by
  rw [mem_spelledCells, Option.eq_none_iff_forall_ne_some, not_exists]
  exact forall_congr' fun mark => not_congr (ofCell_eq_some_iff cell mark)

theorem ink_of_spelling (mark : Mark) (cell : Text) (h : cell ∈ mark.spellings) :
    cell ≠ [] ∧ ∀ c ∈ cell, isBlank c = false := by
  have hall : spelledCells.all (fun cell => !cell.isEmpty && !cell.any isBlank) = true := by decide
  have hcell := List.all_eq_true.mp hall cell ((mem_spelledCells cell).mpr ⟨mark, h⟩)
  simpa using hcell

namespace Grid

/-! ## Rows -/

/-- The first of the cells that spells no mark. -/
def firstBad (cells : List Text) : Option Text :=
  cells.find? fun cell => decide (cell ∉ spelledCells)

theorem firstBad_cons_bad (cell : Text) (cells : List Text) (h : cell ∉ spelledCells) :
    firstBad (cell :: cells) = some cell :=
  List.find?_cons_of_pos (decide_eq_true h)

theorem firstBad_cons_good (cell : Text) (cells : List Text) (h : cell ∈ spelledCells) :
    firstBad (cell :: cells) = firstBad cells :=
  List.find?_cons_of_neg (by simpa using h)

theorem readRow_ok_iff (line : Nat) (cells : List Text) (row : List Mark) :
    readRow line cells = .ok row ↔
      List.Forall₂ (fun cell mark => cell ∈ Mark.spellings mark) cells row := by
  induction cells generalizing row with
  | nil => rw [readRow, Except.ok.injEq, List.forall₂_nil_left_iff, eq_comm]
  | cons cell cells ih =>
    rw [readRow, List.forall₂_cons_left_iff]
    constructor
    · intro h
      split at h
      · simp at h
      · next mark hmark =>
        split at h
        · simp at h
        · next row' hrow =>
          exact ⟨mark, row', (ofCell_eq_some_iff cell mark).mp hmark, (ih row').mp hrow,
            (Except.ok.inj h).symm⟩
    · rintro ⟨mark, row', hmark, hrow, rfl⟩
      rw [(ofCell_eq_some_iff cell mark).mpr hmark]
      simp only [(ih row').mpr hrow]

theorem readRow_error_iff (line : Nat) (cells : List Text) (e : GridError) :
    readRow line cells = .error e ↔
      ∃ cell, firstBad cells = some cell ∧ e = .unknownCell line cell := by
  induction cells with
  | nil => simp [readRow, firstBad]
  | cons cell cells ih =>
    rw [readRow]
    cases hmark : Mark.ofCell? cell with
    | none =>
      rw [firstBad_cons_bad cell cells ((ofCell_eq_none_iff cell).mp hmark)]
      simp [eq_comm]
    | some mark =>
      have hgood : cell ∈ spelledCells :=
        (mem_spelledCells cell).mpr ⟨mark, (ofCell_eq_some_iff cell mark).mp hmark⟩
      rw [firstBad_cons_good cell cells hgood, ← ih]
      cases readRow line cells <;> simp

/-! ## Lines -/

/-- Whether the line holds no row: it is blank, or its first character that is not is a number
sign. -/
def skips (l : Text) : Bool :=
  l.all isBlank || l.find? (fun c => !isBlank c) == some '#'

/-- The lines that hold a row. -/
def rowLines (ls : List Text) : List Text :=
  ls.filter fun l => !skips l

def HoldsRow (l : Text) (row : List Mark) : Prop :=
  row ≠ [] ∧ List.Forall₂ (fun cell mark => cell ∈ Mark.spellings mark) (words l) row

/-- The first bad cell of a line, if the line holds a row. -/
def badCell? (l : Text) : Option Text :=
  if skips l then none else firstBad (words l)

theorem exists_forall₂_iff {α β : Type} (r : α → β → Prop) (xs : List α) :
    (∃ ys, List.Forall₂ r xs ys) ↔ ∀ x ∈ xs, ∃ y, r x y := by
  induction xs with
  | nil => simp
  | cons x xs ih =>
    rw [List.forall_mem_cons, ← ih]
    constructor
    · rintro ⟨ys, h⟩
      obtain ⟨y, ys', hy, hys, -⟩ := List.forall₂_cons_left_iff.mp h
      exact ⟨⟨y, hy⟩, ys', hys⟩
    · rintro ⟨⟨y, hy⟩, ys, hys⟩
      exact ⟨y :: ys, .cons hy hys⟩

theorem isSkipped_words (l : Text) : isSkipped (words l) = skips l := by
  unfold skips
  induction l with
  | nil => rfl
  | cons c l ih =>
    cases hc : isBlank c with
    | true => rw [words_cons_blank c l hc, ih, List.all_cons, List.find?_cons_of_neg (by simp [hc]), hc,
        Bool.true_and]
    | false =>
      obtain ⟨w, ws, hwords⟩ := words_cons_ink c l hc
      rw [hwords, List.all_cons, List.find?_cons_of_pos (by simp [hc]), hc]
      rfl

theorem words_ne_nil (l : Text) (h : skips l = false) : words l ≠ [] := by
  intro hnil
  rw [← isSkipped_words, hnil] at h
  exact absurd h (by decide)

theorem rowLines_cons (l : Text) (ls : List Text) :
    rowLines (l :: ls) = if skips l then rowLines ls else l :: rowLines ls := by
  unfold rowLines
  rw [List.filter_cons]
  cases skips l <;> rfl

theorem readRows_ok_iff (line : Nat) (ls : List Text) (g : Grid) :
    readRows line ls = .ok g ↔ List.Forall₂ HoldsRow (rowLines ls) g := by
  induction ls generalizing line g with
  | nil => rw [readRows, Except.ok.injEq, rowLines, List.filter_nil, List.forall₂_nil_left_iff, eq_comm]
  | cons l ls ih =>
    rw [readRows, isSkipped_words, rowLines_cons]
    cases hskip : skips l with
    | true => exact ih (line + 1) g
    | false =>
      simp only [Bool.false_eq_true, if_false]
      rw [List.forall₂_cons_left_iff]
      constructor
      · intro h
        split at h
        · simp at h
        · next row hrow =>
          split at h
          · simp at h
          · next g' hg =>
            have hspell := (readRow_ok_iff line _ row).mp hrow
            refine ⟨row, g', ⟨?_, hspell⟩, (ih (line + 1) g').mp hg, (Except.ok.inj h).symm⟩
            rintro rfl
            exact words_ne_nil l hskip (List.forall₂_nil_right_iff.mp hspell)
      · rintro ⟨row, g', ⟨-, hrow⟩, hg, rfl⟩
        simp only [(readRow_ok_iff line _ row).mpr hrow, (ih (line + 1) g').mpr hg]

/-- The error blames the first bad cell of the first line that has one. The first of the lines has the
number `line`. -/
def Blames (line : Nat) (ls : List Text) (e : GridError) : Prop :=
  ∃ before l after cell, ls = before ++ l :: after ∧ (∀ l' ∈ before, badCell? l' = none) ∧
    badCell? l = some cell ∧ e = .unknownCell (line + before.length) cell

theorem blames_cons_bad (line : Nat) (l cell : Text) (ls : List Text) (e : GridError)
    (h : badCell? l = some cell) : Blames line (l :: ls) e ↔ e = .unknownCell line cell := by
  constructor
  · rintro ⟨before, l', after, cell', hls, hbefore, hbad, rfl⟩
    cases before with
    | nil =>
      obtain ⟨rfl, rfl⟩ := List.cons.inj hls
      rw [h] at hbad
      rw [Option.some.inj hbad]
      rfl
    | cons l'' before =>
      obtain ⟨rfl, rfl⟩ := List.cons.inj hls
      rw [hbefore l List.mem_cons_self] at h
      exact absurd h (by simp)
  · rintro rfl
    exact ⟨[], l, ls, cell, rfl, by simp, h, rfl⟩

theorem blames_cons_good (line : Nat) (l : Text) (ls : List Text) (e : GridError)
    (h : badCell? l = none) : Blames line (l :: ls) e ↔ Blames (line + 1) ls e := by
  have hnumber : ∀ before : List Text, line + (l :: before).length = line + 1 + before.length := by
    intro before
    rw [List.length_cons]
    omega
  constructor
  · rintro ⟨before, l', after, cell, hls, hbefore, hbad, rfl⟩
    cases before with
    | nil =>
      obtain ⟨rfl, rfl⟩ := List.cons.inj hls
      rw [h] at hbad
      exact absurd hbad (by simp)
    | cons l'' before =>
      obtain ⟨rfl, rfl⟩ := List.cons.inj hls
      refine ⟨before, l', after, cell, rfl, (List.forall_mem_cons.mp hbefore).2, hbad, ?_⟩
      rw [hnumber]
  · rintro ⟨before, l', after, cell, rfl, hbefore, hbad, rfl⟩
    refine ⟨l :: before, l', after, cell, rfl, List.forall_mem_cons.mpr ⟨h, hbefore⟩, hbad, ?_⟩
    rw [hnumber]

theorem readRows_error_iff (line : Nat) (ls : List Text) (e : GridError) :
    readRows line ls = .error e ↔ Blames line ls e := by
  induction ls generalizing line with
  | nil => simp [readRows, Blames]
  | cons l ls ih =>
    rw [readRows, isSkipped_words]
    cases hskip : skips l with
    | true =>
      have hgood : badCell? l = none := by rw [badCell?, hskip]; rfl
      rw [blames_cons_good line l ls e hgood]
      exact ih (line + 1)
    | false =>
      simp only [Bool.false_eq_true, if_false]
      have hcell : badCell? l = firstBad (words l) := by rw [badCell?, hskip]; rfl
      cases hrow : readRow line (words l) with
      | ok row =>
        have hgood : badCell? l = none := by
          rw [hcell, Option.eq_none_iff_forall_ne_some]
          intro cell hbad
          rw [(readRow_error_iff line _ _).mpr ⟨cell, hbad, rfl⟩] at hrow
          exact absurd hrow (by simp)
        rw [blames_cons_good line l ls e hgood, ← ih]
        cases readRows (line + 1) ls <;> simp
      | error e' =>
        obtain ⟨cell, hbad, rfl⟩ := (readRow_error_iff line _ e').mp hrow
        rw [← hcell] at hbad
        rw [blames_cons_bad line l cell ls e hbad, Except.error.injEq, eq_comm]

/-! ## Results -/

theorem ofText_ok_iff (t : Text) (g : Grid) :
    ofText t = .ok g ↔ g ≠ [] ∧ List.Forall₂ HoldsRow (rowLines (lines t)) g := by
  rw [← readRows_ok_iff 1, ofText]
  split
  · next hrows =>
    rw [hrows, Except.ok.injEq]
    exact iff_of_false (by simp) (fun h => h.1 h.2.symm)
  · next hrows =>
    refine (and_iff_right_of_imp ?_).symm
    rintro h rfl
    exact hrows h

theorem ofText_noRows_iff (t : Text) : ofText t = .error .noRows ↔ rowLines (lines t) = [] := by
  rw [← List.forall₂_nil_right_iff (R := HoldsRow), ← readRows_ok_iff 1, ofText]
  split
  · next hrows => exact iff_of_true rfl hrows
  · next hrows =>
    refine iff_of_false (fun h => ?_) hrows
    -- reading the lines reports bad cells only
    obtain ⟨_, _, _, _, _, _, _, he⟩ := (readRows_error_iff 1 _ _).mp h
    exact absurd he (by simp)

theorem ofText_unknownCell_iff (t : Text) (line : Nat) (cell : Text) :
    ofText t = .error (.unknownCell line cell) ↔
      ∃ before l after, lines t = before ++ l :: after ∧ line = before.length + 1 ∧
        (∀ l' ∈ before, badCell? l' = none) ∧ badCell? l = some cell := by
  have hrows : ofText t = .error (.unknownCell line cell) ↔
      readRows 1 (lines t) = .error (.unknownCell line cell) := by
    rw [ofText]
    split
    · next h => rw [h]; simp
    · exact Iff.rfl
  rw [hrows, readRows_error_iff]
  constructor
  · rintro ⟨before, l, after, cell', hls, hbefore, hbad, he⟩
    obtain ⟨rfl, rfl⟩ := GridError.unknownCell.inj he
    exact ⟨before, l, after, hls, Nat.add_comm _ _, hbefore, hbad⟩
  · rintro ⟨before, l, after, hls, rfl, hbefore, hbad⟩
    exact ⟨before, l, after, cell, hls, hbefore, hbad, by rw [Nat.add_comm]⟩

theorem exists_holdsRow_iff (l : Text) (h : skips l = false) :
    (∃ row, HoldsRow l row) ↔ ∀ cell ∈ words l, cell ∈ spelledCells := by
  simp only [mem_spelledCells]
  rw [← exists_forall₂_iff]
  constructor
  · rintro ⟨row, -, hspell⟩
    exact ⟨row, hspell⟩
  · rintro ⟨row, hspell⟩
    refine ⟨row, ?_, hspell⟩
    rintro rfl
    exact words_ne_nil l h (List.forall₂_nil_right_iff.mp hspell)

theorem exists_ofText_iff (t : Text) :
    (∃ g, ofText t = .ok g) ↔ rowLines (lines t) ≠ [] ∧
      ∀ l ∈ rowLines (lines t), ∀ cell ∈ words l, cell ∈ spelledCells := by
  have hrows : (∃ g, List.Forall₂ HoldsRow (rowLines (lines t)) g) ↔
      ∀ l ∈ rowLines (lines t), ∀ cell ∈ words l, cell ∈ spelledCells := by
    rw [exists_forall₂_iff]
    refine forall₂_congr fun l hl => exists_holdsRow_iff l ?_
    simpa using (List.mem_filter.mp hl).2
  simp only [← hrows, ofText_ok_iff]
  constructor
  · rintro ⟨g, hne, hg⟩
    refine ⟨fun hnil => hne ?_, g, hg⟩
    rw [hnil] at hg
    exact List.forall₂_nil_left_iff.mp hg
  · rintro ⟨hne, g, hg⟩
    refine ⟨g, fun hnil => hne ?_, hg⟩
    rw [hnil] at hg
    exact List.forall₂_nil_right_iff.mp hg

/-! ## Written grids -/

/-- Blanks that end no line. -/
def IsSpacing (s : Text) : Prop :=
  ∀ c ∈ s, isBlank c = true ∧ isBreak c = false

/-- The marks of a row, each in one of its spellings, with spacing behind them and between each
two. -/
inductive CellsText : List Mark → Text → Prop
  | last (mark : Mark) (cell after : Text) (hcell : cell ∈ mark.spellings) (hafter : IsSpacing after) :
    CellsText [mark] (cell ++ after)
  | cons (mark : Mark) (cell between t : Text) (row : List Mark) (hcell : cell ∈ mark.spellings)
    (hbetween : IsSpacing between) (hne : between ≠ []) (ht : CellsText row t) :
    CellsText (mark :: row) (cell ++ (between ++ t))

def RowText (row : List Mark) (l : Text) : Prop :=
  ∃ before cells, IsSpacing before ∧ CellsText row cells ∧ l = before ++ cells

theorem words_cellsText (row : List Mark) (t : Text) (h : CellsText row t) :
    List.Forall₂ (fun cell mark => cell ∈ Mark.spellings mark) (words t) row := by
  induction h with
  | last mark cell after hcell hafter =>
    obtain ⟨hne, hink⟩ := ink_of_spelling mark cell hcell
    have hblanks : ∀ c ∈ after, isBlank c = true := fun c hc => (hafter c hc).1
    rw [words_word_append cell after hne hink (fun c hc => hblanks c (List.mem_of_mem_head? hc)),
      words_blanks after hblanks]
    exact .cons hcell .nil
  | cons mark cell between t row hcell hbetween hsep ht ih =>
    obtain ⟨hne, hink⟩ := ink_of_spelling mark cell hcell
    have hblanks : ∀ c ∈ between, isBlank c = true := fun c hc => (hbetween c hc).1
    have hhead : ∀ c ∈ (between ++ t).head?, isBlank c = true := by
      intro c hc
      rw [List.head?_append_of_ne_nil between hsep] at hc
      exact hblanks c (List.mem_of_mem_head? hc)
    rw [words_word_append cell _ hne hink hhead, words_blanks_append between t hblanks]
    exact .cons hcell ih

/-- Cells that are read from a line are written on it. -/
theorem cellsText_of_words (row : List Mark) (cell : Text) (r : Text) (mark : Mark)
    (hcell : cell ∈ mark.spellings) (hr : Unbroken r) (hhead : ∀ c ∈ r.head?, isBlank c = true)
    (h : List.Forall₂ (fun cell mark => cell ∈ Mark.spellings mark) (words r) row) :
    CellsText (mark :: row) (cell ++ r) := by
  induction row generalizing cell r mark with
  | nil =>
    have hblanks := (words_eq_nil_iff r).mp (List.forall₂_nil_right_iff.mp h)
    exact .last mark cell r hcell (fun c hc => ⟨hblanks c hc, hr c hc⟩)
  | cons mark' row ih =>
    obtain ⟨cell', ws, hcell', hws, hwords⟩ := List.forall₂_cons_right_iff.mp h
    obtain ⟨s, r', rfl, hs, hhead', hrest⟩ := words_eq_cons r cell' ws hwords
    obtain ⟨hne, hink⟩ := ink_of_spelling mark' cell' hcell'
    have hs' : IsSpacing s := fun c hc => ⟨hs c hc, hr c (List.mem_append_left _ hc)⟩
    have hr' : Unbroken r' := fun c hc =>
      hr c (List.mem_append_right _ (List.mem_append_right _ hc))
    refine .cons mark cell s (cell' ++ r') _ hcell hs' ?_ (ih cell' r' mark' hcell' hr' hhead' ?_)
    · -- two cells that touch would be one
      rintro rfl
      obtain ⟨c, cs, rfl⟩ := List.exists_cons_of_ne_nil hne
      have hblank := hhead c rfl
      rw [hink c List.mem_cons_self] at hblank
      exact absurd hblank (by decide)
    · rw [hrest]
      exact hws

theorem rowText_iff (row : List Mark) (l : Text) (hl : Unbroken l) :
    RowText row l ↔ HoldsRow l row := by
  constructor
  · rintro ⟨before, t, hbefore, ht, rfl⟩
    refine ⟨?_, ?_⟩
    · cases ht <;> simp
    · rw [words_blanks_append before t (fun c hc => (hbefore c hc).1)]
      exact words_cellsText row t ht
  · rintro ⟨hne, h⟩
    obtain ⟨mark, row', rfl⟩ := List.exists_cons_of_ne_nil hne
    obtain ⟨cell, ws, hcell, hws, hwords⟩ := List.forall₂_cons_right_iff.mp h
    obtain ⟨s, r, rfl, hs, hhead, hrest⟩ := words_eq_cons l cell ws hwords
    refine ⟨s, cell ++ r, fun c hc => ⟨hs c hc, hl c (List.mem_append_left _ hc)⟩, ?_, rfl⟩
    apply cellsText_of_words row' cell r mark hcell _ hhead
    · rw [hrest]
      exact hws
    · exact fun c hc => hl c (List.mem_append_right _ (List.mem_append_right _ hc))

/-- Each row of the grid stands on a line of its own, among lines that are skipped. -/
inductive GridLines : Grid → List Text → Prop
  | nil : GridLines [] []
  | skipped (g : Grid) (l : Text) (ls : List Text) (hl : skips l = true) (h : GridLines g ls) :
    GridLines g (l :: ls)
  | row (row : List Mark) (g : Grid) (l : Text) (ls : List Text) (hl : RowText row l)
    (h : GridLines g ls) : GridLines (row :: g) (l :: ls)

def WrittenGrid (g : Grid) (t : Text) : Prop :=
  ∃ ls, Broken ls t ∧ GridLines g ls

/-- A line that holds a row starts with a cell, and no cell is a number sign. -/
theorem HoldsRow.skips_eq_false {l : Text} {row : List Mark} (h : HoldsRow l row) :
    skips l = false := by
  obtain ⟨hne, hcells⟩ := h
  rw [← isSkipped_words]
  generalize words l = cells at hcells ⊢
  cases hcells with
  | nil => exact absurd rfl hne
  | cons hcell _ =>
    have hall : ∀ cell ∈ spelledCells, (cell.head? == some '#') = false := by decide
    exact hall _ ((mem_spelledCells _).mpr ⟨_, hcell⟩)

theorem gridLines_iff (g : Grid) (ls : List Text) (hls : ∀ l ∈ ls, Unbroken l) :
    GridLines g ls ↔ List.Forall₂ HoldsRow (rowLines ls) g := by
  constructor
  · intro h
    induction h with
    | nil => exact .nil
    | skipped g l ls hl _ ih =>
      rw [rowLines_cons, hl]
      exact ih (List.forall_mem_cons.mp hls).2
    | row row g l ls hl _ ih =>
      have hrow := (rowText_iff row l (List.forall_mem_cons.mp hls).1).mp hl
      rw [rowLines_cons, hrow.skips_eq_false]
      exact .cons hrow (ih (List.forall_mem_cons.mp hls).2)
  · intro h
    induction ls generalizing g with
    | nil =>
      cases h
      exact .nil
    | cons l ls ih =>
      rw [List.forall_mem_cons] at hls
      rw [rowLines_cons] at h
      cases hskip : skips l with
      | true =>
        rw [hskip] at h
        exact .skipped g l ls hskip (ih g hls.2 h)
      | false =>
        rw [hskip] at h
        obtain ⟨row, g', hrow, hrest, rfl⟩ := List.forall₂_cons_left_iff.mp h
        exact .row row g' l ls ((rowText_iff row l hls.1).mpr hrow) (ih g' hls.2 hrest)

theorem writtenGrid_iff (g : Grid) (t : Text) :
    WrittenGrid g t ↔ List.Forall₂ HoldsRow (rowLines (lines t)) g := by
  constructor
  · rintro ⟨ls, hls, hrows⟩
    have hlines : rowLines (lines t) = rowLines ls := filter_lines _ (by decide) ls t hls
    rw [hlines]
    exact (gridLines_iff g ls hls.unbroken).mp hrows
  · intro h
    have hbroken := broken_lines t
    exact ⟨lines t, hbroken, (gridLines_iff g _ hbroken.unbroken).mpr h⟩

/-- A text is read if and only if a line of it is not skipped and these lines hold good cells only;
each of them gives a row then, with a mark for each of its cells. Otherwise the first bad cell of the
first line that holds one is blamed, or it is said that there is no row. So a text gives a grid if and
only if it is written in it, in whatever spellings, with whatever spacing, breaks and skipped lines. -/
theorem grid_format (t : Text) :
    ((∃ g, ofText t = .ok g) ↔ rowLines (lines t) ≠ [] ∧
      ∀ l ∈ rowLines (lines t), ∀ cell ∈ words l, cell ∈ spelledCells) ∧
    (∀ g, ofText t = .ok g → List.Forall₂ HoldsRow (rowLines (lines t)) g) ∧
    (∀ line cell, ofText t = .error (.unknownCell line cell) ↔
      ∃ before l after, lines t = before ++ l :: after ∧ line = before.length + 1 ∧
        (∀ l' ∈ before, badCell? l' = none) ∧ badCell? l = some cell) ∧
    (ofText t = .error .noRows ↔ rowLines (lines t) = []) ∧
    (∀ g, ofText t = .ok g ↔ g ≠ [] ∧ WrittenGrid g t) := by
  refine ⟨exists_ofText_iff t, fun g hg => ((ofText_ok_iff t g).mp hg).2, ofText_unknownCell_iff t,
    ofText_noRows_iff t, fun g => ?_⟩
  rw [ofText_ok_iff, writtenGrid_iff]

example : ofText "# two rows\r\nK .\n\n- ?".toList = .error (.unknownCell 4 ['?']) := by decide

/-! ## Files -/

theorem ofText_unifyBreaks (t : Text) : ofText (unifyBreaks t) = ofText t := by
  unfold ofText
  rw [lines_unifyBreaks]

/-- A text without its carriage returns, line feeds in their place, gives the same grid or the same
error, down to the number of the line. So a file, which is read in this way, gives what its content
gives as a text. -/
theorem file_read_as_text :
    (∀ t, '\r' ∉ unifyBreaks t ∧ ofText (unifyBreaks t) = ofText t) ∧
    ∀ content, ofFile content =
      match decode content with
      | .error e => .error (.undecodable e)
      | .ok t => (ofText t).mapError .malformed := by
  refine ⟨fun t => ⟨not_mem_unifyBreaks t, ofText_unifyBreaks t⟩, fun content => ?_⟩
  unfold ofFile
  cases decode content with
  | error e => rfl
  | ok t =>
    simp only [ofText_unifyBreaks]
    cases ofText t <;> rfl

example : ofFile (encode "# one row\r\rK .\n\r\n? K\r".toList) =
    .error (.malformed (.unknownCell 5 ['?'])) := by decide +kernel

end Grid

end KeyTables
