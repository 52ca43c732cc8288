import KeyTables.Drawing.Table
import KeyTables.Proofs.Drawing.Columns
import KeyTables.Proofs.Grid.Rank

/-! The lines of a diagram as rows of cells, one for each column.

* `cellAt`: what a line shows in a column, also beyond the ends of the rows.
* `borderLine_cells`, `keyLine_cells`: what a line leaves out at its end are spaces.
* `length_diagram`, `diagram_line`: the number of lines, and each line as the trimmed row of its
  cells. -/
namespace KeyTables
set_option autoImplicit false

namespace Grid

/-- The key in a place, and nothing for a place without one. -/
def labelAt (g : Grid) (keys : List Text) (row col : Nat) : Text :=
  if g.occupied row col then keys[g.rank row col]?.getD [] else []

def borderCell (g : Grid) (width : Int) (row col : Nat) : Text :=
  (g.vertex row col).char :: List.replicate (width + 2).toNat (g.edge row col).char

def keyCell (g : Grid) (keys : List Text) (width : Int) (row col : Nat) : Text :=
  (g.separator row col).char :: ' ' :: padEnd width (g.labelAt keys row col) ++ [' ']

/-- Even lines are border lines, odd lines are key lines. -/
def cellAt (g : Grid) (keys : List Text) (width : Int) (line col : Nat) : Text :=
  if line % 2 = 0 then g.borderCell width (line / 2) col else g.keyCell keys width (line / 2) col

theorem cellAt_even (g : Grid) (keys : List Text) (width : Int) (row : Nat) :
    g.cellAt keys width (2 * row) = g.borderCell width row := by
  funext col
  rw [cellAt, if_pos (by omega), Nat.mul_div_cancel_left row (by omega)]

theorem cellAt_odd (g : Grid) (keys : List Text) (width : Int) (row : Nat) :
    g.cellAt keys width (2 * row + 1) = g.keyCell keys width row := by
  funext col
  rw [cellAt, if_neg (by omega), show (2 * row + 1) / 2 = row by omega]

/-! ## Beyond the ends of the rows -/

theorem occupied_outside (g : Grid) (row col : Int)
    (h : ∀ r c : Nat, row = r → col = c → (g.rowAt r).length ≤ c) : g.occupied row col = false := by
  by_cases hneg : row < 0 ∨ col < 0
  · exact g.occupied_of_neg row col hneg
  · obtain ⟨r, rfl⟩ := Int.eq_ofNat_of_zero_le (by omega : 0 ≤ row)
    obtain ⟨c, rfl⟩ := Int.eq_ofNat_of_zero_le (by omega : 0 ≤ col)
    exact g.occupied_behind r c (h r c rfl rfl)

theorem spaces_of_gap (g : Grid) (keys : List Text) (width : Int) (row col : Nat)
    (h : g.occupied row col = false) :
    ∀ c ∈ ' ' :: padEnd width (g.labelAt keys row col) ++ [' '], c = ' ' := by
  rw [labelAt, if_neg (by rw [h]; exact Bool.false_ne_true)]
  intro c hc
  simp only [padEnd, List.nil_append, List.cons_append, List.mem_cons, List.mem_append,
    List.mem_replicate, List.not_mem_nil, or_false] at hc
  rcases hc with hc | hc | hc
  · exact hc
  · exact hc.2
  · exact hc

theorem rowLength_le_borderLength (g : Grid) (row : Nat) :
    (g.rowAt row).length ≤ g.borderLength row ∧
      (g.rowAt row).length ≤ g.borderLength (row + 1) := by
  have hlen : g.rowLength row = (g.rowAt row).length := rfl
  rw [borderLength, borderLength, if_neg (Nat.succ_ne_zero row), Nat.add_sub_cancel, hlen]
  exact ⟨Nat.le_max_right _ _, Nat.le_max_left _ _⟩

theorem borderCell_outside (g : Grid) (width : Int) (row col : Nat)
    (h : g.borderLength row < col) : ∀ c ∈ g.borderCell width row col, c = ' ' := by
  have hempty : ∀ r c : Int, (r = row ∨ r = row - 1) → (c = col ∨ c = col - 1) →
      g.occupied r c = false := by
    intro r c hr hc
    refine g.occupied_outside r c ?_
    intro r' c' hr' hc'
    have hle := g.rowLength_le_borderLength r'
    rcases hr with hr | hr
    · obtain rfl : r' = row := by omega
      omega
    · obtain rfl : row = r' + 1 := by omega
      omega
  have hvertex : g.vertex row col = .blank := by
    rw [vertex, quadrants, hempty _ _ (Or.inr rfl) (Or.inr rfl), hempty _ _ (Or.inr rfl) (Or.inl rfl),
      hempty _ _ (Or.inl rfl) (Or.inr rfl), hempty _ _ (Or.inl rfl) (Or.inl rfl)]
    rfl
  have hedge : g.edge row col = .blank := by
    rw [edge, hempty _ _ (Or.inr rfl) (Or.inl rfl), hempty _ _ (Or.inl rfl) (Or.inl rfl)]
    rfl
  intro c hc
  rw [borderCell, hvertex, hedge] at hc
  rcases List.mem_cons.mp hc with rfl | hc
  · rfl
  · exact List.eq_of_mem_replicate hc

theorem keyCell_outside (g : Grid) (keys : List Text) (width : Int) (row col : Nat)
    (h : (g.rowAt row).length < col) : ∀ c ∈ g.keyCell keys width row col, c = ' ' := by
  have hseparator : g.separator row col = .blank := by
    rw [separator, g.occupied_behind row col (by omega), g.occupied_outside row _ ?_]
    · rfl
    · intro r c hr hc
      obtain rfl : row = r := by omega
      omega
  intro c hc
  rw [keyCell, hseparator] at hc
  rcases List.mem_cons.mp hc with rfl | hc
  · rfl
  · exact g.spaces_of_gap keys width row col (g.occupied_behind row col (by omega)) c hc

/-! ## Lines as rows of cells -/

theorem borderLine_cells (g : Grid) (width : Int) (row n : Nat) (hn : g.borderLength row < n) :
    ∃ pad, (∀ c ∈ pad, c = ' ') ∧
      columns (g.borderCell width row) n = g.borderLine row width ++ pad :=
  columns_append_spaces _ _ n hn (g.borderCell_outside width row)

theorem keyLine_cells (g : Grid) (keys : List Text) (width : Int) (row n : Nat) (slots : List Slot)
    (hlen : slots.length = (g.rowAt row).length)
    (hlabel : ∀ col slot, slots[col]? = some slot → slot.label = g.labelAt keys row col)
    (hn : (g.rowAt row).length < n) :
    ∃ pad, (∀ c ∈ pad, c = ' ') ∧
      columns (g.keyCell keys width row) n = g.keyLine row slots width ++ pad := by
  obtain ⟨pad, hpad, hcells⟩ :=
    columns_append_spaces (g.keyCell keys width row) _ n hn (g.keyCell_outside keys width row)
  have hline : g.keyLine row slots width =
      columns (g.keyCell keys width row) slots.length ++ [(g.separator row slots.length).char] := by
    change columns _ (slots.length + 1) = _
    rw [columns_succ]
    congr 1
    · refine columns_congr _ _ _ fun col hcol => ?_
      rw [List.getElem?_eq_getElem hcol]
      simp only [keyCell, ← hlabel col _ (List.getElem?_eq_getElem hcol)]
      rfl
    · rw [List.getElem?_eq_none (Nat.le_refl _)]
  refine ⟨' ' :: padEnd width (g.labelAt keys row slots.length) ++ [' '] ++ pad, ?_, ?_⟩
  · intro c hc
    rcases List.mem_append.mp hc with hc | hc
    · exact g.spaces_of_gap keys width row _ (g.occupied_behind row _ (by omega)) c hc
    · exact hpad c hc
  · rw [hcells, Nat.succ_eq_add_one, columns_succ, hline, ← hlen, keyCell]
    simp

theorem fillRow_label (marks : List Mark) (keys rest : List Text) (slots : List Slot)
    (h : fillRow marks keys = some (slots, rest)) :
    slots.length = marks.length ∧ ∀ col slot, slots[col]? = some slot →
      slot.label = if marks[col]? = some .key
        then keys[rowKeyCount (marks.take col)]?.getD [] else [] := by
  induction marks generalizing keys slots with
  | nil =>
    obtain ⟨rfl, -⟩ := Prod.mk.inj (Option.some.inj h)
    simp
  | cons mark marks ih =>
    cases mark with
    | blank =>
      rw [fillRow] at h
      split at h
      · simp at h
      · next hrow =>
        obtain ⟨rfl, rfl⟩ := Prod.mk.inj (Option.some.inj h)
        obtain ⟨hlen, hlabel⟩ := ih keys _ hrow
        refine ⟨by rw [List.length_cons, List.length_cons, hlen], ?_⟩
        intro col slot hslot
        cases col with
        | zero =>
          rw [← Option.some.inj hslot]
          rfl
        | succ col => simpa [rowKeyCount] using hlabel col slot hslot
    | key =>
      cases keys with
      | nil => simp [fillRow] at h
      | cons k keys =>
        rw [fillRow] at h
        split at h
        · simp at h
        · next hrow =>
          obtain ⟨rfl, rfl⟩ := Prod.mk.inj (Option.some.inj h)
          obtain ⟨hlen, hlabel⟩ := ih keys _ hrow
          refine ⟨by rw [List.length_cons, List.length_cons, hlen], ?_⟩
          intro col slot hslot
          cases col with
          | zero =>
            rw [← Option.some.inj hslot]
            rfl
          | succ col => simpa [rowKeyCount] using hlabel col slot hslot

theorem fill_label (g : Grid) (keys : List Text) (rows : List (List Slot))
    (h : g.fill keys = some rows) (row : Nat) (hrow : row < g.length) :
    ∃ slots, rows[row]? = some slots ∧ slots.length = (g.rowAt row).length ∧
      ∀ col slot, slots[col]? = some slot → slot.label = g.labelAt keys row col := by
  obtain ⟨slots, rest, hslots, hfill⟩ := g.fill_row keys rows h row hrow
  obtain ⟨hlen, hlabel⟩ := fillRow_label _ _ rest slots hfill
  refine ⟨slots, hslots, hlen, ?_⟩
  intro col slot hslot
  simp only [hlabel col slot hslot, labelAt, occupied_iff, List.getElem?_drop, rank]

theorem linesFrom_at (g : Grid) (width : Int) (row i : Nat) (rows : List (List Slot)) :
    (g.linesFrom width row rows)[2 * i]? =
        rows[i]?.map (fun slots => g.keyLine (row + i) slots width) ∧
      (g.linesFrom width row rows)[2 * i + 1]? =
        rows[i]?.map (fun _ => g.borderLine (row + i + 1) width) := by
  induction rows generalizing row i with
  | nil => simp [linesFrom]
  | cons slots rows ih =>
    cases i with
    | zero => exact ⟨rfl, rfl⟩
    | succ i =>
      obtain ⟨hkey, hborder⟩ := ih (row + 1) i
      rw [Nat.add_right_comm row 1 i, Nat.add_assoc row i 1] at hkey hborder
      exact ⟨hkey, hborder⟩

theorem length_linesFrom (g : Grid) (width : Int) (row : Nat) (rows : List (List Slot)) :
    (g.linesFrom width row rows).length = 2 * rows.length := by
  induction rows generalizing row with
  | nil => rfl
  | cons slots rows ih =>
    rw [linesFrom, List.length_cons, List.length_cons, ih, List.length_cons, Nat.mul_succ]

theorem length_diagramLines (g : Grid) (rows : List (List Slot)) (width : Int) :
    (g.diagramLines rows width).length = if rows.length = 0 then 0 else 2 * rows.length + 1 := by
  cases rows with
  | nil => rfl
  | cons slots rows =>
    rw [diagramLines, List.length_cons, length_linesFrom, List.length_cons,
      if_neg (Nat.succ_ne_zero _)]

theorem diagramLines_border (g : Grid) (rows : List (List Slot)) (width : Int) (row : Nat)
    (h : 2 * row < (g.diagramLines rows width).length) :
    (g.diagramLines rows width)[2 * row]? = some (g.borderLine row width) := by
  cases rows with
  | nil => exact absurd h (Nat.not_lt_zero _)
  | cons slots rows =>
    rw [diagramLines, List.length_cons, length_linesFrom] at h
    cases row with
    | zero => rfl
    | succ row =>
      have hrow : row < (slots :: rows).length := by omega
      have hborder := (g.linesFrom_at width 0 row (slots :: rows)).2
      rw [Nat.zero_add, List.getElem?_eq_getElem hrow] at hborder
      exact hborder

theorem diagramLines_key (g : Grid) (rows : List (List Slot)) (width : Int) (row : Nat)
    (slots : List Slot) (h : rows[row]? = some slots) :
    (g.diagramLines rows width)[2 * row + 1]? = some (g.keyLine row slots width) := by
  cases rows with
  | nil => simp at h
  | cons slots' rows =>
    have hkey := (g.linesFrom_at width 0 row (slots' :: rows)).1
    rw [Nat.zero_add, h] at hkey
    exact hkey

theorem diagramLines_cells (g : Grid) (keys : List Text) (rows : List (List Slot)) (width : Int)
    (hfill : g.fill keys = some rows) (n : Nat) (hn : ∀ row, (g.rowAt row).length < n) (line : Nat)
    (hline : line < (g.diagramLines rows width).length) :
    ∃ t pad, (g.diagramLines rows width)[line]? = some t ∧ (∀ c ∈ pad, c = ' ') ∧
      columns (g.cellAt keys width line) n = t ++ pad := by
  rcases Nat.mod_two_eq_zero_or_one line with heven | hodd
  · obtain ⟨row, rfl⟩ : ∃ row, line = 2 * row := ⟨line / 2, by omega⟩
    have hborder : g.borderLength row < n := by
      rw [borderLength]
      split
      · exact Nat.max_lt.mpr ⟨Nat.zero_lt_of_lt (hn row), hn row⟩
      · exact Nat.max_lt.mpr ⟨hn (row - 1), hn row⟩
    obtain ⟨pad, hpad, hcells⟩ := g.borderLine_cells width row n hborder
    rw [cellAt_even]
    exact ⟨_, pad, g.diagramLines_border rows width row hline, hpad, hcells⟩
  · obtain ⟨row, rfl⟩ : ∃ row, line = 2 * row + 1 := ⟨line / 2, by omega⟩
    have hrow : row < g.length := by
      rw [length_diagramLines, g.length_fill keys rows hfill] at hline
      split at hline
      · exact absurd hline (Nat.not_lt_zero _)
      · omega
    obtain ⟨slots, hslots, hlen, hlabel⟩ := g.fill_label keys rows hfill row hrow
    obtain ⟨pad, hpad, hcells⟩ := g.keyLine_cells keys width row n slots hlen hlabel (hn row)
    rw [cellAt_odd]
    exact ⟨_, pad, g.diagramLines_key rows width row slots hslots, hpad, hcells⟩

end Grid

theorem length_diagram (g : Grid) (keys ls : List Text) (width : Int) (lead : Text)
    (h : diagram g keys width lead = some ls) :
    ls.length = if g.length = 0 then 0 else 2 * g.length + 1 := by
  rw [diagram] at h
  split at h
  · simp at h
  · next rows hfill =>
    rw [← Option.some.inj h, List.length_map, Grid.length_diagramLines,
      g.length_fill keys rows hfill]

/-- Every line of a diagram is the trimmed row of its cells. -/
theorem diagram_line (g : Grid) (keys ls : List Text) (width : Int) (lead : Text)
    (h : diagram g keys width lead = some ls) (n : Nat) (hn : ∀ row, (g.rowAt row).length < n)
    (line : Nat) (hline : line < ls.length) :
    ls[line]? = some (trimEnd (lead ++ columns (g.cellAt keys width line) n)) := by
  rw [diagram] at h
  split at h
  · simp at h
  · next rows hfill =>
    rw [← Option.some.inj h, List.length_map] at hline
    obtain ⟨t, pad, ht, hpad, hcells⟩ :=
      g.diagramLines_cells keys rows width hfill n hn line hline
    rw [← Option.some.inj h, List.getElem?_map, ht, hcells, ← List.append_assoc,
      trimEnd_append_blank]
    · rfl
    · intro c hc
      rw [hpad c hc]
      decide

end KeyTables
