import Mathlib.Data.List.Forall2
import KeyTables.Proofs.Drawing.KeyOrder

/-! Blanks at the end of a row do not show.

* `Padded`: a grid with blanks added at the ends of its rows.
* `Padded.occupied_eq`, `Padded.rank_eq`: the same places hold the same keys.
* `Padded.cellAt_eq`: the same is shown in every column of every line.
* `draw_padded`: hence the same table is drawn, or refused with the same counts. -/
namespace KeyTables
set_option autoImplicit false

/-- The second grid has the rows of the first one, with any number of blanks at the end of each. -/
def Padded (g g' : Grid) : Prop :=
  List.Forall₂ (fun row row' => ∃ n, row' = row ++ List.replicate n .blank) g g'

theorem rowKeyCount_blanks (marks : List Mark) (n : Nat) :
    Grid.rowKeyCount (marks ++ List.replicate n .blank) = Grid.rowKeyCount marks := by
  rw [Grid.rowKeyCount, List.count_append, List.count_replicate, Grid.rowKeyCount]
  rfl

namespace Padded
variable {g g' : Grid} (h : Padded g g')
include h

theorem rowAt_eq (row : Nat) : ∃ n, g'.rowAt row = g.rowAt row ++ List.replicate n .blank := by
  induction h generalizing row with
  | nil => exact ⟨0, rfl⟩
  | cons hrow _ ih =>
    cases row with
    | zero => exact hrow
    | succ row => exact ih row

theorem keyCount_eq : g'.keyCount = g.keyCount := by
  induction h with
  | nil => rfl
  | cons hrow _ ih =>
    obtain ⟨n, rfl⟩ := hrow
    rw [Grid.keyCount, Grid.keyCount, ih, rowKeyCount_blanks]

theorem occupied_eq (row col : Int) : g'.occupied row col = g.occupied row col := by
  by_cases hneg : row < 0 ∨ col < 0
  · rw [g'.occupied_of_neg row col hneg, g.occupied_of_neg row col hneg]
  · obtain ⟨r, rfl⟩ := Int.eq_ofNat_of_zero_le (by omega : 0 ≤ row)
    obtain ⟨c, rfl⟩ := Int.eq_ofNat_of_zero_le (by omega : 0 ≤ col)
    obtain ⟨n, hn⟩ := h.rowAt_eq r
    rw [g'.occupied_eq, g.occupied_eq, hn]
    by_cases hc : c < (g.rowAt r).length
    · rw [List.getElem?_append_left hc]
    · -- only blanks stand behind the row
      rw [List.getElem?_append_right (by omega), List.getElem?_replicate,
        List.getElem?_eq_none (by omega : (g.rowAt r).length ≤ c)]
      split <;> rfl

theorem rank_eq (row col : Nat) : g'.rank row col = g.rank row col := by
  obtain ⟨n, hn⟩ := h.rowAt_eq row
  have htake : Padded (g.take row) (g'.take row) := List.forall₂_take row h
  rw [Grid.rank, Grid.rank, htake.keyCount_eq, hn, List.take_append, List.take_replicate,
    rowKeyCount_blanks]

theorem keyColumns_eq (row : Nat) : g'.keyColumns row = g.keyColumns row := by
  obtain ⟨n, hn⟩ := h.rowAt_eq row
  have hbehind : ((List.range n).map ((g.rowAt row).length + ·)).filter
      (fun col : Nat => g.occupied row col) = [] := by
    rw [List.filter_eq_nil_iff]
    intro col hcol
    obtain ⟨k, -, rfl⟩ := List.mem_map.mp hcol
    rw [g.occupied_behind row _ (Nat.le_add_right _ _)]
    exact Bool.false_ne_true
  simp only [Grid.keyColumns, h.occupied_eq]
  rw [hn, List.length_append, List.length_replicate, List.range_add, List.filter_append, hbehind,
    List.append_nil]

theorem cellAt_eq (keys : List Text) (width : Int) (line : Nat) :
    g'.cellAt keys width line = g.cellAt keys width line := by
  funext col
  simp only [Grid.cellAt, Grid.borderCell, Grid.keyCell, Grid.labelAt, Grid.vertex, Grid.quadrants,
    Grid.edge, Grid.separator, h.occupied_eq, h.rank_eq]

theorem exists_beyond :
    ∃ n, (∀ row, (g'.rowAt row).length < n) ∧ ∀ row, (g.rowAt row).length < n := by
  obtain ⟨n, -, hn⟩ := g'.exists_beyond 0
  refine ⟨n, hn, fun row => ?_⟩
  obtain ⟨m, hm⟩ := h.rowAt_eq row
  have hlt := hn row
  rw [hm, List.length_append] at hlt
  omega

theorem lines_eq (keys ls ls' : List Text) (width : Int) (lead : Text)
    (hls' : diagram g' keys width lead = some ls') (hls : diagram g keys width lead = some ls) :
    ls' = ls := by
  have hlen : ls'.length = ls.length := by
    rw [length_diagram g' keys ls' width lead hls', length_diagram g keys ls width lead hls,
      List.Forall₂.length_eq h]
  obtain ⟨n, hn', hn⟩ := h.exists_beyond
  refine List.ext_getElem? fun line => ?_
  by_cases hline : line < ls.length
  · rw [diagram_line g' keys ls' width lead hls' n hn' line (by omega),
      diagram_line g keys ls width lead hls n hn line hline, h.cellAt_eq]
  · rw [List.getElem?_eq_none (by omega), List.getElem?_eq_none (by omega)]

theorem diagram_eq (keys : List Text) (width : Int) (lead : Text) :
    diagram g' keys width lead = diagram g keys width lead := by
  have hnone := diagram_eq_none_iff g' keys width lead
  rw [h.keyCount_eq, ← diagram_eq_none_iff g keys width lead] at hnone
  cases hls : diagram g keys width lead with
  | none => exact hnone.mpr hls
  | some ls =>
    cases hls' : diagram g' keys width lead with
    | none => exact absurd (hls.symm.trans (hnone.mp hls')) (by simp)
    | some ls' => rw [h.lines_eq keys ls ls' width lead hls' hls]

theorem keyList_eq (keys : List Text) (width : Int) :
    keyListLines g' keys width = keyListLines g keys width := by
  by_cases hcount : g.keyCount ≤ keys.length
  · have hcount' : g'.keyCount ≤ keys.length := by
      rw [h.keyCount_eq]
      exact hcount
    have hline : g'.listLine keys width = g.listLine keys width := by
      funext row
      simp only [Grid.listLine, h.keyColumns_eq, h.rank_eq]
    rw [keyListLines_eq g keys width hcount, keyListLines_eq g' keys width hcount', hline,
      Grid.keyRows, Grid.keyRows, List.Forall₂.length_eq h]
    simp only [h.keyColumns_eq]
  · rw [(keyListLines_eq_none_iff g keys width).mpr (by omega),
      (keyListLines_eq_none_iff g' keys width).mpr (by rw [h.keyCount_eq]; omega)]

end Padded

/-- Blanks at the ends of the rows change nothing: neither the diagram nor the key list, nor whether
the table is refused and with which counts. -/
theorem draw_padded (g g' : Grid) (keys : List Text) (lead : Text) (h : Padded g g') :
    draw g' keys lead = draw g keys lead := by
  rw [draw, draw, h.keyCount_eq, h.diagram_eq, h.keyList_eq]

/-- The upper row is made longer than the lower one, and the empty row gets a place. -/
theorem draw_padded_empty :
    Padded [[.key], [.blank, .key], []] [[.key, .blank, .blank, .blank], [.blank, .key], [.blank]] ∧
      draw [[.key, .blank, .blank, .blank], [.blank, .key], [.blank]] [['A'], []] ['/', '/'] =
        draw [[.key], [.blank, .key], []] [['A'], []] ['/', '/'] := by
  have hpadded : Padded [[.key], [.blank, .key], []]
      [[.key, .blank, .blank, .blank], [.blank, .key], [.blank]] :=
    .cons ⟨3, rfl⟩ (.cons ⟨0, rfl⟩ (.cons ⟨1, rfl⟩ .nil))
  exact ⟨hpadded, draw_padded _ _ [['A'], []] ['/', '/'] hpadded⟩

end KeyTables
