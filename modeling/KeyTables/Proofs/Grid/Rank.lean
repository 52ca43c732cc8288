import Mathlib.Data.List.Nodup
import KeyTables.Proofs.Grid.Fill

/-! The order of the places that hold a key: row by row, and from left to right in a row.

* `rank`: the number of keys in the places before a place.
* `existsUnique_rank`: every number below the number of keys is the rank of one place only.
* `fill_eq_none_iff`: the keys run out if and only if there are fewer than the grid has places for.
* `fill_row`: a row is filled with the keys from the rank of its first place on. -/
namespace KeyTables
set_option autoImplicit false

namespace Grid

/-- The row with this number, or none of its marks. -/
def rowAt (g : Grid) (row : Nat) : List Mark :=
  g[row]?.getD []

/-- The number of keys in the places before this one, counted row by row. -/
def rank (g : Grid) (row col : Nat) : Nat :=
  keyCount (g.take row) + rowKeyCount ((g.rowAt row).take col)

/-- The places of a row that hold a key. -/
def keyColumns (g : Grid) (row : Nat) : List Nat :=
  (List.range (g.rowAt row).length).filter fun col => g.occupied row col

/-- The places that hold a key, as pairs of row and column. -/
def places (g : Grid) : List (Nat × Nat) :=
  (List.range g.length).flatMap fun row => (g.keyColumns row).map (row, ·)

/-! ## Occupied places -/

theorem occupied_eq (g : Grid) (row col : Nat) :
    g.occupied row col = ((g.rowAt row)[col]? == some .key) := by
  rw [occupied, if_neg (by omega)]
  rfl

theorem occupied_iff (g : Grid) (row col : Nat) :
    g.occupied row col = true ↔ (g.rowAt row)[col]? = some .key := by
  rw [occupied_eq, beq_iff_eq]

theorem occupied_of_neg (g : Grid) (row col : Int) (h : row < 0 ∨ col < 0) :
    g.occupied row col = false := by
  rw [occupied, if_pos h]

theorem rowAt_of_le (g : Grid) (row : Nat) (h : g.length ≤ row) : g.rowAt row = [] := by
  rw [rowAt, List.getElem?_eq_none h, Option.getD_none]

theorem occupied_behind (g : Grid) (row col : Nat) (h : (g.rowAt row).length ≤ col) :
    g.occupied row col = false := by
  rw [occupied_eq, List.getElem?_eq_none h]
  rfl

theorem col_lt_of_occupied (g : Grid) (row col : Nat) (h : g.occupied row col = true) :
    col < (g.rowAt row).length :=
  (List.getElem?_eq_some_iff.mp ((g.occupied_iff row col).mp h)).1

theorem row_lt_of_occupied (g : Grid) (row col : Nat) (h : g.occupied row col = true) :
    row < g.length := by
  have hcol := g.col_lt_of_occupied row col h
  refine Nat.lt_of_not_le fun hle => ?_
  rw [g.rowAt_of_le row hle] at hcol
  exact absurd hcol (Nat.not_lt_zero col)

theorem mem_keyColumns (g : Grid) (row col : Nat) :
    col ∈ g.keyColumns row ↔ g.occupied row col = true := by
  rw [keyColumns, List.mem_filter, List.mem_range, and_iff_right_iff_imp]
  exact g.col_lt_of_occupied row col

theorem mem_places (g : Grid) (row col : Nat) :
    (row, col) ∈ g.places ↔ g.occupied row col = true := by
  simp only [places, List.mem_flatMap, List.mem_range, List.mem_map, mem_keyColumns]
  constructor
  · rintro ⟨row', -, col', h, heq⟩
    obtain ⟨rfl, rfl⟩ := Prod.mk.inj heq
    exact h
  · intro h
    exact ⟨row, g.row_lt_of_occupied row col h, col, h, rfl⟩

/-! ## Ranks -/

theorem keyCount_append (g h : Grid) : keyCount (g ++ h) = keyCount g + keyCount h := by
  induction g with
  | nil => exact (Nat.zero_add _).symm
  | cons row g ih => rw [List.cons_append, keyCount, keyCount, ih, Nat.add_assoc]

theorem keyCount_take_succ (g : Grid) (row : Nat) :
    keyCount (g.take (row + 1)) = keyCount (g.take row) + rowKeyCount (g.rowAt row) := by
  rw [List.take_add_one, keyCount_append, rowAt]
  cases g[row]? with
  | none => rfl
  | some marks => rfl

theorem keyCount_take_le (g : Grid) (row : Nat) : keyCount (g.take row) ≤ g.keyCount := by
  have h := keyCount_append (g.take row) (g.drop row)
  rw [List.take_append_drop] at h
  omega

/-- From left to right, the keys in the first `n` places of a row have 0, 1, 2, … keys before them. -/
theorem map_rank_row (marks : List Mark) (n : Nat) :
    ((List.range n).filter fun col => marks[col]? == some .key).map
        (fun col => rowKeyCount (marks.take col)) =
      List.range (rowKeyCount (marks.take n)) := by
  induction n with
  | zero => rfl
  | succ n ih =>
    rw [List.range_succ, List.filter_append, List.map_append, ih, List.take_add_one]
    cases hmark : marks[n]? with
    | none => simp [hmark]
    | some mark =>
      cases mark with
      | blank => simp [hmark, rowKeyCount]
      | key => simp [hmark, rowKeyCount, List.range_succ]

theorem map_rank_keyColumns (g : Grid) (row : Nat) :
    (g.keyColumns row).map (g.rank row) =
      (List.range (rowKeyCount (g.rowAt row))).map (keyCount (g.take row) + ·) := by
  have h := map_rank_row (g.rowAt row) (g.rowAt row).length
  rw [List.take_length] at h
  rw [← h, List.map_map, keyColumns]
  simp only [occupied_eq]
  rfl

theorem map_rank_rows (g : Grid) (n : Nat) :
    ((List.range n).flatMap fun row => (g.keyColumns row).map (g.rank row)) =
      List.range (keyCount (g.take n)) := by
  induction n with
  | zero => rfl
  | succ n ih =>
    rw [List.range_succ, List.flatMap_append, ih, List.flatMap_singleton, map_rank_keyColumns,
      keyCount_take_succ, List.range_add]

/-- In the order of the rows and columns, the keys have the ranks 0, 1, 2, … -/
theorem map_rank_places (g : Grid) :
    g.places.map (fun place => g.rank place.1 place.2) = List.range g.keyCount := by
  have h := g.map_rank_rows g.length
  rw [List.take_length] at h
  rw [← h, places, List.map_flatMap]
  simp only [List.map_map]
  rfl

theorem rank_lt (g : Grid) (row col : Nat) (h : g.occupied row col = true) :
    g.rank row col < g.keyCount := by
  rw [← List.mem_range, ← map_rank_places]
  exact List.mem_map_of_mem ((g.mem_places row col).mpr h)

theorem existsUnique_rank (g : Grid) (i : Nat) (h : i < g.keyCount) :
    ∃! place : Nat × Nat,
      g.occupied place.1 place.2 = true ∧ g.rank place.1 place.2 = i := by
  have hnodup : (g.places.map fun place => g.rank place.1 place.2).Nodup := by
    rw [map_rank_places]
    exact List.nodup_range
  have hmem : i ∈ g.places.map fun place => g.rank place.1 place.2 := by
    rw [map_rank_places]
    exact List.mem_range.mpr h
  obtain ⟨⟨row, col⟩, hplace, hrank⟩ := List.mem_map.mp hmem
  refine ⟨(row, col), ⟨(g.mem_places row col).mp hplace, hrank⟩, ?_⟩
  rintro ⟨row', col'⟩ ⟨hocc, hrank'⟩
  exact List.inj_on_of_nodup_map hnodup ((g.mem_places row' col').mpr hocc) hplace
    (hrank'.trans hrank.symm)

/-! ## Keys put into the places -/

theorem fillRow_eq_none_iff (marks : List Mark) (keys : List Text) :
    fillRow marks keys = none ↔ keys.length < rowKeyCount marks := by
  constructor
  · intro h
    refine Decidable.byContradiction fun hle => ?_
    obtain ⟨slots, hfill, -⟩ := fillRow_flags marks keys (by omega)
    rw [hfill] at h
    exact absurd h (by simp)
  · intro h
    induction marks generalizing keys with
    | nil => exact absurd h (Nat.not_lt_zero _)
    | cons mark marks ih =>
      cases mark with
      | blank =>
        rw [fillRow, ih keys (by simpa [rowKeyCount] using h)]
      | key =>
        cases keys with
        | nil => rfl
        | cons k keys =>
          rw [fillRow, ih keys (by simpa [rowKeyCount] using h)]

theorem fillRow_rest (marks : List Mark) (keys rest : List Text) (slots : List Slot)
    (h : fillRow marks keys = some (slots, rest)) :
    rowKeyCount marks ≤ keys.length ∧ rest = keys.drop (rowKeyCount marks) ∧
      slots.filterMap Slot.flagged? = (flags keys).take (rowKeyCount marks) := by
  have hle : rowKeyCount marks ≤ keys.length := by
    refine Nat.le_of_not_lt fun hlt => ?_
    rw [(fillRow_eq_none_iff marks keys).mpr hlt] at h
    exact absurd h (by simp)
  obtain ⟨slots', hfill, hflags⟩ := fillRow_flags marks keys hle
  rw [hfill, Option.some.injEq, Prod.mk.injEq] at h
  obtain ⟨rfl, rfl⟩ := h
  exact ⟨hle, rfl, hflags⟩

theorem fill_eq_none_iff (g : Grid) (keys : List Text) :
    g.fill keys = none ↔ keys.length < g.keyCount := by
  induction g generalizing keys with
  | nil => simp [fill, keyCount]
  | cons marks g ih =>
    rw [fill, keyCount]
    split
    · next hrow =>
      have := (fillRow_eq_none_iff marks keys).mp hrow
      exact iff_of_true rfl (by omega)
    · next slots rest hrow =>
      obtain ⟨hle, rfl, -⟩ := fillRow_rest marks keys rest slots hrow
      have hrest := ih (keys.drop (rowKeyCount marks))
      rw [List.length_drop] at hrest
      split
      · next hg =>
        have := hrest.mp hg
        exact iff_of_true rfl (by omega)
      · next rows hg =>
        refine iff_of_false (by simp) ?_
        intro hlt
        rw [hrest.mpr (by omega)] at hg
        exact absurd hg (by simp)

theorem length_fill (g : Grid) (keys : List Text) (rows : List (List Slot))
    (h : g.fill keys = some rows) : rows.length = g.length := by
  induction g generalizing keys rows with
  | nil =>
    rw [← Option.some.inj h]
    rfl
  | cons marks g ih =>
    rw [fill] at h
    split at h
    · simp at h
    · split at h
      · simp at h
      · next hg =>
        rw [← Option.some.inj h, List.length_cons, List.length_cons, ih _ _ hg]

theorem fill_row (g : Grid) (keys : List Text) (rows : List (List Slot))
    (h : g.fill keys = some rows) (row : Nat) (hrow : row < g.length) :
    ∃ slots rest, rows[row]? = some slots ∧
      fillRow (g.rowAt row) (keys.drop (keyCount (g.take row))) = some (slots, rest) := by
  induction g generalizing keys rows row with
  | nil => exact absurd hrow (Nat.not_lt_zero row)
  | cons marks g ih =>
    rw [fill] at h
    split at h
    · simp at h
    · next slots rest hmarks =>
      split at h
      · simp at h
      · next rows' hg =>
        rw [← Option.some.inj h]
        cases row with
        | zero => exact ⟨slots, rest, rfl, hmarks⟩
        | succ row =>
          obtain ⟨-, rfl, -⟩ := fillRow_rest marks keys rest slots hmarks
          obtain ⟨slots', rest', hslots, hfill⟩ :=
            ih _ rows' hg row (Nat.lt_of_succ_lt_succ hrow)
          rw [List.drop_drop] at hfill
          exact ⟨slots', rest', hslots, hfill⟩

end Grid

end KeyTables
