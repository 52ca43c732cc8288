import KeyTables.Proofs.Drawing.KeyList
import KeyTables.Proofs.Drawing.Picture

/-! The diagram and the key list show the keys in one order, and fail together.

* `diagram_eq_none_iff`, `keyListLines_eq_none_iff`: both fail if and only if there are too few keys.
* `draw_error_iff`: a table is refused if and only if the numbers of keys differ.
* `keyListLines_eq`: the key list has a line for each row with a key, and an entry for each of them.
* `key_order`: hence each key is shown once by the diagram and once by the key list, in the place of
  its rank. -/
namespace KeyTables
set_option autoImplicit false

/-- What the key list shows for the key of this rank. A comma follows if more keys do. -/
def entryAt (width : Int) (keys : List Text) (i : Nat) : Text :=
  padEnd width (shown (keys[i]?.getD [])) ++ if i + 1 < keys.length then [','] else []

namespace Grid

/-- The line that the key list has for a row. -/
def listLine (g : Grid) (keys : List Text) (width : Int) (row : Nat) : Text :=
  trimEnd (entryIndent ++ List.intercalate [' ']
    ((g.keyColumns row).map fun col => entryAt width keys (g.rank row col)))

/-- The rows that hold a key. -/
def keyRows (g : Grid) : List Nat :=
  (List.range g.length).filter fun row => !(g.keyColumns row).isEmpty

end Grid

/-! ## Failure -/

section
variable (g : Grid) (keys : List Text)

theorem diagram_eq_none_iff (width : Int) (lead : Text) :
    diagram g keys width lead = none ↔ keys.length < g.keyCount := by
  rw [← g.fill_eq_none_iff, diagram]
  cases g.fill keys with
  | none => exact iff_of_true rfl rfl
  | some rows => exact iff_of_false (by simp) (by simp)

theorem keyListLines_eq_none_iff (width : Int) :
    keyListLines g keys width = none ↔ keys.length < g.keyCount := by
  rw [← g.fill_eq_none_iff, keyListLines]
  cases g.fill keys with
  | none => exact iff_of_true rfl rfl
  | some rows => exact iff_of_false (by simp) (by simp)

theorem draw_error_iff (lead : Text) (e : CountMismatch) :
    draw g keys lead = .error e ↔
      g.keyCount ≠ keys.length ∧ e = ⟨g.keyCount, keys.length⟩ := by
  by_cases hcount : g.keyCount = keys.length
  · obtain ⟨d, hd⟩ := draw_of_count g keys lead hcount
    rw [hd]
    exact iff_of_false (by simp) (fun h => h.1 hcount)
  · rw [draw, if_neg hcount, Except.error.injEq]
    exact ⟨fun h => ⟨hcount, h.symm⟩, fun h => h.2.symm⟩

end

/-! ## The lines of the key list -/

/-- The key of this rank, and whether more keys follow. -/
def flagAt (keys : List Text) (i : Nat) : Text × Bool :=
  (keys[i]?.getD [], decide (i + 1 < keys.length))

theorem entryOf_flagAt (width : Int) (keys : List Text) (i : Nat) :
    entryOf width (flagAt keys i) = entryAt width keys i := by
  simp only [entryOf, flagAt, entryAt, decide_eq_true_eq]

theorem getElem?_flags (keys : List Text) (i : Nat) (h : i < keys.length) :
    (flags keys)[i]? = some (flagAt keys i) := by
  induction keys generalizing i with
  | nil => exact absurd h (Nat.not_lt_zero i)
  | cons k keys ih =>
    cases i with
    | zero =>
      cases keys with
      | nil => rfl
      | cons k' keys => simp [flags, flagAt]
    | succ i =>
      rw [flags, List.getElem?_cons_succ, ih i (Nat.lt_of_succ_lt_succ h)]
      simp [flagAt]

theorem take_drop_flags (keys : List Text) (s n : Nat) (h : s + n ≤ keys.length) :
    ((flags keys).drop s).take n = (List.range n).map fun j => flagAt keys (s + j) := by
  refine List.ext_getElem? fun j => ?_
  rw [List.getElem?_map, List.getElem?_take]
  split
  · next hj =>
    rw [List.getElem?_drop, getElem?_flags keys (s + j) (by omega), List.getElem?_range hj]
    rfl
  · next hj =>
    rw [List.getElem?_eq_none (by rw [List.length_range]; omega)]
    rfl

namespace Grid

theorem flags_row (g : Grid) (keys : List Text) (rows : List (List Slot))
    (h : g.fill keys = some rows) (row : Nat) (hrow : row < g.length) :
    ∃ slots, rows[row]? = some slots ∧ slots.filterMap Slot.flagged? =
      (g.keyColumns row).map fun col => flagAt keys (g.rank row col) := by
  obtain ⟨slots, rest, hslots, hfill⟩ := g.fill_row keys rows h row hrow
  obtain ⟨-, -, hflags⟩ := fillRow_rest _ _ rest slots hfill
  have henough : g.keyCount ≤ keys.length := by
    refine Nat.le_of_not_lt fun hlt => ?_
    rw [(g.fill_eq_none_iff keys).mpr hlt] at h
    exact absurd h (by simp)
  have hfits : keyCount (g.take row) + rowKeyCount (g.rowAt row) ≤ keys.length := by
    rw [← keyCount_take_succ]
    exact Nat.le_trans (g.keyCount_take_le (row + 1)) henough
  have hranks := congrArg (List.map (flagAt keys)) (g.map_rank_keyColumns row)
  rw [List.map_map, List.map_map] at hranks
  refine ⟨slots, hslots, ?_⟩
  rw [hflags, ← drop_flags, take_drop_flags keys _ _ hfits]
  exact hranks.symm

end Grid

/-- The line of a row, if the row holds a key. -/
theorem lineOf_row (g : Grid) (keys : List Text) (width : Int) (row : Nat) :
    lineOf? width ((g.keyColumns row).map fun col => flagAt keys (g.rank row col)) =
      if !(g.keyColumns row).isEmpty then some (g.listLine keys width row) else none := by
  rw [lineOf?, List.isEmpty_map, List.map_map]
  cases (g.keyColumns row).isEmpty with
  | true => rfl
  | false =>
    simp only [Grid.listLine, ← entryOf_flagAt]
    rfl

theorem keyListLines_eq (g : Grid) (keys : List Text) (width : Int)
    (h : g.keyCount ≤ keys.length) :
    keyListLines g keys width = some (g.keyRows.map (g.listLine keys width)) := by
  obtain ⟨rows, hfill, -⟩ := g.fill_flags keys h
  have hrows : rows.map (keyListLine? width) = (List.range g.length).map fun row =>
      if !(g.keyColumns row).isEmpty then some (g.listLine keys width row) else none := by
    refine List.ext_getElem? fun row => ?_
    rw [List.getElem?_map, List.getElem?_map]
    by_cases hrow : row < g.length
    · obtain ⟨slots, hslots, hflags⟩ := g.flags_row keys rows hfill row hrow
      rw [hslots, List.getElem?_range hrow, Option.map_some, Option.map_some, keyListLine_eq, hflags,
        lineOf_row]
    · rw [List.getElem?_eq_none (by rw [g.length_fill keys rows hfill]; omega),
        List.getElem?_eq_none (by rw [List.length_range]; omega)]
      rfl
  rw [keyListLines, hfill, Grid.keyRows, ← List.filterMap_eq_map, List.filterMap_filter]
  have hlines := congrArg (List.filterMap id) hrows
  rw [List.filterMap_map, List.filterMap_map] at hlines
  exact congrArg some hlines

/-! ## One order -/

/-- The diagram and the key list can be made if and only if there are enough keys, and a table is
drawn if and only if it has as many keys as the grid. Then every key has one place, that of its rank.
There the diagram shows it, and the key list shows it in the line of its row. -/
theorem key_order (g : Grid) (keys : List Text) (lead : Text) :
    (∀ width : Int, (diagram g keys width lead = none ↔ keys.length < g.keyCount) ∧
      (keyListLines g keys width = none ↔ keys.length < g.keyCount)) ∧
    (∀ e, draw g keys lead = .error e ↔
      g.keyCount ≠ keys.length ∧ e = ⟨g.keyCount, keys.length⟩) ∧
    (g.keyCount = keys.length → ∃ d, draw g keys lead = .ok d ∧
      (∀ i k, keys[i]? = some k →
        (∃! place : Nat × Nat, g.occupied place.1 place.2 = true ∧ g.rank place.1 place.2 = i) ∧
        ∀ row col : Nat, g.occupied row col = true → g.rank row col = i →
          window (picture lead d.diagram (2 * row + 1)) (col * (keyWidth keys + 3) + 1)
            (keyWidth keys + 2) = ' ' :: padEnd (keyWidth keys) k ++ [' ']) ∧
      d.keyList = g.keyRows.map (g.listLine keys (keyWidth keys))) := by
  refine ⟨fun width => ⟨diagram_eq_none_iff g keys width lead, keyListLines_eq_none_iff g keys width⟩,
    draw_error_iff g keys lead, fun hcount => ?_⟩
  obtain ⟨d, hd⟩ := draw_of_count g keys lead hcount
  obtain ⟨-, hdiagram, hlist⟩ := draw_ok g keys lead d hd
  refine ⟨d, hd, fun i k hk => ⟨?_, ?_⟩, ?_⟩
  · have hlt := (List.getElem?_eq_some_iff.mp hk).1
    exact g.existsUnique_rank i (by omega)
  · intro row col hocc hrank
    have hrow := g.row_lt_of_occupied row col hocc
    have hlen := length_drawn g keys lead d hd (by omega)
    have hlabel := g.labelAt_key keys row col (Nat.le_of_eq hcount) hocc
    rw [hrank, hk] at hlabel
    rw [(key_picture g keys lead d hd row (by omega) col).2, ← Option.some.inj hlabel]
  · rw [keyListLines_eq g keys _ (Nat.le_of_eq hcount)] at hlist
    exact (Option.some.inj hlist).symm

/-- A row without a key between two rows, and a key that is not assigned. -/
theorem key_order_gapped : ∃ d,
    draw [[.key], [.blank, .blank], [.blank, .key]] [[], ['A']] ['/', '/'] = .ok d ∧
      window (picture ['/', '/'] d.diagram 5) 5 3 = [' ', 'A', ' '] ∧
      d.keyList = ["        _______,".toList, "        A".toList] := by
  obtain ⟨-, -, hdraw⟩ :=
    key_order [[.key], [.blank, .blank], [.blank, .key]] [[], ['A']] ['/', '/']
  obtain ⟨d, hd, hkeys, hlist⟩ := hdraw (by decide)
  exact ⟨d, hd, (hkeys 1 ['A'] rfl).2 2 1 (by decide) (by decide), hlist.trans (by decide)⟩

end KeyTables
