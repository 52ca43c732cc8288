import KeyTables.Grid.Basic

/-! Putting keys into the places of a grid.

* `flags`: keys with the flag that tells whether more of them follow.
* `fill_flags`: if there are enough keys, the places hold the first ones in order, row by row. -/
namespace KeyTables
set_option autoImplicit false

def flags : List Text → List (Text × Bool)
  | [] => []
  | k :: keys => (k, !keys.isEmpty) :: flags keys

/-- The key in a place. -/
def Slot.flagged? : Slot → Option (Text × Bool)
  | .gap => none
  | .key k more => some (k, more)

theorem length_flags (keys : List Text) : (flags keys).length = keys.length := by
  induction keys with
  | nil => rfl
  | cons k keys ih => rw [flags, List.length_cons, ih, List.length_cons]

theorem take_flags (keys : List Text) : (flags keys).take keys.length = flags keys :=
  List.take_of_length_le (Nat.le_of_eq (length_flags keys))

theorem drop_flags (n : Nat) (keys : List Text) : (flags keys).drop n = flags (keys.drop n) := by
  induction keys generalizing n with
  | nil => simp [flags]
  | cons k keys ih =>
    cases n with
    | zero => rfl
    | succ n => rw [flags, List.drop_succ_cons, ih, List.drop_succ_cons]

theorem mem_of_flags (keys : List Text) (e : Text × Bool) (h : e ∈ flags keys) : e.1 ∈ keys := by
  induction keys with
  | nil => simp [flags] at h
  | cons k keys ih =>
    rw [flags] at h
    rcases List.mem_cons.mp h with rfl | h
    · exact List.mem_cons_self
    · exact List.mem_cons_of_mem k (ih h)

/-- Keys in front of others are all followed by more. -/
theorem flags_append (s t : List Text) (h : t ≠ []) :
    flags (s ++ t) = s.map (·, true) ++ flags t := by
  induction s with
  | nil => rfl
  | cons k s ih =>
    have hne : (s ++ t).isEmpty = false := by
      rw [List.isEmpty_eq_false_iff]
      exact List.append_ne_nil_of_right_ne_nil s h
    rw [List.cons_append, flags, ih, hne]
    rfl

namespace Grid

theorem fillRow_flags (row : List Mark) (keys : List Text) (h : rowKeyCount row ≤ keys.length) :
    ∃ slots, fillRow row keys = some (slots, keys.drop (rowKeyCount row)) ∧
      slots.filterMap Slot.flagged? = (flags keys).take (rowKeyCount row) := by
  induction row generalizing keys with
  | nil => exact ⟨[], rfl, rfl⟩
  | cons mark row ih =>
    cases mark with
    | blank =>
      have hcount : rowKeyCount (.blank :: row) = rowKeyCount row := by
        simp [rowKeyCount]
      rw [hcount] at h ⊢
      obtain ⟨slots, hfill, hflags⟩ := ih keys h
      refine ⟨.gap :: slots, ?_, ?_⟩
      · rw [fillRow, hfill]
      · rw [List.filterMap_cons, Slot.flagged?, hflags]
    | key =>
      have hcount : rowKeyCount (.key :: row) = rowKeyCount row + 1 := by
        simp [rowKeyCount]
      rw [hcount] at h ⊢
      cases keys with
      | nil => simp at h
      | cons k keys =>
        obtain ⟨slots, hfill, hflags⟩ := ih keys (by simpa using h)
        refine ⟨.key k (!keys.isEmpty) :: slots, ?_, ?_⟩
        · rw [fillRow, hfill, List.drop_succ_cons]
        · rw [List.filterMap_cons, Slot.flagged?, hflags, flags, List.take_succ_cons]

theorem fill_flags (g : Grid) (keys : List Text) (h : g.keyCount ≤ keys.length) :
    ∃ rows, g.fill keys = some rows ∧
      rows.flatMap (·.filterMap Slot.flagged?) = (flags keys).take g.keyCount := by
  induction g generalizing keys with
  | nil => exact ⟨[], rfl, rfl⟩
  | cons row g ih =>
    rw [keyCount] at h ⊢
    obtain ⟨slots, hrow, hslots⟩ := fillRow_flags row keys (by omega)
    obtain ⟨rows, hfill, hrows⟩ := ih (keys.drop (rowKeyCount row)) (by
      rw [List.length_drop]
      omega)
    refine ⟨slots :: rows, ?_, ?_⟩
    · simp only [fill, hrow, hfill]
    · rw [List.flatMap_cons, hslots, hrows, ← drop_flags, List.take_add]

end Grid

end KeyTables
