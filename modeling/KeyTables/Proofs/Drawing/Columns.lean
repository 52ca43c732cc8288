import KeyTables.Proofs.Text.Lines

/-! Reading a line by position. A position past the end of a line reads as a space.

* `columns`: a line made of pieces, one for each column.
* `charAt_columns`: if the pieces have one width, a position in a column reads its piece.
* `charAt_trimEnd`: trimming a line takes spaces only, if what stands last in it is not blank. -/
namespace KeyTables
set_option autoImplicit false

def charAt (t : Text) (i : Nat) : Char :=
  t[i]?.getD ' '

/-- The `n` characters from a position on. -/
def window (t : Text) (i n : Nat) : Text :=
  (List.range n).map fun k => charAt t (i + k)

def columns (f : Nat → Text) (n : Nat) : Text :=
  (List.range n).flatMap f

/-! ## Positions -/

theorem charAt_of_le (t : Text) (i : Nat) (h : t.length ≤ i) : charAt t i = ' ' := by
  rw [charAt, List.getElem?_eq_none h, Option.getD_none]

theorem charAt_append_left (s t : Text) (i : Nat) (h : i < s.length) :
    charAt (s ++ t) i = charAt s i := by
  rw [charAt, List.getElem?_append_left h, charAt]

theorem charAt_append_right (s t : Text) (i : Nat) :
    charAt (s ++ t) (s.length + i) = charAt t i := by
  rw [charAt, List.getElem?_append_right (Nat.le_add_right _ _), Nat.add_sub_cancel_left, charAt]

theorem charAt_cons_succ (c : Char) (t : Text) (i : Nat) : charAt (c :: t) (i + 1) = charAt t i := by
  rw [charAt, List.getElem?_cons_succ, charAt]

theorem charAt_replicate (n i : Nat) (c : Char) :
    charAt (List.replicate n c) i = if i < n then c else ' ' := by
  rw [charAt, List.getElem?_replicate]
  split <;> rfl

theorem charAt_drop (t : Text) (n i : Nat) : charAt (t.drop n) i = charAt t (n + i) := by
  rw [charAt, List.getElem?_drop, charAt]

theorem charAt_of_forall (t : Text) (i : Nat) (h : ∀ c ∈ t, c = ' ') : charAt t i = ' ' := by
  rw [charAt]
  cases hc : t[i]? with
  | none => rfl
  | some c => exact h c (List.mem_of_getElem? hc)

theorem window_eq (t w : Text) (i : Nat) (h : ∀ k < w.length, charAt t (i + k) = charAt w k) :
    window t i w.length = w := by
  refine List.ext_getElem ?_ ?_
  · rw [window, List.length_map, List.length_range]
  · intro k hk hw
    simp only [window, List.getElem_map, List.getElem_range]
    rw [h k hw, charAt, List.getElem?_eq_getElem hw, Option.getD_some]

/-! ## Columns -/

theorem columns_succ (f : Nat → Text) (n : Nat) : columns f (n + 1) = columns f n ++ f n := by
  rw [columns, List.range_succ, List.flatMap_append, List.flatMap_singleton, columns]

theorem columns_congr (f g : Nat → Text) (n : Nat) (h : ∀ col < n, f col = g col) :
    columns f n = columns g n := by
  rw [columns, columns, List.flatMap_def, List.flatMap_def]
  exact congrArg List.flatten (List.map_congr_left fun col hcol => h col (List.mem_range.mp hcol))

/-- Columns of spaces at the end of a line. -/
theorem columns_append_spaces (f : Nat → Text) (m n : Nat) (h : m ≤ n)
    (hf : ∀ col, m ≤ col → ∀ c ∈ f col, c = ' ') :
    ∃ pad, (∀ c ∈ pad, c = ' ') ∧ columns f n = columns f m ++ pad := by
  induction n with
  | zero =>
    obtain rfl := Nat.le_zero.mp h
    exact ⟨[], by simp, (List.append_nil _).symm⟩
  | succ n ih =>
    by_cases hm : m = n + 1
    · subst hm
      exact ⟨[], by simp, (List.append_nil _).symm⟩
    · obtain ⟨pad, hpad, heq⟩ := ih (by omega)
      refine ⟨pad ++ f n, ?_, by rw [columns_succ, heq, List.append_assoc]⟩
      intro c hc
      rcases List.mem_append.mp hc with hc | hc
      · exact hpad c hc
      · exact hf n (by omega) c hc

theorem exists_column (width i : Nat) (h : 0 < width) :
    ∃ col k, k < width ∧ i = col * width + k :=
  ⟨i / width, i % width, Nat.mod_lt i h, (Nat.div_add_mod' i width).symm⟩

section
variable (f : Nat → Text) (width : Nat) (hf : ∀ col, (f col).length = width)
include hf

theorem length_columns (n : Nat) : (columns f n).length = n * width := by
  induction n with
  | zero => rw [Nat.zero_mul]; rfl
  | succ n ih => rw [columns_succ, List.length_append, ih, hf, Nat.succ_mul]

theorem charAt_columns (n col k : Nat) (hcol : col < n) (hk : k < width) :
    charAt (columns f n) (col * width + k) = charAt (f col) k := by
  induction n with
  | zero => exact absurd hcol (Nat.not_lt_zero col)
  | succ n ih =>
    have hlen := length_columns f width hf n
    rw [columns_succ]
    by_cases hlast : col = n
    · rw [hlast, ← hlen, charAt_append_right]
    · have hle : (col + 1) * width ≤ n * width := Nat.mul_le_mul_right width (by omega)
      rw [Nat.succ_mul] at hle
      rw [charAt_append_left _ _ _ (by omega), ih (by omega)]

end

/-! ## Trimmed lines -/

/-- Whatever stands in the line, some character that is not blank stands there or behind it. -/
def Anchored (t : Text) : Prop :=
  ∀ i, charAt t i ≠ ' ' → ∃ j, i ≤ j ∧ isBlank (charAt t j) = false

theorem trimEnd_rest (t : Text) : ∃ b, t = trimEnd t ++ b ∧ ∀ c ∈ b, isBlank c = true := by
  refine ⟨(t.reverse.takeWhile isBlank).reverse, ?_, ?_⟩
  · rw [trimEnd, ← List.reverse_append, List.takeWhile_append_dropWhile, List.reverse_reverse]
  · intro c hc
    exact List.all_eq_true.mp List.all_takeWhile c (List.mem_reverse.mp hc)

theorem isBlank_charAt (t : Text) (i : Nat) (h : ∀ c ∈ t, isBlank c = true) :
    isBlank (charAt t i) = true := by
  rw [charAt]
  cases hc : t[i]? with
  | none => decide
  | some c => exact h c (List.mem_of_getElem? hc)

theorem charAt_trimEnd (lead t : Text) (h : Anchored t) (i : Nat) :
    charAt (trimEnd (lead ++ t)) (lead.length + i) = charAt t i := by
  obtain ⟨b, hb, hblank⟩ := trimEnd_rest (lead ++ t)
  by_cases hi : lead.length + i < (trimEnd (lead ++ t)).length
  · rw [← charAt_append_left _ b _ hi, ← hb, charAt_append_right]
  · rw [charAt_of_le _ _ (by omega)]
    refine Decidable.byContradiction fun hne => ?_
    obtain ⟨j, hj, hink⟩ := h i (Ne.symm hne)
    -- the character that is not blank would be among those that are taken
    have hcut : lead.length + j =
        (trimEnd (lead ++ t)).length + (lead.length + j - (trimEnd (lead ++ t)).length) := by
      omega
    have hjb : isBlank (charAt t j) = true := by
      rw [← charAt_append_right lead, hb, hcut, charAt_append_right]
      exact isBlank_charAt b _ hblank
    rw [hink] at hjb
    exact absurd hjb (by decide)

end KeyTables
