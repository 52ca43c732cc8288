import KeyTables.Text.Blank
import KeyTables.Text.Lines

/-! Lines put together to a text.

* `ended`: lines with a break after each.
* `trimEnd_last`, `trimEnd_isPrefix`: what trimming leaves.
* `EvenBreaks`: all line feeds of a text follow a carriage return, or none does.
* `evenBreaks_append`: two texts put together, unless a break is put together with them.
* `PlainLine`: a line that makes no break with what follows. -/
namespace KeyTables
set_option autoImplicit false

def ended (newline : Text) (ls : List Text) : Text :=
  ls.flatMap (· ++ newline)

theorem intercalate_cons_cons {α : Type} (sep s t : List α) (ls : List (List α)) :
    List.intercalate sep (s :: t :: ls) = s ++ (sep ++ List.intercalate sep (t :: ls)) := by
  simp [List.intercalate, List.intersperse]

theorem intercalate_ended (newline t : Text) (ls : List Text) :
    List.intercalate newline (ls ++ [t]) = ended newline ls ++ t := by
  induction ls with
  | nil => simp [List.intercalate, ended]
  | cons s ls ih =>
    have hcons : ∃ u us, ls ++ [t] = u :: us := by
      cases ls with
      | nil => exact ⟨t, [], rfl⟩
      | cons u us => exact ⟨u, us ++ [t], rfl⟩
    obtain ⟨u, us, hu⟩ := hcons
    rw [List.cons_append, hu, intercalate_cons_cons, ← hu, ih]
    simp [ended]

/-! ## Trimming -/

theorem trimEnd_append_blank (s b : Text) (h : ∀ c ∈ b, isBlank c = true) :
    trimEnd (s ++ b) = trimEnd s := by
  rw [trimEnd, trimEnd, List.reverse_append, List.dropWhile_append_of_pos]
  intro c hc
  exact h c (List.mem_reverse.mp hc)

theorem trimEnd_of_last (s : Text) (c : Char) (h : isBlank c = false) :
    trimEnd (s ++ [c]) = s ++ [c] := by
  rw [trimEnd, List.reverse_append, List.reverse_singleton, List.singleton_append,
    List.dropWhile_cons, h]
  simp

theorem trimEnd_isPrefix (t : Text) : trimEnd t <+: t := by
  have h := List.reverse_prefix.mpr (List.dropWhile_suffix isBlank : t.reverse.dropWhile isBlank <:+ _)
  rwa [List.reverse_reverse] at h

theorem trimEnd_last (t : Text) (c : Char) (h : (trimEnd t).getLast? = some c) :
    isBlank c = false := by
  have hd := List.head?_dropWhile_not isBlank t.reverse
  rw [trimEnd, List.getLast?_reverse] at h
  rw [h] at hd
  simpa using hd

/-- What stands up to a character that is not blank stays. -/
theorem trimEnd_append_cons (s t : Text) (c : Char) (h : isBlank c = false) :
    ∃ r, trimEnd (s ++ c :: t) = s ++ c :: r := by
  refine ⟨trimEnd t, ?_⟩
  rw [trimEnd, trimEnd, List.reverse_append, List.reverse_cons, List.append_assoc,
    List.dropWhile_append]
  split
  · next hempty =>
    rw [List.isEmpty_iff.mp hempty, List.singleton_append, List.dropWhile_cons, h]
    simp
  · simp

/-! ## Paired breaks -/

theorem hasPairedBreak_cons (c : Char) (t : Text) (h : ¬ (c = '\r' ∧ t.head? = some '\n')) :
    hasPairedBreak (c :: t) = hasPairedBreak t := by
  rw [hasPairedBreak]
  intro tail hc ht
  exact h ⟨hc, by rw [ht]; rfl⟩

theorem hasPairedBreak_iff (t : Text) : hasPairedBreak t = true ↔ ['\r', '\n'] <:+: t := by
  induction t with
  | nil => simp [hasPairedBreak]
  | cons c t ih =>
    by_cases hp : c = '\r' ∧ t.head? = some '\n'
    · obtain ⟨rfl, ht⟩ := hp
      obtain ⟨u, rfl⟩ : ∃ u, t = '\n' :: u := by
        cases t with
        | nil => simp at ht
        | cons d u => exact ⟨u, by rw [Option.some.inj ht]⟩
      exact ⟨fun _ => ⟨[], u, rfl⟩, fun _ => rfl⟩
    · rw [hasPairedBreak_cons c t hp, ih, List.infix_cons_iff]
      constructor
      · exact Or.inr
      · rintro (⟨u, hu⟩ | h)
        · obtain ⟨rfl, rfl⟩ := List.cons.inj hu
          exact absurd ⟨rfl, rfl⟩ hp
        · exact h

/-- The paired break, or the line feed alone. -/
def breakFor (paired : Bool) : Text :=
  if paired then ['\r', '\n'] else ['\n']

theorem breakFor_last (paired : Bool) : (breakFor paired).getLast? = some '\n' := by
  cases paired <;> rfl

theorem breakOf_cases (t : Text) :
    breakOf t = ['\r', '\n'] ∧ hasPairedBreak t = true ∨
      breakOf t = ['\n'] ∧ hasPairedBreak t = false := by
  rw [breakOf]
  cases hasPairedBreak t with
  | true => exact Or.inl ⟨rfl, rfl⟩
  | false => exact Or.inr ⟨rfl, rfl⟩

/-! ## Even breaks -/

/-- Every line feed follows a carriage return if breaks are `paired`, and none does otherwise. -/
def EvenBreaks (paired : Bool) (t : Text) : Prop :=
  ∀ u v, t = u ++ '\n' :: v → (u.getLast? = some '\r' ↔ paired = true)

theorem evenBreaks_true_iff (t : Text) :
    EvenBreaks true t ↔ ∀ u v, t = u ++ '\n' :: v → u.getLast? = some '\r' := by
  simp only [EvenBreaks, iff_true]

theorem evenBreaks_false_iff (t : Text) : EvenBreaks false t ↔ ¬ ['\r', '\n'] <:+: t := by
  constructor
  · rintro h ⟨u, v, huv⟩
    have hpaired := h (u ++ ['\r']) v (by rw [← huv]; simp)
    simp at hpaired
  · intro h u v huv
    refine iff_of_false ?_ Bool.false_ne_true
    intro hlast
    obtain ⟨w, rfl⟩ := List.getLast?_eq_some_iff.mp hlast
    exact h ⟨w, v, by rw [huv]; simp⟩

theorem evenBreaks_of_not_mem (paired : Bool) (t : Text) (h : '\n' ∉ t) : EvenBreaks paired t := by
  intro u v huv
  exact absurd (huv ▸ List.mem_append_right u List.mem_cons_self) h

theorem evenBreaks_breakFor (paired : Bool) : EvenBreaks paired (breakFor paired) := by
  cases paired with
  | false =>
    rw [evenBreaks_false_iff]
    decide
  | true =>
    rw [evenBreaks_true_iff]
    intro u v huv
    rcases u with _ | ⟨c, _ | ⟨c', u⟩⟩
    · simp [breakFor] at huv
    · rw [← (List.cons.inj huv).1]
      rfl
    · simp [breakFor] at huv

/-- No break is put together at the seam, so `t` alone tells what its line feeds follow. -/
theorem getLast?_seam (s t u v : Text) (h : s.getLast? ≠ some '\r' ∨ t.head? ≠ some '\n')
    (ht : t = u ++ '\n' :: v) : (s ++ u).getLast? = some '\r' ↔ u.getLast? = some '\r' := by
  rw [List.getLast?_append]
  cases hu : u.getLast? with
  | some c => rfl
  | none =>
    obtain rfl := List.getLast?_eq_none_iff.mp hu
    have hs := h.resolve_right (fun hhead => hhead (by rw [ht]; rfl))
    simpa using hs

theorem evenBreaks_append (paired : Bool) (s t : Text)
    (h : s.getLast? ≠ some '\r' ∨ t.head? ≠ some '\n') :
    EvenBreaks paired (s ++ t) ↔ EvenBreaks paired s ∧ EvenBreaks paired t := by
  constructor
  · intro hall
    refine ⟨?_, ?_⟩
    · intro u v hs
      exact hall u (v ++ t) (by simp [hs])
    · intro u v ht
      rw [← getLast?_seam s t u v h ht]
      exact hall (s ++ u) v (by simp [ht])
  · rintro ⟨hs, ht⟩ u v huv
    obtain ⟨w, rfl, hw⟩ | ⟨w, hw, hrest⟩ := List.append_eq_append_iff.mp huv
    · rw [getLast?_seam s t w v h hw]
      exact ht w v hw
    · cases w with
      | nil =>
        rw [List.append_nil] at hw
        rw [List.nil_append] at hrest
        have hseam := getLast?_seam s t [] v h hrest.symm
        rw [List.append_nil, hw] at hseam
        exact hseam.trans (ht [] v hrest.symm)
      | cons c w =>
        obtain ⟨rfl, -⟩ := List.cons.inj hrest
        exact hs u w hw

/-! ## Lines -/

/-- A line without a line feed that a line feed after it makes no paired break with. -/
def PlainLine (t : Text) : Prop :=
  '\n' ∉ t ∧ t.getLast? ≠ some '\r'

theorem plainLine_trimEnd (t : Text) (h : '\n' ∉ t) : PlainLine (trimEnd t) := by
  refine ⟨fun hmem => h ((trimEnd_isPrefix t).subset hmem), ?_⟩
  intro hlast
  exact absurd (trimEnd_last t '\r' hlast) (by decide)

theorem evenBreaks_ended (paired : Bool) (ls : List Text) (h : ∀ l ∈ ls, PlainLine l) :
    EvenBreaks paired (ended (breakFor paired) ls) := by
  induction ls with
  | nil => exact evenBreaks_of_not_mem paired [] (by simp)
  | cons l ls ih =>
    obtain ⟨hmem, hlast⟩ := h l List.mem_cons_self
    have hrest := ih (fun x hx => h x (List.mem_cons_of_mem l hx))
    have hend : (l ++ breakFor paired).getLast? ≠ some '\r' := by
      rw [List.getLast?_append, breakFor_last]
      simp
    rw [ended, List.flatMap_cons, evenBreaks_append paired _ _ (Or.inl hend),
      evenBreaks_append paired l _ (Or.inl hlast)]
    exact ⟨⟨evenBreaks_of_not_mem paired l hmem, evenBreaks_breakFor paired⟩, hrest⟩

end KeyTables
