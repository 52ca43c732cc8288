import KeyTables.Token.Basic

/-! Nesting of brackets of one sort, for any two kinds that open and close.

* `isNested`: every opening token is closed, and none is closed that was not opened.
* `matching`: the token that closes what was opened before some tokens.
* `matching_eq_some_iff`: up to that token the brackets are nested. -/
namespace KeyTables
set_option autoImplicit false

/-- With `depth` of them open, all are closed in the end, and none is closed that is not open. -/
def isNested (opening closing : Token.Kind) : (depth : Nat) → List Token.Kind → Bool
  | depth, [] => depth == 0
  | depth, k :: ks =>
    if k = opening then isNested opening closing (depth + 1) ks
    else if k = closing then depth != 0 && isNested opening closing (depth - 1) ks
    else isNested opening closing depth ks

/-- The token that closes the one opened before all others, with `depth` more of them open. -/
def matching (opening closing : Token.Kind) : (depth : Nat) → List Token → Option Token
  | _, [] => none
  | depth, t :: ts =>
    if t.kind = opening then matching opening closing (depth + 1) ts
    else if t.kind = closing then
      if depth = 0 then some t else matching opening closing (depth - 1) ts
    else matching opening closing depth ts

section
variable (opening closing : Token.Kind)

theorem matching_of_nested (hne : opening ≠ closing) (depth : Nat) (inside after : List Token)
    (m : Token) (hm : m.kind = closing)
    (h : isNested opening closing depth (inside.map Token.kind) = true) :
    matching opening closing depth (inside ++ m :: after) = some m := by
  induction inside generalizing depth with
  | nil =>
    have hzero : depth = 0 := by simpa [isNested] using h
    rw [List.nil_append, matching, if_neg (by rw [hm]; exact hne.symm), if_pos hm, if_pos hzero]
  | cons t inside ih =>
    rw [List.map_cons, isNested] at h
    rw [List.cons_append, matching]
    split
    · next ho =>
      rw [if_pos ho] at h
      exact ih _ h
    · next ho =>
      rw [if_neg ho] at h
      split
      · next hc =>
        rw [if_pos hc, Bool.and_eq_true, bne_iff_ne] at h
        rw [if_neg h.1]
        exact ih _ h.2
      · next hc =>
        rw [if_neg hc] at h
        exact ih _ h

theorem nested_of_matching (depth : Nat) (ts : List Token) (m : Token)
    (h : matching opening closing depth ts = some m) :
    ∃ inside after, ts = inside ++ m :: after ∧ m.kind = closing ∧
      isNested opening closing depth (inside.map Token.kind) = true := by
  induction ts generalizing depth with
  | nil => simp [matching] at h
  | cons t ts ih =>
    rw [matching] at h
    split at h
    · next ho =>
      obtain ⟨inside, after, rfl, hm, hnested⟩ := ih _ h
      refine ⟨t :: inside, after, rfl, hm, ?_⟩
      rw [List.map_cons, isNested, if_pos ho]
      exact hnested
    · next ho =>
      split at h
      · next hc =>
        split at h
        · next hzero =>
          obtain rfl := Option.some.inj h
          exact ⟨[], ts, rfl, hc, by simp [isNested, hzero]⟩
        · next hpos =>
          obtain ⟨inside, after, rfl, hm, hnested⟩ := ih _ h
          refine ⟨t :: inside, after, rfl, hm, ?_⟩
          rw [List.map_cons, isNested, if_neg ho, if_pos hc, hnested, Bool.and_true, bne_iff_ne]
          exact hpos
      · next hc =>
        obtain ⟨inside, after, rfl, hm, hnested⟩ := ih _ h
        refine ⟨t :: inside, after, rfl, hm, ?_⟩
        rw [List.map_cons, isNested, if_neg ho, if_neg hc]
        exact hnested

theorem matching_eq_some_iff (hne : opening ≠ closing) (depth : Nat) (ts : List Token) (m : Token) :
    matching opening closing depth ts = some m ↔
      ∃ inside after, ts = inside ++ m :: after ∧ m.kind = closing ∧
        isNested opening closing depth (inside.map Token.kind) = true := by
  constructor
  · exact nested_of_matching opening closing depth ts m
  · rintro ⟨inside, after, rfl, hm, hnested⟩
    exact matching_of_nested opening closing hne depth inside after m hm hnested

/-- Where nothing is closed, nothing may be opened. -/
theorem isNested_unclosed (depth : Nat) (kinds : List Token.Kind) (h : closing ∉ kinds) :
    isNested opening closing depth kinds = true ↔ depth = 0 ∧ opening ∉ kinds := by
  induction kinds generalizing depth with
  | nil => simp [isNested]
  | cons k kinds ih =>
    obtain ⟨hk, hkinds⟩ := List.ne_and_not_mem_of_not_mem_cons h
    rw [isNested, List.mem_cons, not_or]
    split
    · next ho =>
      rw [ih _ hkinds]
      simp [ho]
    · next ho =>
      rw [if_neg (Ne.symm hk), ih _ hkinds]
      simp [Ne.symm ho]

end

end KeyTables
