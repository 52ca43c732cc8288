import KeyTables.Proofs.Token.Spelling

/-! Where the tokens of a source stand.

* `stop_le_of_before`: a token ends before the tokens that follow it start.
* `stop_ordered`, `tokens_increasing`: tokens lie one behind the other, so their offsets grow.
* `tokensBehind`: the tokens behind an offset.
* `stop_le_of_mem`: every token lies inside the source.
* `getElem?_of_mark`: at the offset of a bracket or separator stands its byte. -/
namespace KeyTables
set_option autoImplicit false

theorem offset_lt_stop (o : Nat) (bs : Bytes) (t : Token) (h : t ∈ tokensFrom o 0 bs) :
    t.offset < t.stop := by
  have hspelled := spelled_of_mem o bs t h
  have hne : t.lexeme ≠ [] := by
    generalize t.lexeme = lexeme at hspelled
    generalize t.kind = kind at hspelled
    cases hspelled with
    | mark b kind hp => simp
    | comment body => simp
    | word w hw hword => exact hw
    | stray b hb => simp
  have hlen := List.length_pos_iff.mpr hne
  unfold Token.stop
  omega

theorem offset_le_of_mem (o : Nat) (bs : Bytes) (t : Token) (h : t ∈ tokensFrom o 0 bs) :
    o ≤ t.offset := by
  obtain ⟨before, after, hts⟩ := List.append_of_mem h
  obtain ⟨a, rest, -, hlen, -⟩ := tokensFrom_cut o bs before after t hts
  omega

theorem stop_le_of_mem (o : Nat) (bs : Bytes) (t : Token) (h : t ∈ tokensFrom o 0 bs) :
    t.stop ≤ o + bs.length := by
  obtain ⟨before, after, hts⟩ := List.append_of_mem h
  obtain ⟨a, rest, rfl, hlen, -⟩ := tokensFrom_cut o bs before after t hts
  rw [List.length_append, List.length_append]
  unfold Token.stop
  omega

/-- Tokens lie one behind the other. -/
theorem stop_ordered (o : Nat) (bs : Bytes) :
    (tokensFrom o 0 bs).Pairwise fun t u => t.stop ≤ u.offset := by
  induction o, bs using lexInduction with
  | nil o =>
    rw [tokensFrom]
    exact List.Pairwise.nil
  | space o b bs hb ih =>
    rw [tokensFrom_space o b bs hb]
    exact ih
  | token o b kind more rest hb hlex ih =>
    rw [tokensFrom_lexeme o b kind more rest hb hlex]
    refine List.pairwise_cons.mpr ⟨?_, ih⟩
    intro u hu
    have hle := offset_le_of_mem _ rest u hu
    simp only [Token.stop, List.length_cons]
    omega

/-- A token ends before the tokens that follow it start. -/
theorem stop_le_of_before (o : Nat) (bs : Bytes) (before after : List Token) (t u : Token)
    (h : tokensFrom o 0 bs = before ++ t :: after) (hu : u ∈ after) : t.stop ≤ u.offset := by
  have hordered := stop_ordered o bs
  rw [h] at hordered
  exact (List.pairwise_cons.mp (List.pairwise_append.mp hordered).2.1).1 u hu

theorem offset_increasing (o : Nat) (bs : Bytes) :
    (tokensFrom o 0 bs).Pairwise fun t u => t.offset < u.offset := by
  refine (stop_ordered o bs).imp_of_mem ?_
  intro t u ht _ hle
  have hlt := offset_lt_stop o bs t ht
  omega

theorem stop_le_of_lt (o : Nat) (bs : Bytes) (t u : Token) (ht : t ∈ tokensFrom o 0 bs)
    (hu : u ∈ tokensFrom o 0 bs) (h : t.offset < u.offset) : t.stop ≤ u.offset := by
  obtain ⟨before, after, hts⟩ := List.append_of_mem ht
  have hincreasing := offset_increasing o bs
  rw [hts] at hincreasing hu
  obtain hu | hu := List.mem_append.mp hu
  · have := (List.pairwise_append.mp hincreasing).2.2 u hu t List.mem_cons_self
    omega
  · obtain rfl | hu := List.mem_cons.mp hu
    · omega
    · exact stop_le_of_before o bs before after t u hts hu

theorem dropLast_tokens (d : Bytes) : (tokens d).dropLast = tokensFrom 0 0 d :=
  List.dropLast_concat

theorem tokens_increasing (d : Bytes) : (tokens d).Pairwise fun t u => t.offset < u.offset := by
  refine List.pairwise_append.mpr ⟨offset_increasing 0 d, List.pairwise_singleton _ _, ?_⟩
  intro t ht u hu
  obtain rfl := List.mem_singleton.mp hu
  have hlt := offset_lt_stop 0 d t ht
  have hle := stop_le_of_mem 0 d t ht
  show t.offset < d.length
  omega

/-! ## Cutting by offsets -/

/-- The tokens behind an offset, the ending one included. -/
def tokensBehind (d : Bytes) (offset : Nat) : List Token :=
  (tokens d).filter fun t => decide (offset < t.offset)

section
variable (before after : List Token) (x : Token)
  (h : (before ++ x :: after).Pairwise fun t u => t.offset < u.offset)
include h

theorem filter_front :
    (before ++ x :: after).filter (fun t => decide (t.offset < x.offset)) = before := by
  obtain ⟨-, hafter, hlt⟩ := List.pairwise_append.mp h
  rw [List.filter_append, List.filter_eq_self.mpr, List.filter_eq_nil_iff.mpr, List.append_nil]
  · intro t ht
    rw [decide_eq_true_eq]
    cases ht with
    | head => omega
    | tail _ ht =>
      have := (List.pairwise_cons.mp hafter).1 t ht
      omega
  · intro t ht
    exact decide_eq_true (hlt t ht x List.mem_cons_self)

theorem filter_behind :
    (before ++ x :: after).filter (fun t => decide (x.offset < t.offset)) = after := by
  obtain ⟨-, hafter, hlt⟩ := List.pairwise_append.mp h
  rw [List.filter_append, List.filter_eq_nil_iff.mpr, List.nil_append,
    List.filter_cons_of_neg (by simp), List.filter_eq_self.mpr]
  · intro t ht
    exact decide_eq_true ((List.pairwise_cons.mp hafter).1 t ht)
  · intro t ht
    have := hlt t ht x List.mem_cons_self
    rw [decide_eq_true_eq]
    omega

end

/-! ## Bytes of marks -/

/-- At the offset of a bracket or separator stands its byte. -/
theorem getElem?_of_mark (d : Bytes) (t : Token) (b : UInt8) (h : t ∈ tokensFrom 0 0 d)
    (hb : (b, t.kind) ∈ marks) : d[t.offset]? = some b := by
  obtain ⟨before, after, hts⟩ := List.append_of_mem h
  obtain ⟨a, rest, rfl, hlen, -⟩ := tokensFrom_cut 0 d before after t hts
  have hmark : t.kind.isMark = true := by
    have hall : ∀ m ∈ marks, m.2.isMark = true := by decide
    exact hall _ hb
  obtain ⟨x, hx, hp⟩ := lexeme_of_mark _ _ (spelled_of_mem 0 _ t h) hmark
  have hunique : ∀ m ∈ marks, ∀ m' ∈ marks, m.2 = m'.2 → m.1 = m'.1 := by decide
  have e : x = b := hunique _ (punctuation_mem x _ hp) _ hb rfl
  have hoffset : t.offset = a.length := by omega
  rw [hoffset, List.getElem?_append_right (Nat.le_refl _), Nat.sub_self, hx, e]
  rfl

end KeyTables
