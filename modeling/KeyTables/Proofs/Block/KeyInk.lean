import KeyTables.Proofs.Block.Misread
import KeyTables.Proofs.Token.Code

/-! Keys and the texts of the tokens that they are read from.

* `inkText_compoundFrom`: the arguments of a compound key are the text of their tokens.
* `Covers`: the texts of keys are parts of the text of tokens, and no stray byte is left out.
* `covers_of_keysFrom`: keys are so related to the tokens that they are read from. -/
namespace KeyTables
set_option autoImplicit false
open Cursor

/-! ## Texts of tokens -/

theorem inkText_compoundFrom (depth : Int) (ts : List Token) (s : Text) (rest : List Token)
    (hts : ∀ t ∈ ts, Token.Spelled t.kind t.lexeme) (h : compoundFrom depth ts = some (s, rest)) :
    ∃ inner close after, ts = inner ++ close :: after ∧ rest = close :: after ∧
      s = inkText (inner ++ [close]) := by
  induction ts generalizing depth s with
  | nil => simp [compoundFrom] at h
  | cons t ts ih =>
    have ht := hts t List.mem_cons_self
    have htail := fun depth s => ih depth s (fun x hx => hts x (List.mem_cons_of_mem t hx))
    by_cases hc : t.kind = .comment
    · rw [compoundFrom_comment depth t ts hc] at h
      obtain ⟨inner, close, after, rfl, rfl, rfl⟩ := htail depth s h
      refine ⟨t :: inner, close, after, rfl, rfl, ?_⟩
      rw [List.cons_append, inkText_cons t _ ht, if_pos hc, List.nil_append]
    · by_cases hend : t.kind = .rparen ∧ depth + parenStep t.kind = 0
      · rw [compoundFrom_close depth t ts hend, Option.some.injEq, Prod.mk.injEq] at h
        obtain ⟨rfl, rfl⟩ := h
        refine ⟨[], t, ts, rfl, rfl, ?_⟩
        rw [List.nil_append, inkText_singleton t ht hc]
      · rw [compoundFrom_step depth t ts hc hend, Option.map_eq_some_iff] at h
        obtain ⟨⟨s', rest'⟩, hr, he⟩ := h
        obtain ⟨rfl, rfl⟩ := Prod.mk.inj he
        obtain ⟨inner, close, after, rfl, rfl, rfl⟩ := htail _ _ hr
        refine ⟨t :: inner, close, after, rfl, rfl, ?_⟩
        rw [List.cons_append, inkText_cons t _ ht, if_neg hc]

/-- Only an identifier can be a stray byte. -/
theorem not_lost_of_kind (t : Token) (h : Token.Spelled t.kind t.lexeme) (hk : t.kind ≠ .ident)
    (hc : t.kind ≠ .comment) : t.text.countP (· == lost) = 0 := by
  have hlow : ∀ b ∈ t.lexeme, b.toNat < 0x80 := by
    intro b hb
    generalize t.lexeme = lexeme at h hb
    generalize t.kind = kind at h hk hc
    cases h with
    | mark x kind hp =>
      rw [List.mem_singleton.mp hb]
      exact mark_lt x kind hp
    | comment body => exact absurd rfl hc
    | word w hw hword => exact isWordByte_lt b (hword b hb)
    | stray x hx => exact absurd rfl hk
  rw [Token.Spelled.text_eq t h hc]
  refine countP_eq_zero _ _ ?_
  intro c hmem
  obtain ⟨b, hb, rfl⟩ := List.mem_map.mp hmem
  refine beq_eq_false_iff_ne.mpr (fun he => ?_)
  have := lossyChar_high b he
  have := hlow b hb
  omega

/-! ## Keys -/

/-- The keys are parts of the text of the tokens, in order, and no stray byte is left out. -/
structure Covers (keys : List Text) (ts : List Token) : Prop where
  parts : keys.flatten.Sublist (inkText ts)
  lost : (inkText ts).countP (· == lost) = keys.flatten.countP (· == lost)

theorem Covers.key {keys : List Text} {ts : List Token} (h : Covers keys ts) (us : List Token) :
    Covers (inkText us :: keys) (us ++ ts) := by
  refine ⟨?_, ?_⟩
  · rw [inkText_append, List.flatten_cons]
    exact (List.Sublist.refl _).append h.parts
  · rw [inkText_append, List.flatten_cons, List.countP_append, List.countP_append, h.lost]

/-- A token that is passed over, or whose key is empty. -/
theorem Covers.pass {keys keys' : List Text} {ts : List Token} (h : Covers keys ts) (t : Token)
    (ht : Token.Spelled t.kind t.lexeme) (hk : t.kind ≠ .ident)
    (hkeys : keys'.flatten = keys.flatten) : Covers keys' (t :: ts) := by
  have hink := inkText_cons t ts ht
  refine ⟨?_, ?_⟩
  · rw [hkeys, hink]
    exact h.parts.trans (List.sublist_append_right _ _)
  · rw [hkeys, hink, List.countP_append, h.lost]
    by_cases hc : t.kind = .comment
    · rw [if_pos hc]
      exact Nat.zero_add _
    · rw [if_neg hc, not_lost_of_kind t ht hk hc, Nat.zero_add]

theorem covers_of_keysFrom (ts : List Token) (keys : List Text) (rest : List Token)
    (hts : ∀ t ∈ ts, Token.Spelled t.kind t.lexeme) (h : keysFrom ts = some (keys, rest)) :
    ∃ inner close after, ts = inner ++ close :: after ∧ rest = close :: after ∧
      Covers keys inner := by
  induction ts using keysInduction generalizing keys with
  | nil =>
    rw [keysFrom] at h
    simp at h
  | rparen t ts h1 =>
    rw [keysFrom_rparen t ts h1, Option.some.injEq, Prod.mk.injEq] at h
    obtain ⟨rfl, rfl⟩ := h
    exact ⟨[], t, ts, rfl, rfl, List.Sublist.refl _, rfl⟩
  | blank t ts h2 ih =>
    rw [keysFrom_blank t ts h2, Option.map_eq_some_iff] at h
    obtain ⟨⟨keys', rest'⟩, hr, he⟩ := h
    obtain ⟨rfl, rfl⟩ := Prod.mk.inj he
    obtain ⟨inner, close, after, rfl, rfl, hcovers⟩ :=
      ih keys' (fun x hx => hts x (List.mem_cons_of_mem t hx)) hr
    exact ⟨t :: inner, close, after, rfl, rfl,
      hcovers.pass t (hts t List.mem_cons_self) (by rw [h2]; simp) rfl⟩
  | plain t ts h3 hp ih =>
    rw [keysFrom_plain t ts h3 hp, Option.map_eq_some_iff] at h
    obtain ⟨⟨keys', rest'⟩, hr, he⟩ := h
    obtain ⟨rfl, rfl⟩ := Prod.mk.inj he
    obtain ⟨inner, close, after, rfl, rfl, hcovers⟩ :=
      ih keys' (fun x hx => hts x (List.mem_cons_of_mem t hx)) hr
    refine ⟨t :: inner, close, after, rfl, rfl, ?_⟩
    rw [← inkText_singleton t (hts t List.mem_cons_self) (by rw [h3]; simp)]
    exact hcovers.key [t]
  | compound t ts h3 hp ih =>
    have htail : ∀ x ∈ ts, Token.Spelled x.kind x.lexeme :=
      fun x hx => hts x (List.mem_cons_of_mem t hx)
    rw [keysFrom_compound t ts h3 hp, Option.bind_eq_some_iff] at h
    obtain ⟨⟨s, closing⟩, hread, hk⟩ := h
    rw [Option.map_eq_some_iff] at hk
    obtain ⟨⟨keys', rest'⟩, hr, he⟩ := hk
    obtain ⟨rfl, rfl⟩ := Prod.mk.inj he
    have hih := ih (s, closing) hread keys'
    obtain ⟨args, last, after0, rfl, rfl, rfl⟩ := inkText_compoundFrom 0 ts s closing htail hread
    have hsub : ∀ x ∈ after0, x ∈ args ++ last :: after0 := fun x hx => by simp [hx]
    obtain ⟨inner, close, after, hafter, rfl, hcovers⟩ :=
      hih (fun x hx => htail x (hsub x hx)) hr
    rw [List.tail_cons] at hafter
    subst hafter
    refine ⟨t :: (args ++ last :: inner), close, after, by simp, rfl, ?_⟩
    have hkey := hcovers.key ([t] ++ (args ++ [last]))
    rw [inkText_append, inkText_singleton t (hts t List.mem_cons_self) (by rw [h3]; simp)] at hkey
    simpa using hkey
  | other t ts h1 h2 h3 ih =>
    rw [keysFrom_other t ts h1 h2 h3] at h
    obtain ⟨inner, close, after, rfl, rfl, hcovers⟩ :=
      ih keys (fun x hx => hts x (List.mem_cons_of_mem t hx)) h
    exact ⟨t :: inner, close, after, rfl, rfl,
      hcovers.pass t (hts t List.mem_cons_self) h3 rfl⟩

end KeyTables
