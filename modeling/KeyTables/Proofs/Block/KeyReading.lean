import KeyTables.Proofs.Block.CompoundScan

/-! Reading keys looks no further than the closing parenthesis, and not at offsets.

* `compoundFrom_local`, `keysFrom_local`: the tokens that were read can be told from those that
  follow, and what follows may be replaced by anything.
* `keysFrom_relocate`: moving the tokens changes no key. -/
namespace KeyTables.Cursor
set_option autoImplicit false

/-! ## One token of a key list -/

theorem keysFrom_rparen (t : Token) (ts : List Token) (h : t.kind = .rparen) :
    keysFrom (t :: ts) = some ([], t :: ts) := by
  rw [keysFrom, if_pos h]

theorem keysFrom_blank (t : Token) (ts : List Token) (h : t.kind = .blank) :
    keysFrom (t :: ts) = (keysFrom ts).map fun r => ([] :: r.1, r.2) := by
  rw [keysFrom, if_neg (by simp [h]), if_pos h]
  cases keysFrom ts <;> rfl

theorem keysFrom_plain (t : Token) (ts : List Token) (h : t.kind = .ident)
    (hp : (ts.head?.map Token.kind) ≠ some .lparen) :
    keysFrom (t :: ts) = (keysFrom ts).map fun r => (t.text :: r.1, r.2) := by
  rw [keysFrom, if_neg (by simp [h]), if_neg (by simp [h]), if_pos h, if_neg hp]
  cases keysFrom ts <;> rfl

theorem keysFrom_compound (t : Token) (ts : List Token) (h : t.kind = .ident)
    (hp : (ts.head?.map Token.kind) = some .lparen) :
    keysFrom (t :: ts) = (compoundFrom 0 ts).bind fun c =>
      (keysFrom c.2.tail).map fun r => ((t.text ++ c.1) :: r.1, r.2) := by
  rw [keysFrom, if_neg (by simp [h]), if_neg (by simp [h]), if_pos h, if_pos hp]
  cases hc : compoundFrom 0 ts with
  | none => split <;> simp_all
  | some c =>
    split
    · simp_all
    · next s closing he =>
      obtain rfl := Option.some.inj he
      simp only [Option.bind_some]
      cases keysFrom closing.tail <;> rfl

theorem keysFrom_other (t : Token) (ts : List Token) (h1 : t.kind ≠ .rparen)
    (h2 : t.kind ≠ .blank) (h3 : t.kind ≠ .ident) : keysFrom (t :: ts) = keysFrom ts := by
  rw [keysFrom, if_neg h1, if_neg h2, if_neg h3]

/-- Induction along a key list: each token ends it, is a key or the start of one, or is passed
over. -/
theorem keysInduction {P : List Token → Prop} (nil : P [])
    (rparen : ∀ t ts, t.kind = .rparen → P (t :: ts))
    (blank : ∀ t ts, t.kind = .blank → P ts → P (t :: ts))
    (plain : ∀ t ts, t.kind = .ident → (ts.head?.map Token.kind) ≠ some .lparen → P ts →
      P (t :: ts))
    (compound : ∀ t ts, t.kind = .ident → (ts.head?.map Token.kind) = some .lparen →
      (∀ c, compoundFrom 0 ts = some c → P c.2.tail) → P (t :: ts))
    (other : ∀ t ts, t.kind ≠ .rparen → t.kind ≠ .blank → t.kind ≠ .ident → P ts → P (t :: ts))
    (ts : List Token) : P ts := by
  induction hn : ts.length using Nat.strongRecOn generalizing ts with
  | ind n ih =>
    cases ts with
    | nil => exact nil
    | cons t ts =>
      rw [List.length_cons] at hn
      have htail := ih ts.length (by omega) ts rfl
      by_cases h1 : t.kind = .rparen
      · exact rparen t ts h1
      by_cases h2 : t.kind = .blank
      · exact blank t ts h2 htail
      by_cases h3 : t.kind = .ident
      · by_cases hp : (ts.head?.map Token.kind) = some .lparen
        · refine compound t ts h3 hp ?_
          intro c hc
          have hlen := length_compoundFrom_le 0 ts c.1 c.2 hc
          exact ih c.2.tail.length (by rw [List.length_tail]; omega) c.2.tail rfl
        · exact plain t ts h3 hp htail
      · exact other t ts h1 h2 h3 htail

/-! ## Locality -/

theorem compoundFrom_local (depth : Int) (ts : List Token) (s : Text) (rest : List Token)
    (h : compoundFrom depth ts = some (s, rest)) :
    ∃ inner close after, ts = inner ++ close :: after ∧ rest = close :: after ∧
      close.kind = .rparen ∧
      ∀ after', compoundFrom depth (inner ++ close :: after') = some (s, close :: after') := by
  induction ts generalizing depth s with
  | nil => simp [compoundFrom] at h
  | cons t ts ih =>
    by_cases hc : t.kind = .comment
    · rw [compoundFrom_comment depth t ts hc] at h
      obtain ⟨inner, close, after, rfl, rfl, hclose, hall⟩ := ih depth s h
      refine ⟨t :: inner, close, after, rfl, rfl, hclose, ?_⟩
      intro after'
      rw [List.cons_append, compoundFrom_comment depth t _ hc, hall]
    · by_cases hend : t.kind = .rparen ∧ depth + parenStep t.kind = 0
      · rw [compoundFrom_close depth t ts hend, Option.some.injEq, Prod.mk.injEq] at h
        obtain ⟨rfl, rfl⟩ := h
        exact ⟨[], t, ts, rfl, rfl, hend.1, fun after' => compoundFrom_close depth t after' hend⟩
      · rw [compoundFrom_step depth t ts hc hend, Option.map_eq_some_iff] at h
        obtain ⟨⟨s', rest'⟩, hr, he⟩ := h
        obtain ⟨rfl, rfl⟩ := Prod.mk.inj he
        obtain ⟨inner, close, after, rfl, rfl, hclose, hall⟩ := ih _ _ hr
        refine ⟨t :: inner, close, after, rfl, rfl, hclose, ?_⟩
        intro after'
        rw [List.cons_append, compoundFrom_step depth t _ hc hend, hall]
        rfl

theorem keysFrom_local (ts : List Token) (keys : List Text) (rest : List Token)
    (h : keysFrom ts = some (keys, rest)) :
    ∃ inner close after, ts = inner ++ close :: after ∧ rest = close :: after ∧
      close.kind = .rparen ∧
      ∀ after', keysFrom (inner ++ close :: after') = some (keys, close :: after') := by
  induction ts using keysInduction generalizing keys with
  | nil =>
    rw [keysFrom] at h
    simp at h
  | rparen t ts h1 =>
    rw [keysFrom_rparen t ts h1, Option.some.injEq, Prod.mk.injEq] at h
    obtain ⟨rfl, rfl⟩ := h
    exact ⟨[], t, ts, rfl, rfl, h1, fun after' => keysFrom_rparen t after' h1⟩
  | blank t ts h2 ih =>
    rw [keysFrom_blank t ts h2, Option.map_eq_some_iff] at h
    obtain ⟨⟨keys', rest'⟩, hr, he⟩ := h
    obtain ⟨rfl, rfl⟩ := Prod.mk.inj he
    obtain ⟨inner, close, after, rfl, rfl, hclose, hall⟩ := ih keys' hr
    refine ⟨t :: inner, close, after, rfl, rfl, hclose, ?_⟩
    intro after'
    rw [List.cons_append, keysFrom_blank t _ h2, hall]
    rfl
  | plain t ts h3 hp ih =>
    rw [keysFrom_plain t ts h3 hp, Option.map_eq_some_iff] at h
    obtain ⟨⟨keys', rest'⟩, hr, he⟩ := h
    obtain ⟨rfl, rfl⟩ := Prod.mk.inj he
    obtain ⟨inner, close, after, rfl, rfl, hclose, hall⟩ := ih keys' hr
    refine ⟨t :: inner, close, after, rfl, rfl, hclose, ?_⟩
    intro after'
    have hp' : (inner ++ close :: after').head?.map Token.kind ≠ some .lparen := by
      cases inner with
      | nil => exact hp
      | cons _ _ => exact hp
    rw [List.cons_append, keysFrom_plain t _ h3 hp', hall]
    rfl
  | compound t ts h3 hp ih =>
    rw [keysFrom_compound t ts h3 hp, Option.bind_eq_some_iff] at h
    obtain ⟨⟨s, closing⟩, hc, hk⟩ := h
    rw [Option.map_eq_some_iff] at hk
    obtain ⟨⟨keys', rest'⟩, hr, he⟩ := hk
    obtain ⟨rfl, rfl⟩ := Prod.mk.inj he
    have ih0 := ih (s, closing) hc keys' hr
    obtain ⟨argument, mid, after0, rfl, rfl, -, hall0⟩ := compoundFrom_local 0 ts s closing hc
    obtain ⟨inner, close, after, hafter, rfl, hclose, hall⟩ := ih0
    rw [List.tail_cons] at hafter
    subst hafter
    refine ⟨t :: (argument ++ mid :: inner), close, after, by simp, rfl, hclose, ?_⟩
    intro after'
    have hp' : (argument ++ mid :: (inner ++ close :: after')).head?.map Token.kind =
        some .lparen := by
      cases argument with
      | nil => exact hp
      | cons _ _ => exact hp
    simp only [List.cons_append, List.append_assoc]
    rw [keysFrom_compound t _ h3 hp', hall0, Option.bind_some, List.tail_cons, hall]
    rfl
  | other t ts h1 h2 h3 ih =>
    rw [keysFrom_other t ts h1 h2 h3] at h
    obtain ⟨inner, close, after, rfl, rfl, hclose, hall⟩ := ih keys h
    refine ⟨t :: inner, close, after, rfl, rfl, hclose, ?_⟩
    intro after'
    rw [List.cons_append, keysFrom_other t _ h1 h2 h3, hall]

/-! ## Moving -/

theorem compoundFrom_relocate (f : Nat → Nat) (depth : Int) (ts : List Token) :
    compoundFrom depth (ts.map (Token.relocate f)) =
      (compoundFrom depth ts).map fun r => (r.1, r.2.map (Token.relocate f)) := by
  induction ts generalizing depth with
  | nil => rfl
  | cons t ts ih =>
    rw [List.map_cons]
    by_cases hc : t.kind = .comment
    · rw [compoundFrom_comment depth t ts hc, compoundFrom_comment depth (t.relocate f) _ hc, ih]
    · by_cases hend : t.kind = .rparen ∧ depth + parenStep t.kind = 0
      · rw [compoundFrom_close depth t ts hend,
          compoundFrom_close depth (t.relocate f) _ hend]
        rfl
      · rw [compoundFrom_step depth t ts hc hend, compoundFrom_step depth (t.relocate f) _ hc hend,
          Token.relocate_kind, ih, Option.map_map, Option.map_map]
        rfl

theorem keysFrom_relocate (f : Nat → Nat) (ts : List Token) :
    keysFrom (ts.map (Token.relocate f)) =
      (keysFrom ts).map fun r => (r.1, r.2.map (Token.relocate f)) := by
  have hhead : ∀ ts : List Token, ((ts.map (Token.relocate f)).head?.map Token.kind) =
      ts.head?.map Token.kind := by
    intro ts
    cases ts <;> rfl
  induction ts using keysInduction with
  | nil =>
    rw [List.map_nil, keysFrom]
    rfl
  | rparen t ts h1 =>
    rw [List.map_cons, keysFrom_rparen t ts h1, keysFrom_rparen (t.relocate f) _ h1]
    rfl
  | blank t ts h2 ih =>
    rw [List.map_cons, keysFrom_blank t ts h2, keysFrom_blank (t.relocate f) _ h2, ih,
      Option.map_map, Option.map_map]
    rfl
  | plain t ts h3 hp ih =>
    rw [List.map_cons, keysFrom_plain t ts h3 hp,
      keysFrom_plain (t.relocate f) _ h3 (by rw [hhead]; exact hp), ih, Option.map_map,
      Option.map_map]
    rfl
  | compound t ts h3 hp ih =>
    rw [List.map_cons, keysFrom_compound t ts h3 hp,
      keysFrom_compound (t.relocate f) _ h3 ((hhead ts).trans hp), compoundFrom_relocate]
    cases hc : compoundFrom 0 ts with
    | none => rfl
    | some c =>
      simp only [Option.map_some, Option.bind_some, ← List.map_tail]
      rw [ih c hc, Option.map_map, Option.map_map]
      rfl
  | other t ts h1 h2 h3 ih =>
    rw [List.map_cons, keysFrom_other t ts h1 h2 h3, keysFrom_other (t.relocate f) _ h1 h2 h3, ih]

end KeyTables.Cursor
