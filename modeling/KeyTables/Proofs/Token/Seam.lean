import KeyTables.Token.Lexer

/-! Seams of a source: places where cutting it cuts the list of its tokens, too.

* `lexemeAt_of_mem`: where a token starts.
* `tokensFrom_cut`, `tokensFrom_front`: a source can be cut in front of and behind every token.
* `Sealed a`: nothing that follows `a` joins its last token.
* `Token.Finished`, `sealed_of_finished`: a text is sealed if it ends behind its last token, or with
  one that nothing joins.
* `sealed_of_last`: nothing joins a bracket or separator.
* `tokensFrom_relocate`: moving a source moves its tokens. -/
namespace KeyTables
set_option autoImplicit false

/-! ## Runs of bytes -/

theorem takeWhile_append_stop {α : Type} (p : α → Bool) (l r : List α) (hl : ∀ a ∈ l, p a = true)
    (hr : ∀ a ∈ r.head?, p a = false) : (l ++ r).takeWhile p = l := by
  rw [List.takeWhile_append_of_pos hl]
  cases r with
  | nil => simp
  | cons a r =>
    have ha := hr a rfl
    rw [List.takeWhile_cons, ha]
    simp

theorem stop_of_takeWhile {α : Type} (p : α → Bool) (l r : List α)
    (h : (l ++ r).takeWhile p = l) : (∀ a ∈ l, p a = true) ∧ ∀ a ∈ r.head?, p a = false := by
  induction l with
  | nil =>
    refine ⟨by simp, ?_⟩
    intro a ha
    cases r with
    | nil => simp at ha
    | cons x r =>
      simp only [List.head?_cons, Option.mem_def, Option.some.injEq] at ha
      subst ha
      rw [List.nil_append, List.takeWhile_cons] at h
      split at h
      · simp at h
      · next hx => simpa using hx
  | cons x l ih =>
    rw [List.cons_append, List.takeWhile_cons] at h
    split at h
    · next hx =>
      obtain ⟨h1, h2⟩ := ih (List.cons.inj h).2
      exact ⟨by simpa [hx] using h1, h2⟩
    · simp at h

/-! ## One token -/

theorem tokensFrom_space (o : Nat) (b : UInt8) (bs : Bytes) (h : isSpaceByte b = true) :
    tokensFrom o 0 (b :: bs) = tokensFrom (o + 1) 0 bs := by
  rw [tokensFrom, if_pos h]

theorem lexemeAt_isPrefix (b : UInt8) (bs : Bytes) : (lexemeAt b bs).2 <+: bs := by
  rw [lexemeAt]
  split
  · exact List.nil_prefix
  · split
    · exact List.takeWhile_prefix _
    · split
      · exact List.takeWhile_prefix _
      · exact List.nil_prefix

/-- The first token of bytes that do not start with a space, and what is left. -/
theorem tokensFrom_lexeme (o : Nat) (b : UInt8) (kind : Token.Kind) (more rest : Bytes)
    (h : isSpaceByte b = false) (hlex : lexemeAt b (more ++ rest) = (kind, more)) :
    tokensFrom o 0 (b :: (more ++ rest)) =
      ⟨kind, o, b :: more⟩ :: tokensFrom (o + 1 + more.length) 0 rest := by
  rw [tokensFrom, h, hlex]
  simp only [Bool.false_eq_true, if_false]
  rw [tokensFrom_skip, List.drop_left]

/-- Induction along the tokens of a source: it is empty, or starts with a space or a token. -/
theorem lexInduction {P : Nat → Bytes → Prop} (nil : ∀ o, P o [])
    (space : ∀ o b bs, isSpaceByte b = true → P (o + 1) bs → P o (b :: bs))
    (token : ∀ o b kind more rest, isSpaceByte b = false →
      lexemeAt b (more ++ rest) = (kind, more) → P (o + 1 + more.length) rest →
      P o (b :: (more ++ rest))) (o : Nat) (bs : Bytes) : P o bs := by
  induction hn : bs.length using Nat.strongRecOn generalizing o bs with
  | ind n ih =>
    cases bs with
    | nil => exact nil o
    | cons b bs =>
      rw [List.length_cons] at hn
      by_cases hb : isSpaceByte b = true
      · exact space o b bs hb (ih bs.length (by omega) (o + 1) bs rfl)
      · obtain ⟨rest, hrest⟩ := lexemeAt_isPrefix b bs
        generalize hlex : lexemeAt b bs = lexeme at hrest
        obtain ⟨kind, more⟩ := lexeme
        subst hrest
        rw [List.length_append] at hn
        exact token o b kind more rest (by simpa using hb) hlex
          (ih rest.length (by omega) _ rest rfl)

/-- Where a token of a source starts, and what it was cut from. -/
theorem lexemeAt_of_mem (o : Nat) (bs : Bytes) (t : Token) (h : t ∈ tokensFrom o 0 bs) :
    ∃ a b more rest, bs = a ++ b :: (more ++ rest) ∧ o + a.length = t.offset ∧
      t.lexeme = b :: more ∧ isSpaceByte b = false ∧
      lexemeAt b (more ++ rest) = (t.kind, more) := by
  induction o, bs using lexInduction with
  | nil o => simp [tokensFrom] at h
  | space o b bs hb ih =>
    rw [tokensFrom_space o b bs hb] at h
    obtain ⟨a, c, more, rest, rfl, hlen, hlexeme⟩ := ih h
    refine ⟨b :: a, c, more, rest, rfl, ?_, hlexeme⟩
    rw [List.length_cons]
    omega
  | token o b kind more rest hb hlex ih =>
    rw [tokensFrom_lexeme o b kind more rest hb hlex] at h
    cases h with
    | head => exact ⟨[], b, more, rest, rfl, rfl, rfl, hb, hlex⟩
    | tail _ h =>
      obtain ⟨a, c, more', rest', rfl, hlen, hlexeme⟩ := ih h
      refine ⟨b :: (more ++ a), c, more', rest', by simp, ?_, hlexeme⟩
      rw [List.length_cons, List.length_append]
      omega

/-- The token at the front stays the same if what follows it is dropped, or replaced by something
that starts with the same byte. -/
theorem lexemeAt_congr (b : UInt8) (kind : Token.Kind) (more rest rest' : Bytes)
    (h : lexemeAt b (more ++ rest) = (kind, more))
    (hrest : rest' = [] ∨ rest'.head? = rest.head?) :
    lexemeAt b (more ++ rest') = (kind, more) := by
  have stop : ∀ p : UInt8 → Bool, (more ++ rest).takeWhile p = more →
      (more ++ rest').takeWhile p = more := by
    intro p hp
    obtain ⟨h1, h2⟩ := stop_of_takeWhile p more rest hp
    refine takeWhile_append_stop p more rest' h1 ?_
    rcases hrest with hr | hr
    · simp [hr]
    · rw [hr]
      exact h2
  rw [lexemeAt] at h ⊢
  split at h
  · exact h
  · split at h
    · next hs =>
      obtain ⟨hkind, hmore⟩ := Prod.mk.inj h
      have hs' : (isSlash b && (more ++ rest').head?.any isSlash) = true := by
        cases more with
        | nil =>
          -- a comment holds at least its second slash
          exfalso
          obtain ⟨x, hx⟩ : ∃ x, rest.head? = some x ∧ isSlash x = true := by
            simpa [Option.any_eq_true] using (Bool.and_eq_true_iff.mp hs).2
          have := (stop_of_takeWhile _ [] rest hmore).2 x hx.1
          have hne : isLineFeed x = false := by
            have : x = 0x2F := by simpa [isSlash] using hx.2
            subst this
            rfl
          simp [hne] at this
        | cons x more => simpa using hs
      rw [if_pos hs', ← hkind, stop _ hmore]
    · next hs =>
      have hs' : more = [] → ¬ (isSlash b && (more ++ rest').head?.any isSlash) = true := by
        intro hm
        subst hm
        rcases hrest with hr | hr
        · simp [hr]
        · rw [List.nil_append, hr]
          exact hs
      split at h
      · next hw =>
        obtain ⟨hkind, hmore⟩ := Prod.mk.inj h
        have hs'' : ¬ (isSlash b && (more ++ rest').head?.any isSlash) = true := by
          cases more with
          | nil => exact hs' rfl
          | cons x more => simpa using hs
        rw [if_neg hs'', if_pos hw]
        simp only [hmore] at hkind
        simp only [stop _ hmore, hkind]
      · next hw =>
        obtain ⟨hkind, hmore⟩ := Prod.mk.inj h
        rw [if_neg (hs' hmore.symm), if_neg hw, hkind, hmore]

/-! ## Cuts -/

/-- A source around one of its tokens: what comes up to the token, from it on and after it has the
tokens that it should have. -/
theorem tokensFrom_cut (o : Nat) (bs : Bytes) (before after : List Token) (t : Token)
    (h : tokensFrom o 0 bs = before ++ t :: after) :
    ∃ a rest, bs = a ++ (t.lexeme ++ rest) ∧ o + a.length = t.offset ∧
      tokensFrom o 0 (a ++ t.lexeme) = before ++ [t] ∧
      tokensFrom t.offset 0 (t.lexeme ++ rest) = t :: after ∧ tokensFrom t.stop 0 rest = after := by
  induction o, bs using lexInduction generalizing before with
  | nil o => simp [tokensFrom] at h
  | space o b bs hb ih =>
    rw [tokensFrom_space o b bs hb] at h
    obtain ⟨a, rest, rfl, hlen, ha, hrest⟩ := ih before h
    refine ⟨b :: a, rest, rfl, ?_, ?_, hrest⟩
    · rw [List.length_cons]
      omega
    · rw [List.cons_append, tokensFrom_space o b _ hb, ha]
  | token o b kind more rest hb hlex ih =>
    have htok := tokensFrom_lexeme o b kind more rest hb hlex
    rw [htok] at h
    cases before with
    | nil =>
      rw [List.nil_append, List.cons.injEq] at h
      obtain ⟨rfl, rfl⟩ := h
      have hself := tokensFrom_lexeme o b kind more [] hb
        (lexemeAt_congr b kind more rest [] hlex (Or.inl rfl))
      rw [List.append_nil] at hself
      have hstop : Token.stop ⟨kind, o, b :: more⟩ = o + 1 + more.length := by
        simp only [Token.stop, List.length_cons]
        omega
      refine ⟨[], rest, rfl, rfl, ?_, htok, by rw [hstop]⟩
      rw [List.nil_append, hself, tokensFrom, List.nil_append]
    | cons u before =>
      rw [List.cons_append, List.cons.injEq] at h
      obtain ⟨rfl, h⟩ := h
      obtain ⟨a, tail, hrest, hlen, ha, htail⟩ := ih before h
      refine ⟨b :: (more ++ a), tail, by simp [hrest], ?_, ?_, htail⟩
      · rw [List.length_cons, List.length_append]
        omega
      · have hhead : (a ++ t.lexeme).head? = rest.head? := by
          rw [hrest, ← List.append_assoc]
          cases hx : a ++ t.lexeme with
          | nil =>
            rw [hx] at ha
            simp [tokensFrom] at ha
          | cons _ _ => rfl
        have := tokensFrom_lexeme o b kind more (a ++ t.lexeme) hb
          (lexemeAt_congr b kind more rest _ hlex (Or.inr hhead))
        simp only [List.cons_append, List.append_assoc] at this ⊢
        rw [this, ha]

/-- What stands in front of a token has the tokens in front of it. -/
theorem tokensFrom_front (o : Nat) (bs : Bytes) (before after : List Token) (t : Token)
    (h : tokensFrom o 0 bs = before ++ t :: after) :
    ∃ a rest, bs = a ++ rest ∧ o + a.length = t.offset ∧ tokensFrom o 0 a = before := by
  induction o, bs using lexInduction generalizing before with
  | nil o => simp [tokensFrom] at h
  | space o b bs hb ih =>
    rw [tokensFrom_space o b bs hb] at h
    obtain ⟨a, rest, rfl, hlen, ha⟩ := ih before h
    refine ⟨b :: a, rest, rfl, ?_, ?_⟩
    · rw [List.length_cons]
      omega
    · rw [tokensFrom_space o b _ hb, ha]
  | token o b kind more rest hb hlex ih =>
    rw [tokensFrom_lexeme o b kind more rest hb hlex] at h
    cases before with
    | nil =>
      rw [List.nil_append, List.cons.injEq] at h
      obtain ⟨rfl, -⟩ := h
      exact ⟨[], _, rfl, rfl, rfl⟩
    | cons u before =>
      rw [List.cons_append, List.cons.injEq] at h
      obtain ⟨rfl, h⟩ := h
      obtain ⟨a, tail, rfl, hlen, ha⟩ := ih before h
      have hhead : a = [] ∨ a.head? = (a ++ tail).head? := by
        cases a with
        | nil => exact Or.inl rfl
        | cons _ _ => exact Or.inr rfl
      refine ⟨b :: (more ++ a), tail, by simp, ?_, ?_⟩
      · rw [List.length_cons, List.length_append]
        omega
      · rw [tokensFrom_lexeme o b kind more a hb (lexemeAt_congr b kind more _ a hlex hhead), ha]

/-! ## Sealed texts -/

/-- Nothing that follows `a` joins its last token. -/
def Sealed (a : Bytes) : Prop :=
  ∀ o b, tokensFrom o 0 (a ++ b) = tokensFrom o 0 a ++ tokensFrom (o + a.length) 0 b

theorem sealed_nil : Sealed [] := by
  intro o b
  rfl

theorem Sealed.append {a b : Bytes} (ha : Sealed a) (hb : Sealed b) : Sealed (a ++ b) := by
  intro o c
  rw [List.append_assoc, ha, hb, ha, List.append_assoc, List.length_append, Nat.add_assoc]

theorem sealed_spaces (a : Bytes) (h : ∀ b ∈ a, isSpaceByte b = true) : Sealed a := by
  induction a with
  | nil => exact sealed_nil
  | cons b a ih =>
    intro o c
    have hb := h b List.mem_cons_self
    have ha := ih (fun x hx => h x (List.mem_cons_of_mem b hx))
    rw [List.cons_append, tokensFrom_space o b _ hb, tokensFrom_space o b a hb, ha, List.length_cons]
    congr 2
    omega

/-- The kinds of the eight brackets and separators. -/
def Token.Kind.isMark : Token.Kind → Bool
  | .lparen | .rparen | .lbracket | .rbracket | .lbrace | .rbrace | .comma | .equals => true
  | _ => false

theorem wordKind_not_mark (w : Bytes) : (wordKind w).isMark = false := by
  have h : ∀ kind, reservedWords.lookup w = some kind → kind.isMark = false := by
    intro kind hk
    simp only [reservedWords, List.lookup_cons, List.lookup_nil] at hk
    grind [Token.Kind.isMark]
  rw [wordKind]
  split
  · next kind hk => exact h kind hk
  · split <;> rfl

theorem punctuation_of_mark (b : UInt8) (bs : Bytes) (h : (lexemeAt b bs).1.isMark = true) :
    punctuation? b = some (lexemeAt b bs).1 := by
  rw [lexemeAt] at h ⊢
  split
  · next kind hk => exact hk
  · next hk =>
    simp only [hk] at h
    split at h
    · simp [Token.Kind.isMark] at h
    · split at h
      · simp [wordKind_not_mark] at h
      · simp [Token.Kind.isMark] at h

theorem lexemeAt_punctuation (b : UInt8) (bs : Bytes) (kind : Token.Kind)
    (h : punctuation? b = some kind) : lexemeAt b bs = (kind, []) := by
  rw [lexemeAt, h]

/-- Nothing that follows the token joins it. -/
def Token.Finished (t : Token) : Prop :=
  ∀ b more rest, t.lexeme = b :: more → lexemeAt b (more ++ rest) = (t.kind, more)

theorem finished_of_mark (o : Nat) (bs : Bytes) (t : Token) (h : t ∈ tokensFrom o 0 bs)
    (hm : t.kind.isMark = true) : t.Finished := by
  obtain ⟨a, b, more, rest, -, -, hlexeme, -, hlex⟩ := lexemeAt_of_mem o bs t h
  have hp := punctuation_of_mark b (more ++ rest) (by rw [hlex]; exact hm)
  rw [hlex] at hp
  have hmore : more = [] := by
    have := lexemeAt_punctuation b (more ++ rest) t.kind hp
    rw [hlex] at this
    exact (Prod.mk.inj this).2
  intro b' more' rest' hcons
  obtain ⟨rfl, rfl⟩ := List.cons.inj (hlexeme.symm.trans hcons)
  rw [lexemeAt_punctuation b _ t.kind hp, hmore]

/-- A text whose last token is finished, or ends before the text does, is sealed. -/
theorem sealed_of_finished (o : Nat) (a : Bytes)
    (h : ∀ t ∈ (tokensFrom o 0 a).getLast?, t.Finished ∨ t.stop < o + a.length) : Sealed a := by
  induction o, a using lexInduction with
  | nil o => exact sealed_nil
  | space o b bs hb ih =>
    rw [tokensFrom_space o b bs hb, List.length_cons] at h
    have hbs : Sealed bs := ih (fun t ht => by
      rw [show o + 1 + bs.length = o + (bs.length + 1) by omega]
      exact h t ht)
    exact (sealed_spaces [b] (by simpa using hb)).append hbs
  | token o b kind more rest hb hlex ih =>
    rw [tokensFrom_lexeme o b kind more rest hb hlex] at h
    by_cases hrest : rest = []
    · subst hrest
      have hfinished : ∀ c, lexemeAt b (more ++ c) = (kind, more) := by
        intro c
        rcases h ⟨kind, o, b :: more⟩ (by simp [tokensFrom]) with hf | hs
        · exact hf b more c rfl
        · simp [Token.stop] at hs
      intro o' c
      have h1 := tokensFrom_lexeme o' b kind more c hb (hfinished c)
      have h2 := tokensFrom_lexeme o' b kind more [] hb (hfinished [])
      have e : o' + 1 + more.length = o' + (b :: more).length := by
        rw [List.length_cons]
        omega
      rw [List.append_nil] at h2 ⊢
      rw [List.cons_append, h1, h2, tokensFrom, List.cons_append, List.nil_append, e]
    · have hseal : Sealed rest := ih (fun t ht => by
        have hlast : t ∈ (⟨kind, o, b :: more⟩ ::
            tokensFrom (o + 1 + more.length) 0 rest).getLast? := by
          rw [List.getLast?_cons, Option.mem_def.mp ht]
          rfl
        refine (h t hlast).imp_right (fun hs => ?_)
        simp only [List.length_cons, List.length_append] at hs
        omega)
      intro o' c
      have hhead : (rest ++ c).head? = rest.head? := by
        cases rest with
        | nil => exact absurd rfl hrest
        | cons _ _ => rfl
      have h1 := tokensFrom_lexeme o' b kind more (rest ++ c) hb
        (lexemeAt_congr b kind more rest _ hlex (Or.inr hhead))
      rw [List.cons_append, List.append_assoc, h1, hseal,
        tokensFrom_lexeme o' b kind more rest hb hlex, List.cons_append, List.length_cons,
        List.length_append]
      congr 3
      omega

/-- A text whose last token is a bracket or separator, or ends before the text does, is sealed. -/
theorem sealed_of_last (o : Nat) (a : Bytes)
    (h : ∀ t ∈ (tokensFrom o 0 a).getLast?, t.kind.isMark = true ∨ t.stop < o + a.length) :
    Sealed a := by
  refine sealed_of_finished o a (fun t ht => ?_)
  exact (h t ht).imp_left (finished_of_mark o a t (List.mem_of_getLast? ht))

/-! ## Moving -/

/-- The token at another offset. -/
def Token.relocate (f : Nat → Nat) (t : Token) : Token :=
  { t with offset := f t.offset }

@[simp] theorem Token.relocate_kind (f : Nat → Nat) (t : Token) :
    (t.relocate f).kind = t.kind := rfl

theorem tokensFrom_add (n o : Nat) (bs : Bytes) :
    tokensFrom (o + n) 0 bs = (tokensFrom o 0 bs).map (Token.relocate (· + n)) := by
  induction o, bs using lexInduction with
  | nil o => simp [tokensFrom]
  | space o b bs hb ih =>
    have e : o + n + 1 = o + 1 + n := by omega
    rw [tokensFrom_space _ b bs hb, tokensFrom_space _ b bs hb, e, ih]
  | token o b kind more rest hb hlex ih =>
    have e : o + n + 1 + more.length = o + 1 + more.length + n := by omega
    rw [tokensFrom_lexeme _ b kind more rest hb hlex, tokensFrom_lexeme _ b kind more rest hb hlex,
      e, ih]
    rfl

theorem tokensFrom_relocate (o o' : Nat) (bs : Bytes) :
    tokensFrom o' 0 bs = (tokensFrom o 0 bs).map (Token.relocate (fun x => x - o + o')) := by
  have h := tokensFrom_add o 0 bs
  have h' := tokensFrom_add o' 0 bs
  rw [Nat.zero_add] at h h'
  rw [h, h', List.map_map]
  refine List.map_congr_left ?_
  intro t _
  simp only [Token.relocate, Function.comp_apply, Nat.add_sub_cancel]

end KeyTables
