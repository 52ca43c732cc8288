import KeyTables.Proofs.Block.KeyReading

/-! What the texts of keys look like.

* `KeyText`: a key is empty, an identifier, or an identifier followed by balanced parentheses.
* `keyText_of_keysFrom`: every key that is read from a source is of this form.
* `closes`: the parentheses of a text are balanced for the first time at its last character. -/
namespace KeyTables
set_option autoImplicit false

/-! ## Characters of tokens -/

theorem lossyChar_eq_iff (b : UInt8) (c : Char) (hc : c.toNat < 0x80) :
    lossyChar b = c ↔ b.toNat = c.toNat := by
  rw [lossyChar]
  split
  · next hb =>
    have e := toNat_ofNat_ascii b hb
    constructor
    · intro h
      rw [← h, e]
    · intro h
      rw [h, Char.ofNat_toNat]
  · next hb =>
    constructor
    · intro h
      rw [← h] at hc
      exact absurd hc (by decide)
    · intro h
      omega

/-- A character that can stand in a token outside comments: one of ASCII that is no space, or the
replacement of a stray byte. -/
def isInk (c : Char) : Bool :=
  c == '\ufffd' || (decide (c.toNat < 0x80) && !isSpaceByte (UInt8.ofNat c.toNat))

theorem isInk_lossyChar (b : UInt8) (h : isSpaceByte b = false) : isInk (lossyChar b) = true := by
  rw [isInk, lossyChar]
  split
  · next hb =>
    have e := toNat_ofNat_ascii b hb
    simp only [e, UInt8.ofNat_toNat, h, hb]
    simp
  · simp

theorem not_lineFeed_of_ink (c : Char) (h : isInk c = true) : c ≠ '\n' := by
  intro e
  subst e
  exact absurd h (by decide)

theorem isSpaceByte_of_stray (b : UInt8) (h : isStray b = true) : isSpaceByte b = false := by
  simp only [isStray, Bool.and_eq_true, Bool.not_eq_true'] at h
  exact h.1.1

theorem ink_of_spelled (kind : Token.Kind) (lexeme : Bytes) (h : Token.Spelled kind lexeme)
    (hc : kind ≠ .comment) : ∀ c ∈ lexeme.map lossyChar, isInk c = true := by
  intro c hmem
  obtain ⟨b, hb, rfl⟩ := List.mem_map.mp hmem
  refine isInk_lossyChar b ?_
  cases h with
  | mark b' kind hp =>
    rw [List.mem_singleton.mp hb]
    exact isSpaceByte_of_mark b' kind hp
  | comment body => exact absurd rfl hc
  | word _ _ hword => exact isSpaceByte_of_word b (hword b hb)
  | stray b' hstray =>
    rw [List.mem_singleton.mp hb]
    exact isSpaceByte_of_stray b' hstray

/-! ## Parentheses -/

/-- What a character adds to the number of open parentheses. -/
def parenChar (c : Char) : Int :=
  if c = '(' then 1 else if c = ')' then -1 else 0

/-- With `depth` parentheses open, the last character is the first closing one to leave none open. -/
def closes : (depth : Int) → Text → Bool
  | _, [] => false
  | depth, c :: cs =>
    if c = ')' ∧ depth + parenChar c = 0 then cs.isEmpty else closes (depth + parenChar c) cs

theorem closes_flat (depth : Int) (w s : Text) (h : ∀ c ∈ w, c ≠ '(' ∧ c ≠ ')') :
    closes depth (w ++ s) = closes depth s := by
  induction w with
  | nil => rfl
  | cons c w ih =>
    obtain ⟨h1, h2⟩ := h c List.mem_cons_self
    have hp : parenChar c = 0 := by simp [parenChar, h1, h2]
    rw [List.cons_append, closes, if_neg (fun hc => h2 hc.1), hp, Int.add_zero,
      ih (fun x hx => h x (List.mem_cons_of_mem c hx))]

theorem not_paren_lossyChar (b : UInt8) (h1 : b ≠ 0x28) (h2 : b ≠ 0x29) :
    lossyChar b ≠ '(' ∧ lossyChar b ≠ ')' := by
  refine ⟨fun h => h1 ?_, fun h => h2 ?_⟩
  · exact UInt8.toNat_inj.mp ((lossyChar_eq_iff b '(' (by decide)).mp h)
  · exact UInt8.toNat_inj.mp ((lossyChar_eq_iff b ')' (by decide)).mp h)

/-- A token that does not end a compound key adds its step to the depth. -/
theorem closes_spelled (depth : Int) (kind : Token.Kind) (lexeme : Bytes) (s : Text)
    (h : Token.Spelled kind lexeme) (hc : kind ≠ .comment)
    (hopen : ¬ (kind = .rparen ∧ depth + Cursor.parenStep kind = 0)) :
    closes depth (lexeme.map lossyChar ++ s) = closes (depth + Cursor.parenStep kind) s := by
  cases h with
  | mark b kind hp =>
    have hb := mark_all (fun b kind => decide (parenChar (lossyChar b) = Cursor.parenStep kind ∧
      (lossyChar b = ')' → kind = .rparen))) (by decide) b kind hp
    obtain ⟨hstep, hclose⟩ := of_decide_eq_true hb
    rw [List.map_singleton, List.singleton_append, closes, hstep,
      if_neg (fun hx => hopen ⟨hclose hx.1, hx.2⟩)]
  | comment body => exact absurd rfl hc
  | word _ _ hword =>
    rw [(parenStep_wordKind lexeme).1, Int.add_zero]
    refine closes_flat depth _ s ?_
    intro c hmem
    obtain ⟨b, hb, rfl⟩ := List.mem_map.mp hmem
    obtain ⟨h1, h2⟩ := not_paren_of_word b (hword b hb)
    exact not_paren_lossyChar b h1 h2
  | stray b hstray =>
    obtain ⟨h1, h2⟩ := not_paren_of_stray b hstray
    rw [show Cursor.parenStep .ident = 0 from rfl, Int.add_zero]
    refine closes_flat depth _ s ?_
    intro c hmem
    rw [List.map_singleton, List.mem_singleton] at hmem
    rw [hmem]
    exact not_paren_lossyChar b h1 h2

theorem lexeme_of_rparen (t : Token) (h : Token.Spelled t.kind t.lexeme)
    (hk : t.kind = .rparen) : t.lexeme = [0x29] := by
  rw [hk] at h
  obtain ⟨b, hb, hp⟩ := lexeme_of_mark _ _ h rfl
  have := mark_all (fun b kind => decide (kind = .rparen → b = 0x29)) (by decide) b _ hp
  rw [hb, of_decide_eq_true this rfl]

theorem closes_of_compoundFrom (depth : Int) (ts : List Token) (s : Text) (rest : List Token)
    (hts : ∀ t ∈ ts, Token.Spelled t.kind t.lexeme)
    (h : Cursor.compoundFrom depth ts = some (s, rest)) :
    closes depth s = true ∧ ∀ c ∈ s, isInk c = true := by
  induction ts generalizing depth s with
  | nil => simp [Cursor.compoundFrom] at h
  | cons t ts ih =>
    have ht := hts t List.mem_cons_self
    have htail := fun depth s => ih depth s (fun x hx => hts x (List.mem_cons_of_mem t hx))
    by_cases hc : t.kind = .comment
    · rw [compoundFrom_comment depth t ts hc] at h
      exact htail depth s h
    · have htext := Token.Spelled.text_eq t ht hc
      have hink := ink_of_spelled t.kind t.lexeme ht hc
      rw [← htext] at hink
      by_cases hend : t.kind = .rparen ∧ depth + Cursor.parenStep t.kind = 0
      · rw [compoundFrom_close depth t ts hend, Option.some.injEq, Prod.mk.injEq] at h
        rw [← h.1]
        refine ⟨?_, hink⟩
        have hd : depth + parenChar ')' = 0 := by
          have := hend.2
          rw [hend.1] at this
          exact this
        rw [htext, lexeme_of_rparen t ht hend.1, List.map_singleton,
          (lossyChar_eq_iff 0x29 ')' (by decide)).mpr rfl, closes, if_pos ⟨rfl, hd⟩]
        rfl
      · rw [compoundFrom_step depth t ts hc hend, Option.map_eq_some_iff] at h
        obtain ⟨⟨s', rest'⟩, hr, he⟩ := h
        obtain ⟨rfl, rfl⟩ := Prod.mk.inj he
        obtain ⟨h1, h2⟩ := htail _ _ hr
        refine ⟨?_, ?_⟩
        · rw [htext, closes_spelled depth t.kind t.lexeme s' ht hc hend]
          exact h1
        · intro c hmem
          rcases List.mem_append.mp hmem with hmem | hmem
          · exact hink c hmem
          · exact h2 c hmem

/-! ## Keys -/

/-- The text of an identifier. -/
def IdentText (w : Text) : Prop :=
  ∃ lexeme, Token.Spelled .ident lexeme ∧ w = lexeme.map lossyChar

/-- An identifier is in ASCII and spelled as it reads, or it is the replacement of a stray byte. -/
theorem IdentText.cases {w : Text} (h : IdentText w) :
    isAscii w = true ∧ Token.Spelled .ident (encode w) ∨ w = ['\ufffd'] := by
  obtain ⟨lexeme, hs, rfl⟩ := h
  by_cases hlow : ∀ b ∈ lexeme, b.toNat < 0x80
  · obtain ⟨h1, h2⟩ := isAscii_lossy lexeme hlow
    rw [h2]
    exact Or.inl ⟨h1, hs⟩
  · refine Or.inr ?_
    generalize hk : Token.Kind.ident = kind at hs
    cases hs with
    | mark b kind hp => exact absurd (by simpa using mark_lt b kind hp) hlow
    | comment body => simp at hk
    | word _ _ hword => exact absurd (fun b hb => isWordByte_lt b (hword b hb)) hlow
    | stray b hb =>
      rw [List.map_singleton, lossyChar, if_neg (by simpa using hlow)]

inductive KeyText : Text → Prop
  | unassigned : KeyText []
  | plain (w : Text) (h : IdentText w) : KeyText w
  | compound (w body : Text) (h : IdentText w) (ink : ∀ c ∈ body, isInk c = true)
      (hc : closes 0 ('(' :: body) = true) : KeyText (w ++ '(' :: body)

theorem IdentText.ink {w : Text} (h : IdentText w) : ∀ c ∈ w, isInk c = true := by
  obtain ⟨lexeme, hs, rfl⟩ := h
  exact ink_of_spelled _ lexeme hs (by simp)

theorem KeyText.ink {k : Text} (h : KeyText k) : ∀ c ∈ k, isInk c = true := by
  intro c hc
  cases h with
  | unassigned => simp at hc
  | plain w h => exact h.ink c hc
  | compound w body h ink hclose =>
    rcases List.mem_append.mp hc with hc | hc
    · exact h.ink c hc
    · rcases List.mem_cons.mp hc with rfl | hc
      · rfl
      · exact ink c hc

theorem identText_of_spelled (t : Token) (h : Token.Spelled t.kind t.lexeme)
    (hk : t.kind = .ident) : IdentText t.text := by
  have htext := Token.Spelled.text_eq t h (by rw [hk]; simp)
  rw [hk] at h
  exact ⟨t.lexeme, h, htext⟩

/-- The text that follows the identifier of a compound key starts with a parenthesis. -/
theorem compoundFrom_lparen (t : Token) (ts : List Token) (s : Text) (rest : List Token)
    (ht : Token.Spelled t.kind t.lexeme) (hk : t.kind = .lparen)
    (h : Cursor.compoundFrom 0 (t :: ts) = some (s, rest)) : ∃ body, s = '(' :: body := by
  rw [compoundFrom_step 0 t ts (by rw [hk]; simp) (by rw [hk]; simp), Option.map_eq_some_iff] at h
  obtain ⟨r, -, he⟩ := h
  have htext := Token.Spelled.text_eq t ht (by rw [hk]; simp)
  rw [hk] at ht
  obtain ⟨b, hb, hp⟩ := lexeme_of_mark _ _ ht rfl
  have := mark_all (fun b kind => decide (kind = .lparen → lossyChar b = '(')) (by decide) b _ hp
  rw [hb, List.map_singleton, of_decide_eq_true this rfl] at htext
  rw [htext] at he
  exact ⟨r.1, (Prod.mk.inj he).1.symm⟩

theorem keyText_of_keysFrom (ts : List Token) (keys : List Text) (rest : List Token)
    (hts : ∀ t ∈ ts, Token.Spelled t.kind t.lexeme)
    (h : Cursor.keysFrom ts = some (keys, rest)) : ∀ k ∈ keys, KeyText k := by
  induction ts using Cursor.keysInduction generalizing keys with
  | nil =>
    rw [Cursor.keysFrom] at h
    simp at h
  | rparen t ts h1 =>
    rw [Cursor.keysFrom_rparen t ts h1] at h
    obtain ⟨rfl, -⟩ := Prod.mk.inj (Option.some.inj h)
    simp
  | blank t ts h2 ih =>
    rw [Cursor.keysFrom_blank t ts h2, Option.map_eq_some_iff] at h
    obtain ⟨⟨keys', rest'⟩, hr, he⟩ := h
    obtain ⟨rfl, rfl⟩ := Prod.mk.inj he
    have hrest := ih keys' (fun x hx => hts x (List.mem_cons_of_mem t hx)) hr
    intro k hk
    rcases List.mem_cons.mp hk with rfl | hk
    · exact .unassigned
    · exact hrest k hk
  | plain t ts h3 hp ih =>
    rw [Cursor.keysFrom_plain t ts h3 hp, Option.map_eq_some_iff] at h
    obtain ⟨⟨keys', rest'⟩, hr, he⟩ := h
    obtain ⟨rfl, rfl⟩ := Prod.mk.inj he
    have hrest := ih keys' (fun x hx => hts x (List.mem_cons_of_mem t hx)) hr
    have hw := identText_of_spelled t (hts t List.mem_cons_self) h3
    intro k hk
    rcases List.mem_cons.mp hk with rfl | hk
    · exact .plain t.text hw
    · exact hrest k hk
  | compound t ts h3 hp ih =>
    rw [Cursor.keysFrom_compound t ts h3 hp, Option.bind_eq_some_iff] at h
    obtain ⟨⟨s, closing⟩, hc, hk⟩ := h
    rw [Option.map_eq_some_iff] at hk
    obtain ⟨⟨keys', rest'⟩, hr, he⟩ := hk
    obtain ⟨rfl, rfl⟩ := Prod.mk.inj he
    have htail : ∀ x ∈ ts, Token.Spelled x.kind x.lexeme :=
      fun x hx => hts x (List.mem_cons_of_mem t hx)
    have hclosing : ∀ x ∈ closing.tail, Token.Spelled x.kind x.lexeme := by
      obtain ⟨inner, close, after, rfl, rfl, -, -⟩ := Cursor.compoundFrom_local 0 ts s closing hc
      intro x hx
      exact htail x (List.mem_append_right inner (List.mem_of_mem_tail hx))
    have hrest := ih (s, closing) hc keys' hclosing hr
    have hw := identText_of_spelled t (hts t List.mem_cons_self) h3
    obtain ⟨h1, h2⟩ := closes_of_compoundFrom 0 ts s closing htail hc
    obtain ⟨body, rfl⟩ : ∃ body, s = '(' :: body := by
      cases ts with
      | nil => simp at hp
      | cons u us =>
        exact compoundFrom_lparen u us s closing (htail u List.mem_cons_self)
          (by simpa using hp) hc
    intro k hk
    rcases List.mem_cons.mp hk with rfl | hk
    · exact .compound t.text body hw (fun c hcm => h2 c (List.mem_cons_of_mem _ hcm)) h1
    · exact hrest k hk
  | other t ts h1 h2 h3 ih =>
    rw [Cursor.keysFrom_other t ts h1 h2 h3] at h
    exact ih keys (fun x hx => hts x (List.mem_cons_of_mem t hx)) h

end KeyTables
