import KeyTables.Proofs.Text.Encoding
import KeyTables.Proofs.Token.Seam

/-! How tokens are spelled.

* `Token.Spelled`: the four ways in which the bytes of a token can look, and its kind for each.
* `spelled_of_mem`: every token of a source is spelled in one of them.
* `Token.Spelled.text_eq`: outside comments the text of a token is read byte by byte.
* `tokensFrom_comment`, `tokensFrom_spelled`: bytes that are spelled so give the token back. -/
namespace KeyTables
set_option autoImplicit false

/-! ## Classes of bytes -/

theorem isWordByte_lt (b : UInt8) (h : isWordByte b = true) : b.toNat < 0x80 := by
  simp only [isWordByte, inRanges, List.any_cons, List.any_nil, Bool.or_false, Bool.or_eq_true,
    Bool.and_eq_true, decide_eq_true_eq] at h
  omega

theorem isSpaceByte_of_word (b : UInt8) (h : isWordByte b = true) : isSpaceByte b = false := by
  refine Bool.eq_false_iff.mpr (fun hs => ?_)
  simp only [isSpaceByte, Bool.or_eq_true, beq_iff_eq] at hs
  rcases hs with ((hs | hs) | hs) | hs <;> subst hs <;> exact absurd h (by decide)

theorem isSlash_of_word (b : UInt8) (h : isWordByte b = true) : isSlash b = false := by
  refine Bool.eq_false_iff.mpr (fun hs => ?_)
  simp only [isSlash, beq_iff_eq] at hs
  subst hs
  exact absurd h (by decide)

/-- The eight brackets and separators. -/
def marks : List (UInt8 × Token.Kind) :=
  [(0x28, .lparen), (0x29, .rparen), (0x5B, .lbracket), (0x5D, .rbracket), (0x7B, .lbrace),
   (0x7D, .rbrace), (0x2C, .comma), (0x3D, .equals)]

theorem punctuation_mem (b : UInt8) (kind : Token.Kind) (h : punctuation? b = some kind) :
    (b, kind) ∈ marks := by
  unfold punctuation? at h
  repeat' split at h
  all_goals simp_all [marks]

/-- What holds of all marks holds of every byte that is one. -/
theorem mark_all (p : UInt8 → Token.Kind → Bool) (hp : marks.all (fun m => p m.1 m.2) = true)
    (b : UInt8) (kind : Token.Kind) (h : punctuation? b = some kind) : p b kind = true :=
  List.all_eq_true.mp hp (b, kind) (punctuation_mem b kind h)

theorem punctuation_of_word (b : UInt8) (h : isWordByte b = true) : punctuation? b = none := by
  cases hp : punctuation? b with
  | none => rfl
  | some kind =>
    have := mark_all (fun b _ => !isWordByte b) (by decide) b kind hp
    simp [h] at this

theorem isSpaceByte_of_mark (b : UInt8) (kind : Token.Kind) (h : punctuation? b = some kind) :
    isSpaceByte b = false := by
  have := mark_all (fun b _ => !isSpaceByte b) (by decide) b kind h
  simpa using this

theorem mark_lt (b : UInt8) (kind : Token.Kind) (h : punctuation? b = some kind) :
    b.toNat < 0x80 := by
  have := mark_all (fun b _ => decide (b.toNat < 0x80)) (by decide) b kind h
  simpa using this

theorem wordKind_ne_comment (w : Bytes) : wordKind w ≠ .comment := by
  rw [wordKind]
  split
  · next kind hk =>
    simp only [reservedWords, List.lookup_cons, List.lookup_nil] at hk
    grind
  · split <;> simp

/-- A byte that is a token by itself without being a bracket or separator. -/
def isStray (b : UInt8) : Bool :=
  !isSpaceByte b && !isWordByte b && (punctuation? b).isNone

theorem isStray_of_high (b : UInt8) (h : 0x80 ≤ b.toNat) : isStray b = true ∧ isSlash b = false := by
  have low : ∀ x : UInt8, x.toNat < 0x80 → b ≠ x := by
    intro x hx e
    subst e
    omega
  have hs : isSpaceByte b = false := by
    simp only [isSpaceByte, Bool.or_eq_false_iff, beq_eq_false_iff_ne]
    exact ⟨⟨⟨low _ (by decide), low _ (by decide)⟩, low _ (by decide)⟩, low _ (by decide)⟩
  have hw : isWordByte b = false := by
    refine Bool.eq_false_iff.mpr (fun hw => ?_)
    have := isWordByte_lt b hw
    omega
  have hp : punctuation? b = none := by
    cases hp : punctuation? b with
    | none => rfl
    | some kind =>
      have := mark_lt b kind hp
      omega
  refine ⟨by rw [isStray, hs, hw, hp]; rfl, ?_⟩
  simpa [isSlash] using low 0x2F (by decide)

/-! ## Shapes of tokens -/

/-- The bytes of a token by its kind: a bracket or separator, a comment, a word or a stray byte. -/
inductive Token.Spelled : Kind → Bytes → Prop
  | mark (b : UInt8) (kind : Kind) (h : punctuation? b = some kind) : Spelled kind [b]
  | comment (body : Bytes) : Spelled .comment (0x2F :: 0x2F :: body)
  | word (w : Bytes) (hw : w ≠ []) (h : ∀ b ∈ w, isWordByte b = true) : Spelled (wordKind w) w
  | stray (b : UInt8) (h : isStray b = true) : Spelled .ident [b]

theorem spelled_lexemeAt (b : UInt8) (bs : Bytes) (kind : Token.Kind) (more : Bytes)
    (hb : isSpaceByte b = false) (h : lexemeAt b bs = (kind, more)) :
    Token.Spelled kind (b :: more) := by
  rw [lexemeAt] at h
  split at h
  · next k hp =>
    obtain ⟨rfl, rfl⟩ := Prod.mk.inj h
    exact .mark b k hp
  · next hp =>
    split at h
    · next hs =>
      obtain ⟨rfl, rfl⟩ := Prod.mk.inj h
      obtain ⟨hb1, hb2⟩ := Bool.and_eq_true_iff.mp hs
      have e : b = 0x2F := by simpa [isSlash] using hb1
      subst e
      cases bs with
      | nil => simp at hb2
      | cons x bs =>
        have e : x = 0x2F := by simpa [isSlash] using hb2
        subst e
        rw [List.takeWhile_cons_of_pos (by rfl)]
        exact .comment _
    · split at h
      · next hw =>
        obtain ⟨hk, hm⟩ := Prod.mk.inj h
        simp only [hm] at hk
        subst hk
        refine .word (b :: more) (by simp) ?_
        intro x hx
        rcases List.mem_cons.mp hx with rfl | hx
        · exact hw
        · rw [← hm] at hx
          exact List.all_eq_true.mp List.all_takeWhile x hx
      · next hw =>
        obtain ⟨rfl, rfl⟩ := Prod.mk.inj h
        refine .stray b ?_
        simp [isStray, hb, hp, hw]

theorem lexemeAt_comment (b : UInt8) (more rest : Bytes)
    (h : lexemeAt b (more ++ rest) = (.comment, more)) :
    ∃ body, b = 0x2F ∧ more = 0x2F :: body ∧ (∀ x ∈ body, isLineFeed x = false) ∧
      ∀ x ∈ rest.head?, isLineFeed x = true := by
  have hb : isSpaceByte b = false ∧ isSlash b = true ∧
      (more ++ rest).takeWhile (fun x => !isLineFeed x) = more := by
    rw [lexemeAt] at h
    split at h
    · next k hp =>
      obtain ⟨rfl, -⟩ := Prod.mk.inj h
      have := mark_all (fun _ kind => kind != .comment) (by decide) b _ hp
      simp at this
    · split at h
      · next hs =>
        have hslash := (Bool.and_eq_true_iff.mp hs).1
        have e : b = 0x2F := by simpa [isSlash] using hslash
        exact ⟨by rw [e]; rfl, hslash, (Prod.mk.inj h).2⟩
      · split at h
        · exact absurd (Prod.mk.inj h).1 (wordKind_ne_comment _)
        · simp at h
  obtain ⟨hspace, hslash, hrun⟩ := hb
  obtain ⟨hmore, hrest⟩ := stop_of_takeWhile _ more rest hrun
  generalize hk : Token.Kind.comment = kind at h
  generalize hw : b :: more = w
  have hsp := spelled_lexemeAt b _ kind more hspace h
  rw [hw] at hsp
  cases hsp with
  | mark c kind hp =>
    have := mark_all (fun _ kind => kind != .comment) (by decide) c _ hp
    simp [← hk] at this
  | comment body =>
    obtain ⟨rfl, rfl⟩ := List.cons.inj hw
    refine ⟨body, rfl, rfl, ?_, ?_⟩
    · intro x hx
      simpa using hmore x (List.mem_cons_of_mem _ hx)
    · intro x hx
      simpa using hrest x hx
  | word _ _ _ => exact absurd hk.symm (wordKind_ne_comment _)
  | stray c _ => simp at hk

theorem lexemeAt_stray (b : UInt8) (rest : Bytes) (hp : punctuation? b = none)
    (h : lexemeAt b rest = (.ident, [])) : (isSlash b && rest.head?.any isSlash) = false := by
  rw [lexemeAt, hp] at h
  simp only at h
  split at h
  · simp at h
  · next hs => simpa using hs

theorem lexemeAt_of_stray (b : UInt8) (rest : Bytes) (h : isStray b = true)
    (hrest : (isSlash b && rest.head?.any isSlash) = false) : lexemeAt b rest = (.ident, []) := by
  simp only [isStray, Bool.and_eq_true, Bool.not_eq_true', Option.isNone_iff_eq_none] at h
  rw [lexemeAt, h.2, hrest, h.1.2]
  rfl

theorem spelled_of_mem (o : Nat) (bs : Bytes) (t : Token) (h : t ∈ tokensFrom o 0 bs) :
    Token.Spelled t.kind t.lexeme := by
  obtain ⟨a, b, more, rest, -, -, hlexeme, hb, hlex⟩ := lexemeAt_of_mem o bs t h
  rw [hlexeme]
  exact spelled_lexemeAt b _ t.kind more hb hlex

theorem lexeme_of_mark (kind : Token.Kind) (lexeme : Bytes) (h : Token.Spelled kind lexeme)
    (hm : kind.isMark = true) : ∃ b, lexeme = [b] ∧ punctuation? b = some kind := by
  cases h with
  | mark b kind hp => exact ⟨b, rfl, hp⟩
  | comment body => simp [Token.Kind.isMark] at hm
  | word _ _ _ => simp [wordKind_not_mark] at hm
  | stray b _ => simp [Token.Kind.isMark] at hm

theorem Token.Spelled.text_eq (t : Token) (h : Spelled t.kind t.lexeme) (hc : t.kind ≠ .comment) :
    t.text = t.lexeme.map lossyChar := by
  rw [Token.text]
  generalize t.lexeme = lexeme at h
  generalize t.kind = kind at h hc
  cases h with
  | mark b kind h => exact decodeLossy_singleton b
  | comment body => exact absurd rfl hc
  | word _ _ h => exact decodeLossy_ascii _ (fun b hb => isWordByte_lt b (h b hb))
  | stray b h => exact decodeLossy_singleton b

/-! ## Reading spellings -/

theorem tokensFrom_spaces (o : Nat) (ws rest : Bytes) (h : ∀ b ∈ ws, isSpaceByte b = true) :
    tokensFrom o 0 (ws ++ rest) = tokensFrom (o + ws.length) 0 rest := by
  induction ws generalizing o with
  | nil => rfl
  | cons b ws ih =>
    have hb := h b List.mem_cons_self
    have hws := ih (o + 1) (fun x hx => h x (List.mem_cons_of_mem b hx))
    have e : o + 1 + ws.length = o + (ws.length + 1) := by omega
    rw [List.cons_append, tokensFrom_space o b _ hb, hws, List.length_cons, e]

theorem lineFeed_encode (t : Text) (h : '\n' ∉ t) : ∀ b ∈ encode t, isLineFeed b = false := by
  intro b hb
  refine Bool.eq_false_iff.mpr (fun hlf => h ?_)
  obtain rfl : b = 0x0A := by simpa [isLineFeed] using hlf
  obtain ⟨before, after, hbytes⟩ := List.append_of_mem hb
  obtain ⟨s, u, rfl, -, -⟩ := encode_cut t before 0x0A after (by decide) hbytes
  exact List.mem_append_right s List.mem_cons_self

theorem tokensFrom_mark (o : Nat) (b : UInt8) (kind : Token.Kind) (rest : Bytes)
    (h : punctuation? b = some kind) :
    tokensFrom o 0 (b :: rest) = ⟨kind, o, [b]⟩ :: tokensFrom (o + 1) 0 rest := by
  have hlex := tokensFrom_lexeme o b kind [] rest (isSpaceByte_of_mark b kind h)
    (lexemeAt_punctuation b _ kind h)
  simpa using hlex

theorem tokensFrom_comment (o : Nat) (body rest : Bytes)
    (hbody : ∀ b ∈ body, isLineFeed b = false) (hrest : ∀ b ∈ rest.head?, isLineFeed b = true) :
    tokensFrom o 0 (0x2F :: 0x2F :: (body ++ rest)) =
      ⟨.comment, o, 0x2F :: 0x2F :: body⟩ :: tokensFrom (o + 2 + body.length) 0 rest := by
  have hrun : ((0x2F :: body) ++ rest).takeWhile (fun x => !isLineFeed x) = 0x2F :: body := by
    refine takeWhile_append_stop _ _ _ ?_ ?_
    · intro b hb
      rcases List.mem_cons.mp hb with rfl | hb
      · rfl
      · simp [hbody b hb]
    · intro b hb
      simp [hrest b hb]
  have hlex : lexemeAt 0x2F ((0x2F :: body) ++ rest) = (.comment, 0x2F :: body) := by
    rw [lexemeAt, hrun]
    rfl
  have := tokensFrom_lexeme o 0x2F .comment (0x2F :: body) rest rfl hlex
  have e : o + 1 + (0x2F :: body).length = o + 2 + body.length := by
    rw [List.length_cons]
    omega
  rwa [e] at this

theorem tokensFrom_word (o : Nat) (w rest : Bytes) (hw : w ≠ [])
    (h : ∀ b ∈ w, isWordByte b = true) (hrest : ∀ b ∈ rest.head?, isWordByte b = false) :
    tokensFrom o 0 (w ++ rest) = ⟨wordKind w, o, w⟩ :: tokensFrom (o + w.length) 0 rest := by
  cases w with
  | nil => exact absurd rfl hw
  | cons b more =>
    have hb := h b List.mem_cons_self
    have hrun : (more ++ rest).takeWhile isWordByte = more :=
      takeWhile_append_stop _ _ _ (fun x hx => h x (List.mem_cons_of_mem b hx)) hrest
    have hlex : lexemeAt b (more ++ rest) = (wordKind (b :: more), more) := by
      rw [lexemeAt, punctuation_of_word b hb, isSlash_of_word b hb, hb, hrun]
      rfl
    have := tokensFrom_lexeme o b _ more rest (isSpaceByte_of_word b hb) hlex
    have e : o + 1 + more.length = o + (b :: more).length := by
      rw [List.length_cons]
      omega
    rwa [e] at this

theorem tokensFrom_stray (o : Nat) (b : UInt8) (rest : Bytes) (h : isStray b = true)
    (hrest : isSlash b = true → ∀ x ∈ rest.head?, isSlash x = false) :
    tokensFrom o 0 (b :: rest) = ⟨.ident, o, [b]⟩ :: tokensFrom (o + 1) 0 rest := by
  have hslash : (isSlash b && rest.head?.any isSlash) = false := by
    cases hb : isSlash b with
    | false => rfl
    | true =>
      cases hx : rest.head? with
      | none => rfl
      | some x => simpa using hrest hb x hx
  have hspace : isSpaceByte b = false := by
    simp only [isStray, Bool.and_eq_true, Bool.not_eq_true'] at h
    exact h.1.1
  simpa using tokensFrom_lexeme o b .ident [] rest hspace (lexemeAt_of_stray b _ h hslash)

/-- A token that is no comment is read back when neither a word byte nor a slash follows. -/
theorem tokensFrom_spelled (o : Nat) (kind : Token.Kind) (lexeme rest : Bytes)
    (h : Token.Spelled kind lexeme) (hc : kind ≠ .comment)
    (hrest : ∀ b ∈ rest.head?, isWordByte b = false ∧ isSlash b = false) :
    tokensFrom o 0 (lexeme ++ rest) =
      ⟨kind, o, lexeme⟩ :: tokensFrom (o + lexeme.length) 0 rest := by
  cases h with
  | mark b kind hp => exact tokensFrom_mark o b kind rest hp
  | comment body => exact absurd rfl hc
  | word _ hw hword =>
    exact tokensFrom_word o lexeme rest hw hword (fun b hb => (hrest b hb).1)
  | stray b hb => exact tokensFrom_stray o b rest hb (fun _ x hx => (hrest x hx).2)

end KeyTables
