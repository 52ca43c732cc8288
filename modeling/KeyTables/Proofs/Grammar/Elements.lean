import KeyTables.Proofs.Block.ReadBack

/-! Sources written element by element. An element is a white space, a comment with the line feed
that ends it, or a lexeme: a bracket or separator, a reserved word, a run of underscores or a plain
identifier.

* `printed`: the bytes of elements in a row.
* `placed`: the tokens they stand for, each with its offset.
* `isSpaced`: no two words touch.
* `tokensFrom_printed`: elements whose words do not touch are cut into just these tokens. -/
namespace KeyTables.Grammar
set_option autoImplicit false

/-! ## White space and comments -/

inductive Space where
  | blank | tab | lineFeed | carriageReturn

def Space.byte : Space → UInt8
  | .blank => 0x20
  | .tab => 0x09
  | .lineFeed => 0x0A
  | .carriageReturn => 0x0D

/-- Two slashes, a body and the line feed that ends it. -/
structure Comment where
  body : Bytes
  oneLine : 0x0A ∉ body

def Comment.bytes (c : Comment) : Bytes :=
  0x2F :: 0x2F :: (c.body ++ [0x0A])

/-- What may stand between lexemes. -/
inductive Trivium where
  | space (s : Space)
  | comment (c : Comment)

/-! ## Lexemes -/

inductive Punctuation where
  | lparen | rparen | lbracket | rbracket | lbrace | rbrace | comma | equals

def Punctuation.char : Punctuation → Char
  | .lparen => '('
  | .rparen => ')'
  | .lbracket => '['
  | .rbracket => ']'
  | .lbrace => '\x7b'
  | .rbrace => '\x7d'
  | .comma => ','
  | .equals => '='

def Punctuation.kind : Punctuation → Token.Kind
  | .lparen => .lparen
  | .rparen => .rparen
  | .lbracket => .lbracket
  | .rbracket => .rbracket
  | .lbrace => .lbrace
  | .rbrace => .rbrace
  | .comma => .comma
  | .equals => .equals

inductive Keyword where
  | layout | const | progmem

def Keyword.text : Keyword → Text
  | .layout => ['L', 'A', 'Y', 'O', 'U', 'T']
  | .const => ['c', 'o', 'n', 's', 't']
  | .progmem => ['P', 'R', 'O', 'G', 'M', 'E', 'M']

def Keyword.kind : Keyword → Token.Kind
  | .layout => .layout
  | .const => .const
  | .progmem => .progmem

def Keyword.all : List Keyword :=
  [.layout, .const, .progmem]

/-- Letters, digits and underscores. -/
def isWordText (t : Text) : Bool :=
  t.all fun c => c.isAlphanum || c == '_'

/-- A plain identifier: a word that is not reserved and not made of underscores only. -/
structure Ident where
  text : Text
  word : isWordText text = true
  free : text ∉ Keyword.all.map Keyword.text
  plain : text.all (· == '_') = false

inductive Lexeme where
  | punctuation (p : Punctuation)
  | keyword (k : Keyword)
  /-- `more + 1` underscores. -/
  | blank (more : Nat)
  | ident (i : Ident)

namespace Lexeme

def text : Lexeme → Text
  | punctuation p => [p.char]
  | keyword k => k.text
  | blank more => List.replicate (more + 1) '_'
  | ident i => i.text

def kind : Lexeme → Token.Kind
  | punctuation p => p.kind
  | keyword k => k.kind
  | blank _ => .blank
  | ident _ => .ident

def isWord : Lexeme → Bool
  | punctuation _ => false
  | keyword _ | blank _ | ident _ => true

def token (o : Nat) (l : Lexeme) : Token :=
  ⟨l.kind, o, encode l.text⟩

@[simp] theorem token_kind (o : Nat) (l : Lexeme) : (l.token o).kind = l.kind := rfl

@[simp] theorem kind_punctuation (p : Punctuation) : (punctuation p).kind = p.kind := rfl

end Lexeme

/-! ## Elements -/

inductive Element where
  | trivium (t : Trivium)
  | lexeme (l : Lexeme)

namespace Element

def bytes : Element → Bytes
  | trivium (.space s) => [s.byte]
  | trivium (.comment c) => c.bytes
  | lexeme l => encode l.text

/-- The tokens of an element at `o`. -/
def tokens (o : Nat) : Element → List Token
  | trivium (.space _) => []
  | trivium (.comment c) => [⟨.comment, o, 0x2F :: 0x2F :: c.body⟩]
  | lexeme l => [l.token o]

/-- What an element adds to the text of a key. -/
def text : Element → Text
  | trivium _ => []
  | lexeme l => l.text

def kind? : Element → Option Token.Kind
  | trivium _ => none
  | lexeme l => some l.kind

def isWord : Element → Bool
  | trivium _ => false
  | lexeme l => l.isWord

end Element

def printed (es : List Element) : Bytes :=
  es.flatMap Element.bytes

/-- The tokens of elements that start at `o`. -/
def placed : (o : Nat) → List Element → List Token
  | _, [] => []
  | o, e :: es => e.tokens o ++ placed (o + e.bytes.length) es

/-- No word follows another one directly. The flag tells whether a word stands in front. -/
def isSpaced : (word : Bool) → List Element → Bool
  | _, [] => true
  | word, e :: es => !(word && e.isWord) && isSpaced e.isWord es

@[simp] theorem printed_nil : printed [] = [] := rfl

@[simp] theorem printed_cons (e : Element) (es : List Element) :
    printed (e :: es) = e.bytes ++ printed es :=
  List.flatMap_cons

@[simp] theorem printed_append (es fs : List Element) :
    printed (es ++ fs) = printed es ++ printed fs :=
  List.flatMap_append

theorem placed_append (o : Nat) (es fs : List Element) :
    placed o (es ++ fs) = placed o es ++ placed (o + (printed es).length) fs := by
  induction es generalizing o with
  | nil => rfl
  | cons e es ih =>
    rw [List.cons_append, placed, ih, placed, printed_cons, List.length_append, Nat.add_assoc,
      List.append_assoc]

/-! ## Words -/

theorem toNat_lt_of_wordChar (c : Char) (h : (c.isAlphanum || c == '_') = true) :
    c.toNat < 0x80 ∧ isWordByte (UInt8.ofNat c.toNat) = true := by
  have hrange : 0x30 ≤ c.toNat ∧ c.toNat ≤ 0x39 ∨ 0x41 ≤ c.toNat ∧ c.toNat ≤ 0x5A ∨
      0x61 ≤ c.toNat ∧ c.toNat ≤ 0x7A ∨ c.toNat = 0x5F := by
    change ((decide (65 ≤ c.val ∧ c.val ≤ 90) || decide (97 ≤ c.val) && decide (c.val ≤ 122)) ||
      decide (48 ≤ c.val) && decide (c.val ≤ 57) || c == '_') = true at h
    simp only [Bool.or_eq_true, Bool.and_eq_true, decide_eq_true_eq, beq_iff_eq,
      UInt32.le_iff_toNat_le] at h
    rcases h with ((h | h) | h) | rfl
    · exact Or.inr (Or.inl h)
    · exact Or.inr (Or.inr (Or.inl h))
    · exact Or.inl h
    · exact Or.inr (Or.inr (Or.inr rfl))
  have hlt : c.toNat < 0x80 := by omega
  refine ⟨hlt, ?_⟩
  simp only [isWordByte, inRanges, toNat_ofNat_lt c.toNat (by omega), List.any_cons, List.any_nil,
    Bool.or_false, Bool.or_eq_true, Bool.and_eq_true, decide_eq_true_eq]
  omega

theorem isAscii_of_wordText (t : Text) (h : isWordText t = true) : isAscii t = true := by
  refine List.all_eq_true.mpr ?_
  intro c hc
  exact decide_eq_true (toNat_lt_of_wordChar c (List.all_eq_true.mp h c hc)).1

theorem isWordByte_of_wordText (t : Text) (h : isWordText t = true) :
    ∀ b ∈ encode t, isWordByte b = true := by
  induction t with
  | nil => simp [encode]
  | cons c t ih =>
    rw [isWordText, List.all_cons, Bool.and_eq_true] at h
    obtain ⟨hlt, hbyte⟩ := toNat_lt_of_wordChar c h.1
    rw [encode_cons_ascii c t hlt]
    intro b hb
    rcases List.mem_cons.mp hb with rfl | hb
    · exact hbyte
    · exact ih h.2 b hb

theorem all_underscore_encode (t : Text) (h : isAscii t = true) :
    (encode t).all (· == 0x5F) = t.all (· == '_') := by
  induction t with
  | nil => rfl
  | cons c t ih =>
    obtain ⟨hc, ht⟩ := (isAscii_cons c t).mp h
    have hiff := ofNat_toNat_eq_iff c '_' hc (by decide)
    have hbeq : (UInt8.ofNat c.toNat == 0x5F) = (c == '_') := by
      rw [Bool.eq_iff_iff, beq_iff_eq, beq_iff_eq]
      exact hiff
    rw [encode_cons_ascii c t hc, List.all_cons, List.all_cons, ih ht, hbeq]

/-- A word that is not reserved is told by its underscores. -/
theorem wordKind_of_free (t : Text) (ha : isAscii t = true)
    (hfree : t ∉ Keyword.all.map Keyword.text) :
    wordKind (encode t) = if t.all (· == '_') then .blank else .ident := by
  have hnone : reservedWords.lookup (encode t) = none := by
    rw [List.lookup_eq_none_iff]
    intro w hw
    have hwords : reservedWords = Keyword.all.map fun k => (encode k.text, k.kind) := rfl
    rw [hwords] at hw
    obtain ⟨k, hk, rfl⟩ := List.mem_map.mp hw
    rw [bne_iff_ne]
    intro he
    rw [encode_injective t k.text he] at hfree
    exact hfree (List.mem_map_of_mem hk)
  rw [wordKind, hnone, all_underscore_encode t ha]

namespace Lexeme

theorem eq_punctuation (l : Lexeme) (h : l.isWord = false) : ∃ p, l = punctuation p := by
  cases l with
  | punctuation p => exact ⟨p, rfl⟩
  | keyword k => simp [isWord] at h
  | blank more => simp [isWord] at h
  | ident i => simp [isWord] at h

theorem isWordText_text (l : Lexeme) (h : l.isWord = true) : isWordText l.text = true := by
  cases l with
  | punctuation p => simp [isWord] at h
  | keyword k => cases k <;> decide
  | blank more =>
    refine List.all_eq_true.mpr ?_
    intro c hc
    rw [(List.mem_replicate.mp hc).2]
    decide
  | ident i => exact i.word

theorem isAscii_text (l : Lexeme) : isAscii l.text = true := by
  cases hl : l.isWord with
  | true => exact isAscii_of_wordText _ (l.isWordText_text hl)
  | false =>
    obtain ⟨p, rfl⟩ := l.eq_punctuation hl
    cases p <;> decide

theorem wordKind_text (l : Lexeme) (h : l.isWord = true) : wordKind (encode l.text) = l.kind := by
  cases l with
  | punctuation p => simp [isWord] at h
  | keyword k => cases k <;> decide
  | blank more =>
    have hall : (List.replicate (more + 1) '_').all (· == '_') = true := by simp
    rw [wordKind_of_free _ (isAscii_text (.blank more)), text, hall]
    · rfl
    · intro hmem
      have hmixed : ∀ t ∈ Keyword.all.map Keyword.text, t.all (· == '_') = false := by decide
      exact Bool.false_ne_true ((hmixed _ hmem).symm.trans hall)
  | ident i =>
    rw [wordKind_of_free _ (isAscii_text (.ident i)) i.free, text, i.plain]
    rfl

theorem text_ne_nil (l : Lexeme) : l.text ≠ [] := by
  cases l with
  | punctuation p => simp [text]
  | keyword k => cases k <;> decide
  | blank more => simp [text, List.replicate_succ]
  | ident i =>
    intro h
    have hplain := i.plain
    rw [show i.text = [] from h] at hplain
    simp at hplain

theorem encode_text_ne_nil (l : Lexeme) : encode l.text ≠ [] := by
  intro h
  exact l.text_ne_nil (encode_injective _ _ h)

theorem encode_punctuation (p : Punctuation) :
    ∃ b, encode (punctuation p).text = [b] ∧ punctuation? b = some p.kind := by
  cases p
  · exact ⟨0x28, by decide, by decide⟩
  · exact ⟨0x29, by decide, by decide⟩
  · exact ⟨0x5B, by decide, by decide⟩
  · exact ⟨0x5D, by decide, by decide⟩
  · exact ⟨0x7B, by decide, by decide⟩
  · exact ⟨0x7D, by decide, by decide⟩
  · exact ⟨0x2C, by decide, by decide⟩
  · exact ⟨0x3D, by decide, by decide⟩

theorem spelled (l : Lexeme) : Token.Spelled l.kind (encode l.text) := by
  cases hl : l.isWord with
  | true =>
    rw [← l.wordKind_text hl]
    exact .word _ l.encode_text_ne_nil (isWordByte_of_wordText _ (l.isWordText_text hl))
  | false =>
    obtain ⟨p, rfl⟩ := l.eq_punctuation hl
    obtain ⟨b, hb, hp⟩ := encode_punctuation p
    rw [hb]
    exact .mark b p.kind hp

theorem kind_ne_comment (l : Lexeme) : l.kind ≠ .comment := by
  cases l with
  | punctuation p => cases p <;> decide
  | keyword k => cases k <;> decide
  | blank more => simp [kind]
  | ident i => simp [kind]

theorem token_text (o : Nat) (l : Lexeme) : (l.token o).text = l.text := by
  rw [Token.Spelled.text_eq (l.token o) l.spelled l.kind_ne_comment]
  exact map_lossyChar_encode l.text l.isAscii_text

/-- A lexeme is read back unless it is a word that goes on. -/
theorem tokensFrom_lexeme (o : Nat) (l : Lexeme) (rest : Bytes)
    (hrest : l.isWord = true → ∀ b ∈ rest.head?, isWordByte b = false) :
    tokensFrom o 0 (encode l.text ++ rest) =
      l.token o :: tokensFrom (o + (encode l.text).length) 0 rest := by
  cases hl : l.isWord with
  | true =>
    rw [tokensFrom_word o _ rest l.encode_text_ne_nil
      (isWordByte_of_wordText _ (l.isWordText_text hl)) (hrest hl), l.wordKind_text hl]
    rfl
  | false =>
    obtain ⟨p, rfl⟩ := l.eq_punctuation hl
    obtain ⟨b, hb, hp⟩ := encode_punctuation p
    rw [token, hb, List.singleton_append, tokensFrom_mark o b p.kind rest hp]
    rfl

end Lexeme

/-! ## Cutting -/

/-- Behind a word, elements that are spaced do not start with a word byte. -/
theorem head_printed (es : List Element) (rest : Bytes) (h : isSpaced true es = true)
    (hrest : ∀ b ∈ rest.head?, isWordByte b = false) :
    ∀ b ∈ (printed es ++ rest).head?, isWordByte b = false := by
  cases es with
  | nil => exact hrest
  | cons e es =>
    rw [isSpaced, Bool.true_and, Bool.and_eq_true, Bool.not_eq_true'] at h
    intro b hb
    cases e with
    | trivium t =>
      cases t with
      | space s =>
        obtain rfl : s.byte = b := by simpa [Element.bytes] using hb
        cases s <;> decide
      | comment c =>
        obtain rfl : 0x2F = b := by simpa [Element.bytes, Comment.bytes] using hb
        decide
    | lexeme l =>
      obtain ⟨p, rfl⟩ := l.eq_punctuation h.1
      obtain ⟨x, hx, hp⟩ := Lexeme.encode_punctuation p
      obtain rfl : x = b := by simpa [Element.bytes, hx] using hb
      have := mark_all (fun b _ => !isWordByte b) (by decide) x p.kind hp
      simpa using this

theorem tokensFrom_trivium (o : Nat) (t : Trivium) (rest : Bytes) :
    tokensFrom o 0 ((Element.trivium t).bytes ++ rest) = (Element.trivium t).tokens o ++
      tokensFrom (o + (Element.trivium t).bytes.length) 0 rest := by
  cases t with
  | space s =>
    have hs : isSpaceByte s.byte = true := by cases s <;> decide
    exact tokensFrom_space o s.byte rest hs
  | comment c =>
    have hbody : ∀ b ∈ c.body, isLineFeed b = false := by
      intro b hb
      rw [isLineFeed, beq_eq_false_iff_ne]
      intro he
      exact c.oneLine (he ▸ hb)
    have hbytes : c.bytes ++ rest = 0x2F :: 0x2F :: (c.body ++ 0x0A :: rest) := by
      simp [Comment.bytes]
    have hlen : o + c.bytes.length = o + 2 + c.body.length + 1 := by
      simp only [Comment.bytes, List.length_cons, List.length_append, List.length_nil]
      omega
    show tokensFrom o 0 (c.bytes ++ rest) = _
    rw [hbytes, tokensFrom_comment o c.body _ hbody (by simp [isLineFeed]),
      tokensFrom_space _ 0x0A rest rfl, ← hlen]
    rfl

/-- Elements whose words do not touch are cut into their tokens. -/
theorem tokensFrom_printed (word : Bool) (o : Nat) (es : List Element) (rest : Bytes)
    (h : isSpaced word es = true) (hrest : ∀ b ∈ rest.head?, isWordByte b = false) :
    tokensFrom o 0 (printed es ++ rest) =
      placed o es ++ tokensFrom (o + (printed es).length) 0 rest := by
  induction es generalizing word o with
  | nil => rfl
  | cons e es ih =>
    rw [isSpaced, Bool.and_eq_true] at h
    have htail := ih e.isWord (o + e.bytes.length) h.2
    have hcut : tokensFrom o 0 (e.bytes ++ (printed es ++ rest)) =
        e.tokens o ++ tokensFrom (o + e.bytes.length) 0 (printed es ++ rest) := by
      cases e with
      | trivium t => exact tokensFrom_trivium o t _
      | lexeme l =>
        refine l.tokensFrom_lexeme o _ ?_
        intro hl
        have hspaced : isSpaced true es = true := by
          have htail := h.2
          rwa [Element.isWord, hl] at htail
        exact head_printed es rest hspaced hrest
    rw [printed_cons, List.append_assoc, hcut, htail, placed, List.length_append, Nat.add_assoc,
      List.append_assoc]

end KeyTables.Grammar
