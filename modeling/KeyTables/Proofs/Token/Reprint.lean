import KeyTables.Proofs.Text.Lines
import KeyTables.Proofs.Token.Code

/-! Printing tokens and cutting the print into tokens again.

* `printed`: the texts of the tokens of a source, each on a line of its own.
* `forms_text`: the text of a token gives this token back, whatever stands on the next line.
* `tokens_printed`: so the print has the tokens of the source, and a token has its kind from its text
  alone. -/
namespace KeyTables
set_option autoImplicit false

/-- The texts of the tokens of a source, on a line of its own each. -/
def printed (d : Bytes) : Text :=
  List.intercalate ['\n'] ((tokens d).dropLast.map Token.text)

theorem form_tokens (d : Bytes) : (tokens d).map Token.form = forms d ++ [(.eof, [])] := by
  rw [tokens, List.map_append]
  rfl

/-! ## One token -/

theorem lineFeed_lossy (bs : Bytes) (h : ∀ b ∈ bs, isLineFeed b = false) : '\n' ∉ decodeLossy bs := by
  intro hmem
  obtain hlost | hbytes := mem_decodeLossy '\n' 0 bs hmem
  · exact absurd hlost (by decide)
  · have hfeed : isLineFeed 0x0A = false := h 0x0A (hbytes 0x0A (by decide))
    exact absurd hfeed (by decide)

theorem ascii_of_isAscii (b : UInt8) (h : isAscii [lossyChar b] = true) : b.toNat < 0x80 := by
  refine Nat.lt_of_not_le fun hhigh => ?_
  rw [lossyChar, if_neg (Nat.not_lt.mpr hhigh)] at h
  exact absurd h (by decide)

/-- A token in ASCII is printed as it is spelled. -/
theorem encode_text (t : Token) (h : Token.Spelled t.kind t.lexeme) (hc : t.kind ≠ .comment)
    (hascii : isAscii t.text = true) : encode t.text = t.lexeme := by
  have htext := Token.Spelled.text_eq t h hc
  have hlow : ∀ b ∈ t.lexeme, b.toNat < 0x80 := by
    rw [htext] at hascii
    intro b hb
    apply ascii_of_isAscii
    rw [isAscii, List.all_eq_true] at hascii
    simpa [isAscii] using hascii _ (List.mem_map_of_mem hb)
  rw [htext]
  exact (isAscii_lossy _ hlow).2

theorem lexeme_of_comment (lexeme : Bytes) (h : Token.Spelled .comment lexeme) :
    ∃ body, lexeme = 0x2F :: 0x2F :: body := by
  generalize hk : Token.Kind.comment = kind at h
  cases h with
  | mark b kind hp =>
    have := mark_all (fun _ kind => kind != .comment) (by decide) b kind hp
    simp [← hk] at this
  | comment body => exact ⟨body, rfl⟩
  | word _ _ _ => exact absurd hk.symm (wordKind_ne_comment lexeme)
  | stray b _ => simp at hk

theorem decodeLossy_slashes (body : Bytes) :
    decodeLossy (0x2F :: 0x2F :: body) = '/' :: '/' :: decodeLossy body := by
  rw [decodeLossy, decodeLossyFrom, pieceAt_ascii 0x2F _ (by decide), decodeLossyFrom,
    pieceAt_ascii 0x2F _ (by decide)]
  rfl

/-- What of a comment is no text has been replaced once, and is kept from then on. -/
theorem forms_comment (body rest : Bytes) (hbody : ∀ b ∈ body, isLineFeed b = false)
    (hrest : ∀ b ∈ rest.head?, isLineFeed b = true) :
    forms (encode ('/' :: '/' :: decodeLossy body) ++ rest) =
      (.comment, '/' :: '/' :: decodeLossy body) :: forms rest := by
  have hslashes : encode ('/' :: '/' :: decodeLossy body) =
      0x2F :: 0x2F :: encode (decodeLossy body) := rfl
  have hlines := lineFeed_encode _ (lineFeed_lossy body hbody)
  rw [hslashes, List.cons_append, List.cons_append, forms, tokensFrom_comment 0 _ rest hlines hrest,
    List.map_cons, map_form, Token.form, Token.text, decodeLossy_slashes, decodeLossy_encode]

theorem forms_text (d : Bytes) (t : Token) (ht : t ∈ tokensFrom 0 0 d)
    (hascii : t.kind ≠ .comment → isAscii t.text = true) (rest : Bytes)
    (hrest : ∀ b ∈ rest.head?, isLineFeed b = true) :
    forms (encode t.text ++ rest) = t.form :: forms rest := by
  have hspelled := spelled_of_mem 0 d t ht
  by_cases hc : t.kind = .comment
  · have hlines := not_lineFeed_of_mem 0 d t ht
    rw [hc] at hspelled
    obtain ⟨body, hlexeme⟩ := lexeme_of_comment t.lexeme hspelled
    have hbody : ∀ b ∈ body, isLineFeed b = false := by
      intro b hb
      apply hlines
      rw [hlexeme]
      exact List.mem_cons_of_mem _ (List.mem_cons_of_mem _ hb)
    rw [Token.form, hc, Token.text, hlexeme, decodeLossy_slashes]
    exact forms_comment body rest hbody hrest
  · have hapart : ∀ b ∈ rest.head?, isWordByte b = false ∧ isSlash b = false := by
      intro b hb
      obtain rfl : b = 0x0A := by simpa [isLineFeed] using hrest b hb
      exact ⟨by decide, by decide⟩
    rw [encode_text t hspelled hc (hascii hc), forms,
      tokensFrom_spelled 0 t.kind t.lexeme rest hspelled hc hapart, List.map_cons, map_form]
    rfl

/-! ## Kinds -/

/-- Only a byte that is no character of its own is shown outside ASCII. -/
theorem spelled_lost (t : Token) (h : Token.Spelled t.kind t.lexeme) (hc : t.kind ≠ .comment)
    (hascii : isAscii t.text = false) : t.kind = .ident ∧ t.text = ['\ufffd'] := by
  have htext := Token.Spelled.text_eq t h hc
  rw [htext] at hascii ⊢
  generalize t.lexeme = lexeme at h hascii
  generalize t.kind = kind at h hc
  have hhigh : ¬ ∀ b ∈ lexeme, b.toNat < 0x80 := by
    intro hlow
    rw [(isAscii_lossy lexeme hlow).1] at hascii
    exact absurd hascii (by simp)
  cases h with
  | mark b kind hp => exact absurd (by simpa using mark_lt b kind hp) hhigh
  | comment body => exact absurd rfl hc
  | word _ _ hword => exact absurd (fun b hb => isWordByte_lt b (hword b hb)) hhigh
  | stray b hb =>
    have hlost : lossyChar b = '\ufffd' := if_neg (by simpa using hhigh)
    exact ⟨rfl, congrArg (fun c => [c]) hlost⟩

/-- The kind of the first token of a text is the kind of the token with this text. -/
theorem kind_of_text (d : Bytes) (t : Token) (ht : t ∈ tokens d) :
    ((tokens (encode t.text)).map Token.form).head?.map Prod.fst = some t.kind := by
  rw [tokens, List.mem_append, List.mem_singleton] at ht
  obtain ht | rfl := ht
  · by_cases hascii : t.kind ≠ .comment → isAscii t.text = true
    · have hforms := forms_text d t ht hascii [] (by simp)
      rw [List.append_nil] at hforms
      rw [form_tokens, hforms]
      rfl
    · rw [Classical.not_imp, Bool.not_eq_true] at hascii
      obtain ⟨hkind, htext⟩ := spelled_lost t (spelled_of_mem 0 d t ht) hascii.1 hascii.2
      rw [hkind, htext]
      decide +kernel
  · rfl

/-! ## All tokens -/

theorem forms_texts (d : Bytes) (ts : List Token) (hts : ∀ t ∈ ts, t ∈ tokensFrom 0 0 d)
    (hascii : ∀ t ∈ ts, t.kind ≠ .comment → isAscii t.text = true) :
    forms (encode (List.intercalate ['\n'] (ts.map Token.text))) = ts.map Token.form := by
  induction ts with
  | nil => rfl
  | cons t ts ih =>
    rw [List.forall_mem_cons] at hts hascii
    have hrest := ih hts.2 hascii.2
    have htext := forms_text d t hts.1 hascii.1
    cases ts with
    | nil =>
      have hlast : List.intercalate ['\n'] [t.text] = t.text := by simp [List.intercalate]
      have hnothing : forms (encode t.text ++ []) = t.form :: forms [] := htext [] (by simp)
      rw [List.append_nil] at hnothing
      rw [List.map_singleton, hlast, hnothing]
      rfl
    | cons u us =>
      have hfeed : encode ['\n'] = [0x0A] := rfl
      have hnext := htext ([0x0A] ++ encode (List.intercalate ['\n'] ((u :: us).map Token.text)))
        (by simp [isLineFeed])
      rw [forms_spaces [0x0A] _ (by simp [isSpaceByte]), hrest] at hnext
      rw [List.map_cons, List.map_cons, intercalate_cons_cons, encode_append, encode_append, hfeed,
        ← List.map_cons, hnext, ← List.map_cons]

/-- The print of a source has the tokens of the source, unless a token that is no comment is outside
ASCII. The kind of a token is settled by its text, whatever source it stands in. -/
theorem tokens_printed (d : Bytes)
    (h : ∀ t ∈ tokens d, t.kind ≠ .comment → isAscii t.text = true) :
    (tokens (encode (printed d))).map Token.form = (tokens d).map Token.form ∧
    ∀ t ∈ tokens d, ∀ d', ∀ t' ∈ tokens d', t'.text = t.text → t'.kind = t.kind := by
  constructor
  · have hmem : ∀ t ∈ tokensFrom 0 0 d, t ∈ tokens d := fun t ht => List.mem_append_left _ ht
    have hprint := forms_texts d _ (fun _ ht => ht) (fun t ht => h t (hmem t ht))
    rw [form_tokens, form_tokens, printed, dropLast_tokens, hprint]
    rfl
  · intro t ht d' t' ht' htext
    have hkind := kind_of_text d' t' ht'
    rw [htext, kind_of_text d t ht] at hkind
    exact (Option.some.inj hkind).symm

/-- A slash between words, one in front of a word, and a comment that is no text. -/
def slashedSource : Bytes :=
  encode "const __ a/b// /".toList ++ [0xFF, 0x0A] ++ encode "/LAYOUT(_1".toList

theorem tokens_printed_slashed :
    printed slashedSource = "const\n__\na\n/\nb\n// /\ufffd\n/\nLAYOUT\n(\n_1".toList ∧
    (tokens (encode (printed slashedSource))).map Token.form =
      (tokens slashedSource).map Token.form ∧
    ∀ t' ∈ tokens slashedSource, t'.text = "__".toList → t'.kind = .blank := by
  obtain ⟨hprint, hkind⟩ := tokens_printed slashedSource (by decide +kernel)
  have hword : ⟨.blank, 6, encode "__".toList⟩ ∈ tokens slashedSource := by decide +kernel
  exact ⟨by decide +kernel, hprint, fun t' ht' htext =>
    hkind _ hword slashedSource t' ht' (htext.trans (by decide +kernel))⟩

end KeyTables
