import KeyTables.Drawing.KeyList
import KeyTables.Proofs.Block.KeyText

/-! Reading keys back from a text that shows them.

* `isLasting`: a key in ASCII that does not hold two slashes in a row.
* `keysFrom_shown`: such a key is read back from what a key list shows for it.
* `Listed dangling keys t`: the text `t` shows the keys, with commas between them.
* `keysFrom_listed`: keys that last are read back from a text that shows them. -/
namespace KeyTables
set_option autoImplicit false
open Cursor

def hasSlashPair : Text → Bool
  | [] => false
  | '/' :: '/' :: _ => true
  | _ :: t => hasSlashPair t

def isLasting (k : Text) : Bool :=
  isAscii k && !hasSlashPair k

/-- What a key list shows for a key. -/
def shown (k : Text) : Text :=
  if k.isEmpty then placeholder else k

theorem not_lineFeed_shown (k : Text) (h : KeyText k) : '\n' ∉ shown k := by
  rw [shown]
  split
  · decide
  · intro hmem
    exact not_lineFeed_of_ink _ (h.ink _ hmem) rfl

/-! ## Characters and bytes -/

theorem encode_cons_ascii (c : Char) (t : Text) (h : c.toNat < 0x80) :
    encode (c :: t) = UInt8.ofNat c.toNat :: encode t := by
  rw [encode_cons, utf8EncodeChar_ascii c h, List.singleton_append]

theorem lossyChar_ofNat (c : Char) (h : c.toNat < 0x80) :
    lossyChar (UInt8.ofNat c.toNat) = c := by
  rw [lossyChar_eq_iff _ c h, toNat_ofNat_lt _ (by omega)]

/-- Bytes and characters of ASCII correspond. -/
theorem ofNat_toNat_eq_iff (c d : Char) (hc : c.toNat < 0x80) (hd : d.toNat < 0x80) :
    UInt8.ofNat c.toNat = UInt8.ofNat d.toNat ↔ c = d := by
  constructor
  · intro h
    rw [← lossyChar_ofNat c hc, h, lossyChar_ofNat d hd]
  · intro h
    rw [h]

theorem parenByte_ofNat (c : Char) (h : c.toNat < 0x80) :
    parenByte (UInt8.ofNat c.toNat) = parenChar c := by
  have h1 := ofNat_toNat_eq_iff c '(' h (by decide)
  have h2 := ofNat_toNat_eq_iff c ')' h (by decide)
  simp only [parenByte, parenChar, ← h1, ← h2]
  rfl

theorem isSpaceByte_of_ink (c : Char) (h : c.toNat < 0x80) (hi : isInk c = true) :
    isSpaceByte (UInt8.ofNat c.toNat) = false := by
  rw [isInk, Bool.or_eq_true, Bool.and_eq_true] at hi
  rcases hi with hi | hi
  · obtain rfl : c = '\ufffd' := by simpa using hi
    exact absurd h (by decide)
  · simpa using hi.2

theorem isSlash_ofNat (c : Char) (h : c.toNat < 0x80) :
    isSlash (UInt8.ofNat c.toNat) = true ↔ c = '/' := by
  rw [← ofNat_toNat_eq_iff c '/' h (by decide)]
  simp [isSlash]

theorem isSlash_head_encode (c : Char) (t : Text) (rest : Bytes)
    (h : (encode (c :: t) ++ rest).head?.any isSlash = true) : c = '/' := by
  by_cases hc : c.toNat < 0x80
  · rw [encode_cons_ascii c t hc, List.cons_append, List.head?_cons, Option.any_some] at h
    exact (isSlash_ofNat c hc).mp h
  · obtain ⟨hlen, hhigh⟩ := utf8EncodeChar_high c (by omega)
    rw [encode_cons] at h
    cases hbytes : String.utf8EncodeChar c with
    | nil => simp [hbytes] at hlen
    | cons b more =>
      rw [hbytes, List.cons_append, List.cons_append, List.head?_cons, Option.any_some] at h
      have := (isStray_of_high b (hhigh b (by simp [hbytes]))).2
      rw [h] at this
      simp at this

/-- A slash starts no comment if no slash follows it in the text. -/
theorem slash_apart (c : Char) (t : Text) (rest : Bytes) (hc : c.toNat < 0x80) (ht : t ≠ [])
    (hp : ¬ (c = '/' ∧ t.head? = some '/')) :
    (isSlash (UInt8.ofNat c.toNat) && (encode t ++ rest).head?.any isSlash) = false := by
  refine Bool.eq_false_iff.mpr (fun hs => ?_)
  obtain ⟨h1, h2⟩ := Bool.and_eq_true_iff.mp hs
  cases t with
  | nil => exact ht rfl
  | cons d t =>
    refine hp ⟨(isSlash_ofNat c hc).mp h1, ?_⟩
    rw [isSlash_head_encode d t rest h2]
    rfl

theorem isAscii_cons (c : Char) (t : Text) :
    isAscii (c :: t) = true ↔ c.toNat < 0x80 ∧ isAscii t = true := by
  rw [isAscii, List.all_cons, Bool.and_eq_true, decide_eq_true_eq]
  rfl

theorem hasSlashPair_tail (c : Char) (t : Text) (h : hasSlashPair (c :: t) = false) :
    hasSlashPair t = false ∧ (c = '/' → ∀ d ∈ t.head?, d ≠ '/') := by
  unfold hasSlashPair at h
  split at h
  · simp at *
  · simp at h
  · next x s hne he =>
    obtain ⟨rfl, rfl⟩ := List.cons.inj he
    refine ⟨h, ?_⟩
    intro hc d hd hslash
    rw [hslash] at hd
    obtain ⟨s, hs⟩ : ∃ s, t = '/' :: s := by
      cases t with
      | nil => simp at hd
      | cons x s => exact ⟨s, by rw [Option.mem_some.mp hd]⟩
    exact hne s hc hs

theorem hasSlashPair_right (s t : Text) (h : hasSlashPair (s ++ t) = false) :
    hasSlashPair t = false := by
  induction s with
  | nil => exact h
  | cons c s ih => exact ih (hasSlashPair_tail c (s ++ t) h).1

/-! ## Compound keys -/

theorem closes_last (depth : Int) (s : Text) (h : closes depth s = true) :
    ∃ init, s = init ++ [')'] := by
  induction s generalizing depth with
  | nil => simp [closes] at h
  | cons c s ih =>
    rw [closes] at h
    split at h
    · next hend =>
      rw [List.isEmpty_iff.mp h, hend.1]
      exact ⟨[], rfl⟩
    · obtain ⟨init, rfl⟩ := ih _ h
      exact ⟨c :: init, rfl⟩

theorem compoundScan_balanced (depth : Int) (body : Text) (rest : Bytes)
    (hc : closes depth body = true) (ink : ∀ c ∈ body, isInk c = true)
    (ha : isAscii body = true) (hp : hasSlashPair body = false) :
    ∃ n, n + 1 = body.length ∧
      compoundScan false depth (encode body ++ rest) = some (body, n) := by
  induction body generalizing depth with
  | nil => simp [closes] at hc
  | cons c body ih =>
    obtain ⟨hlow, htail⟩ := (isAscii_cons c body).mp ha
    obtain ⟨hpair, hslash⟩ := hasSlashPair_tail c body hp
    have hspace := isSpaceByte_of_ink c hlow (ink c List.mem_cons_self)
    have hparen := parenByte_ofNat c hlow
    have hclose := ofNat_toNat_eq_iff c ')' hlow (by decide)
    rw [encode_cons_ascii c body hlow, List.cons_append]
    rw [closes] at hc
    split at hc
    · next hend =>
      obtain ⟨rfl, hdepth⟩ := hend
      obtain rfl := List.isEmpty_iff.mp hc
      refine ⟨0, rfl, ?_⟩
      exact compoundScan_close depth rest hdepth
    · next hopen =>
      obtain ⟨n, hn, hscan⟩ := ih (depth + parenChar c) hc
        (fun x hx => ink x (List.mem_cons_of_mem c hx)) htail hpair
      refine ⟨n + 1, by rw [List.length_cons, hn], ?_⟩
      have hs := slash_apart c body rest hlow (by intro he; simp [he] at hn)
        (fun hpair => hslash hpair.1 '/' hpair.2 rfl)
      rw [compoundScan_char depth _ _ hspace hs (fun h => hopen ⟨hclose.mp h.1, by
        rw [← hparen]
        exact h.2⟩), hparen, hscan, lossyChar_ofNat c hlow]
      rfl

/-! ## One key -/

/-- Bytes that neither join a key in front of them nor give it arguments. -/
structure Ends (rest : Bytes) : Prop where
  apart : ∀ b ∈ rest.head?, isWordByte b = false ∧ isSlash b = false
  bare : ∀ o, ((tokensFrom o 0 rest).head?.map Token.kind) ≠ some .lparen

theorem map_lossyChar_encode (w : Text) (h : isAscii w = true) :
    (encode w).map lossyChar = w := by
  induction w with
  | nil => rfl
  | cons c w ih =>
    obtain ⟨hc, hw⟩ := (isAscii_cons c w).mp h
    rw [encode_cons_ascii c w hc, List.map_cons, lossyChar_ofNat c hc, ih hw]

theorem IdentText.ne_nil {w : Text} (h : IdentText w) : w ≠ [] := by
  obtain ⟨lexeme, hs, rfl⟩ := h
  generalize Token.Kind.ident = kind at hs
  cases hs with
  | mark b kind hp => simp
  | comment body => simp
  | word _ hw hword => simpa using hw
  | stray b hb => simp

theorem tokensFrom_identText (o : Nat) (w : Text) (rest : Bytes) (h : IdentText w)
    (ha : isAscii w = true)
    (hrest : ∀ b ∈ rest.head?, isWordByte b = false ∧ isSlash b = false) :
    ∃ t, t.kind = .ident ∧ t.text = w ∧
      tokensFrom o 0 (encode w ++ rest) = t :: tokensFrom (o + (encode w).length) 0 rest := by
  rcases h.cases with ⟨-, hs⟩ | hlossy
  · refine ⟨⟨.ident, o, encode w⟩, rfl, ?_, tokensFrom_spelled o .ident _ rest hs (by simp) hrest⟩
    rw [Token.Spelled.text_eq _ hs (by simp), map_lossyChar_encode w ha]
  · rw [hlossy] at ha
    exact absurd ha (by decide)

/-- The arguments of a compound key are read back. -/
theorem compoundFrom_balanced (o : Nat) (body : Text) (rest : Bytes)
    (hc : closes 0 ('(' :: body) = true) (ink : ∀ c ∈ body, isInk c = true)
    (ha : isAscii body = true) (hp : hasSlashPair ('(' :: body) = false) :
    ∃ close, compoundFrom 0 (tokensFrom o 0 (encode ('(' :: body) ++ rest)) =
      some ('(' :: body, close :: tokensFrom (o + (encode ('(' :: body)).length) 0 rest) := by
  have hascii : isAscii ('(' :: body) = true := (isAscii_cons _ _).mpr ⟨by decide, ha⟩
  obtain ⟨n, hn, hscan⟩ := compoundScan_balanced 0 ('(' :: body) rest hc
    (by simpa using ⟨rfl, ink⟩) hascii hp
  obtain ⟨init, hinit⟩ := closes_last 0 _ hc
  have hlen : (encode init).length = n := by
    have h1 := length_encode_ascii _ hascii
    rw [hinit, encode_append, List.length_append, List.length_append] at h1
    rw [hinit, List.length_append] at hn
    simp only [List.length_singleton] at hn h1
    have : (encode [')']).length = 1 := rfl
    omega
  have hdrop : (encode ('(' :: body) ++ rest).drop n = 0x29 :: rest := by
    rw [hinit, encode_append, List.append_assoc, ← hlen, List.drop_left]
    rfl
  rw [compoundFrom_eq_scan, hscan, Option.map_some, scannedTokens, hdrop,
    tokensFrom_mark _ 0x29 .rparen rest rfl]
  refine ⟨⟨.rparen, o + n, [0x29]⟩, ?_⟩
  rw [length_encode_ascii _ hascii, ← hn, Nat.add_assoc]

/-- A key with arguments is read by scanning them. -/
theorem keysFrom_arguments (o : Nat) (w body : Text) (rest : Bytes) (h : IdentText w)
    (ha : isAscii w = true) :
    keysFrom (tokensFrom o 0 (encode (w ++ '(' :: body) ++ rest)) =
      (compoundFrom 0 (tokensFrom (o + (encode w).length) 0 (encode ('(' :: body) ++ rest))).bind
        fun r => (keysFrom r.2.tail).map fun s => ((w ++ r.1) :: s.1, s.2) := by
  have hparen : encode ('(' :: body) ++ rest = 0x28 :: (encode body ++ rest) := by
    rw [encode_cons_ascii '(' body (by decide), List.cons_append]
    rfl
  obtain ⟨t, hkind, htext, hts⟩ := tokensFrom_identText o w (0x28 :: (encode body ++ rest)) h ha
    (by simpa using ⟨rfl, rfl⟩)
  rw [encode_append, List.append_assoc, hparen, hts, keysFrom_compound t _ hkind, htext]
  rw [tokensFrom_mark _ _ .lparen _ rfl]
  rfl

theorem keysFrom_shown (o : Nat) (k : Text) (rest : Bytes) (hk : KeyText k)
    (hl : isLasting k = true) (hrest : Ends rest) :
    keysFrom (tokensFrom o 0 (encode (shown k) ++ rest)) =
      (keysFrom (tokensFrom (o + (encode (shown k)).length) 0 rest)).map
        fun r => (k :: r.1, r.2) := by
  obtain ⟨ha, hp⟩ := Bool.and_eq_true_iff.mp hl
  rw [Bool.not_eq_true'] at hp
  cases hk with
  | unassigned =>
    have hword : ∀ b ∈ encode (shown []), isWordByte b = true := by decide +kernel
    have hblank : wordKind (encode (shown [])) = .blank := by decide +kernel
    rw [tokensFrom_word o _ rest (by decide) hword (fun b hb => (hrest.apart b hb).1),
      keysFrom_blank _ _ hblank]
  | plain w h =>
    rw [shown, if_neg (by simpa using h.ne_nil)]
    obtain ⟨t, hkind, htext, hts⟩ := tokensFrom_identText o k rest h ha hrest.apart
    rw [hts, keysFrom_plain t _ hkind (hrest.bare _), htext]
  | compound w body h ink hc =>
    rw [isAscii_append, Bool.and_eq_true, isAscii_cons] at ha
    obtain ⟨hw, -, hbody⟩ := ha
    obtain ⟨close, hclose⟩ := compoundFrom_balanced (o + (encode w).length) body rest hc ink hbody
      (hasSlashPair_right w _ hp)
    rw [shown, if_neg (by simp), keysFrom_arguments o w body rest h hw, hclose, Option.bind_some,
      List.tail_cons, encode_append, List.length_append, Nat.add_assoc]

/-! ## Lists of keys -/

/-- A character that stands between keys. -/
def isGapChar (c : Char) : Bool :=
  c == ' ' || c == '\n' || c == '\r'

/-- What follows a key: a comma after some spaces, or nothing if it is the last one. A comma after
the last one is `dangling`. -/
def Separates (dangling : Bool) (sep : Text) (keys : List Text) : Prop :=
  sep = [] ∧ keys = [] ∨
    ∃ n, sep = List.replicate n ' ' ++ [','] ∧ (keys = [] → dangling = true)

inductive Listed (dangling : Bool) : List Text → Text → Prop
  | nil (gap : Text) (hgap : ∀ c ∈ gap, isGapChar c = true) (hbreak : '\n' ∈ gap) :
      Listed dangling [] gap
  | cons (gap k sep t : Text) (keys : List Text) (hgap : ∀ c ∈ gap, isGapChar c = true)
      (hsep : Separates dangling sep keys) (ht : Listed dangling keys t) :
      Listed dangling (k :: keys) (gap ++ (shown k ++ (sep ++ t)))

theorem isSpaceByte_encode (gap : Text) (h : ∀ c ∈ gap, isGapChar c = true) :
    ∀ b ∈ encode gap, isSpaceByte b = true := by
  intro b hb
  obtain ⟨c, hc, hbc⟩ := List.mem_flatMap.mp hb
  have := h c hc
  simp only [isGapChar, Bool.or_eq_true, beq_iff_eq] at this
  rcases this with (rfl | rfl) | rfl <;> (rw [List.mem_singleton.mp hbc]; rfl)

theorem isSpaceByte_replicate (n : Nat) :
    ∀ b ∈ encode (List.replicate n ' '), isSpaceByte b = true :=
  isSpaceByte_encode _ (fun c hc => by rw [List.eq_of_mem_replicate hc]; rfl)

theorem ends_of_mark (ws rest : Bytes) (b : UInt8) (kind : Token.Kind)
    (hws : ∀ x ∈ ws, isSpaceByte x = true) (hb : punctuation? b = some kind)
    (hkind : kind ≠ .lparen) : Ends (ws ++ b :: rest) := by
  refine ⟨?_, ?_⟩
  · intro x hx
    cases ws with
    | nil =>
      obtain rfl : b = x := by simpa using hx
      have := mark_all (fun b _ => !isWordByte b && !isSlash b) (by decide) b kind hb
      simpa using this
    | cons y ws =>
      obtain rfl : y = x := by simpa using hx
      have hy := hws y List.mem_cons_self
      simp only [isSpaceByte, Bool.or_eq_true, beq_iff_eq] at hy
      rcases hy with ((rfl | rfl) | rfl) | rfl <;> decide
  · intro o
    rw [tokensFrom_spaces o ws _ hws, tokensFrom_mark _ b kind rest hb]
    simpa using hkind

theorem ends_of_listed {dangling : Bool} (sep t : Text) (keys : List Text) (after : Bytes)
    (hsep : Separates dangling sep keys) (ht : Listed dangling keys t) :
    Ends (encode (sep ++ t) ++ 0x29 :: after) := by
  rcases hsep with ⟨rfl, rfl⟩ | ⟨n, rfl, -⟩
  · cases ht with
    | nil gap hgap hbreak =>
      exact ends_of_mark _ after 0x29 .rparen (isSpaceByte_encode _ hgap) rfl (by simp)
  · rw [List.append_assoc, encode_append, List.singleton_append,
      encode_cons_ascii ',' t (by decide), List.append_assoc]
    exact ends_of_mark _ _ _ .comma (isSpaceByte_replicate n) rfl (by simp)

theorem keysFrom_separator {dangling : Bool} (o : Nat) (sep : Text) (keys : List Text)
    (rest : Bytes) (hsep : Separates dangling sep keys) :
    keysFrom (tokensFrom o 0 (encode sep ++ rest)) =
      keysFrom (tokensFrom (o + (encode sep).length) 0 rest) := by
  rcases hsep with ⟨rfl, -⟩ | ⟨n, rfl, -⟩
  · rfl
  · rw [encode_append, List.append_assoc, tokensFrom_spaces o _ _ (isSpaceByte_replicate n),
      encode_cons_ascii ',' [] (by decide), encode_nil, List.singleton_append,
      tokensFrom_mark _ _ .comma rest rfl, keysFrom_other _ _ (by simp) (by simp) (by simp),
      List.length_append, List.length_singleton, Nat.add_assoc]

theorem keysFrom_listed {dangling : Bool} (keys : List Text) (t : Text) (h : Listed dangling keys t)
    (hk : ∀ k ∈ keys, KeyText k) (hl : ∀ k ∈ keys, isLasting k = true) (o : Nat) (after : Bytes) :
    keysFrom (tokensFrom o 0 (encode t ++ 0x29 :: after)) =
      some (keys, tokensFrom (o + (encode t).length) 0 (0x29 :: after)) := by
  induction h generalizing o with
  | nil gap hgap hbreak =>
    rw [tokensFrom_spaces o _ _ (isSpaceByte_encode gap hgap), tokensFrom_mark _ 0x29 .rparen after rfl,
      keysFrom_rparen _ _ rfl]
  | cons gap k sep t keys hgap hsep ht ih =>
    have hrest := ih (fun x hx => hk x (List.mem_cons_of_mem k hx))
      (fun x hx => hl x (List.mem_cons_of_mem k hx))
    have hends := ends_of_listed sep t keys after hsep ht
    have hkey := fun o => keysFrom_shown o k _ (hk k List.mem_cons_self) (hl k List.mem_cons_self)
      hends
    rw [encode_append, List.append_assoc, tokensFrom_spaces o _ _ (isSpaceByte_encode gap hgap),
      encode_append, List.append_assoc, hkey, encode_append, List.append_assoc,
      keysFrom_separator _ sep keys _ hsep, hrest]
    simp only [Option.map_some, List.length_append, Nat.add_assoc]

end KeyTables
