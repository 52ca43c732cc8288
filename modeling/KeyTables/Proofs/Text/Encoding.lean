import KeyTables.Text.Utf8

/-! UTF-8 round trip and cuts.

* `decode_encode`: strict decoding undoes encoding.
* `decode_eq_ok_iff`: it takes nothing but encodings.
* `encode_cut`: an ASCII byte in the encoding of a text stands for a character of its own, so the
  text can be cut there.
* `decodeLossy_encode`, `decodeLossy_ascii`, `decodeLossy_high`: lossy decoding of an encoding, of ASCII
  bytes and of a stray byte.
* `mem_decodeLossy`: it makes up no character but one. -/
namespace KeyTables
set_option autoImplicit false

@[simp] theorem encode_nil : encode [] = [] := rfl

@[simp] theorem encode_cons (c : Char) (t : Text) :
    encode (c :: t) = String.utf8EncodeChar c ++ encode t := rfl

@[simp] theorem encode_append (s t : Text) : encode (s ++ t) = encode s ++ encode t :=
  List.flatMap_append

theorem encode_flatten (ts : List Text) : encode ts.flatten = (ts.map encode).flatten := by
  induction ts with
  | nil => rfl
  | cons t ts ih => rw [List.flatten_cons, encode_append, ih, List.map_cons, List.flatten_cons]

/-! ## Lead bytes -/

theorem toNat_scalar (c : Char) : c.toNat < 0xD800 ∨ 0xDFFF < c.toNat ∧ c.toNat < 0x110000 := by
  have h := c.valid
  simpa [UInt32.isValidChar, Nat.isValidChar] using h

theorem toNat_ofNat_scalar (v : Nat) (h : v < 0xD800 ∨ 0xDFFF < v ∧ v < 0x110000) :
    (Char.ofNat v).toNat = v := by
  have hv : v.isValidChar := h
  rw [Char.ofNat, dif_pos hv]
  rfl

theorem toNat_ofNat_lt (n : Nat) (h : n < 256) : (UInt8.ofNat n).toNat = n := by
  rw [UInt8.toNat_ofNat', Nat.mod_eq_of_lt h]

theorem leadOf_one (b : UInt8) (h : b.toNat < 0x80) :
    leadOf b = some ⟨0, b.toNat, 0x80, 0xBF⟩ := by
  simp only [leadOf]
  rw [if_pos h]

theorem leadOf_two (b : UInt8) (low : 0xC2 ≤ b.toNat) (high : b.toNat < 0xE0) :
    leadOf b = some ⟨1, b.toNat - 0xC0, 0x80, 0xBF⟩ := by
  simp only [leadOf]
  rw [if_neg (by omega), if_neg (by omega), if_pos high]

theorem leadOf_three (b : UInt8) (low : 0xE0 ≤ b.toNat) (high : b.toNat < 0xF0) :
    leadOf b = some ⟨2, b.toNat - 0xE0, if b.toNat = 0xE0 then 0xA0 else 0x80,
      if b.toNat = 0xED then 0x9F else 0xBF⟩ := by
  simp only [leadOf]
  rw [if_neg (by omega), if_neg (by omega), if_neg (by omega), if_pos high]

theorem leadOf_four (b : UInt8) (low : 0xF0 ≤ b.toNat) (high : b.toNat < 0xF5) :
    leadOf b = some ⟨3, b.toNat - 0xF0, if b.toNat = 0xF0 then 0x90 else 0x80,
      if b.toNat = 0xF4 then 0x8F else 0xBF⟩ := by
  simp only [leadOf]
  rw [if_neg (by omega), if_neg (by omega), if_neg (by omega), if_neg (by omega), if_pos high]

theorem leadOf_cases (b : UInt8) (lead : LeadByte) (h : leadOf b = some lead) :
    (b.toNat < 0x80 ∧ lead = ⟨0, b.toNat, 0x80, 0xBF⟩) ∨
    (0xC2 ≤ b.toNat ∧ b.toNat < 0xE0 ∧ lead = ⟨1, b.toNat - 0xC0, 0x80, 0xBF⟩) ∨
    (0xE0 ≤ b.toNat ∧ b.toNat < 0xF0 ∧
      lead = ⟨2, b.toNat - 0xE0, if b.toNat = 0xE0 then 0xA0 else 0x80,
        if b.toNat = 0xED then 0x9F else 0xBF⟩) ∨
    (0xF0 ≤ b.toNat ∧ b.toNat < 0xF5 ∧
      lead = ⟨3, b.toNat - 0xF0, if b.toNat = 0xF0 then 0x90 else 0x80,
        if b.toNat = 0xF4 then 0x8F else 0xBF⟩) := by
  unfold leadOf at h
  grind

theorem pieceFrom_step (taken owed bits low high : Nat) (b : UInt8) (bs : Bytes)
    (hl : low ≤ b.toNat) (hh : b.toNat ≤ high) :
    pieceFrom taken (owed + 1) bits low high (b :: bs) =
      pieceFrom (taken + 1) owed (bits * 64 + (b.toNat - 0x80)) 0x80 0xBF bs := by
  rw [pieceFrom, if_pos ⟨hl, hh⟩]

theorem pieceFrom_ok (taken owed bits low high : Nat) (bs : Bytes) (c : Char) (more : Nat)
    (h : pieceFrom taken (owed + 1) bits low high bs = ⟨.ok c, more⟩) :
    ∃ b rest, bs = b :: rest ∧ low ≤ b.toNat ∧ b.toNat ≤ high ∧
      pieceFrom (taken + 1) owed (bits * 64 + (b.toNat - 0x80)) 0x80 0xBF rest = ⟨.ok c, more⟩ := by
  cases bs with
  | nil => simp [pieceFrom] at h
  | cons b rest =>
    rw [pieceFrom] at h
    split at h
    · next hrange => exact ⟨b, rest, rfl, hrange.1, hrange.2, h⟩
    · simp at h

/-! ## Characters -/

/-- The bytes of a character are one piece, whatever follows them. -/
theorem pieceAt_utf8EncodeChar (c : Char) (rest : Bytes) :
    ∃ b bs, String.utf8EncodeChar c = b :: bs ∧ pieceAt b (bs ++ rest) = ⟨.ok c, bs.length⟩ := by
  have hc := toNat_scalar c
  have back : Char.ofNat c.toNat = c := Char.ofNat_toNat c
  have e : c.val.toNat = c.toNat := rfl
  simp only [String.utf8EncodeChar, e]
  generalize c.toNat = v at hc back
  have small := toNat_ofNat_lt
  -- one case for each number of bytes; the ranges of the second byte are checked by `omega`
  split
  · refine ⟨_, _, rfl, ?_⟩
    have n0 := small v (by omega)
    rw [pieceAt, leadOf_one _ (by rw [n0]; omega), n0]
    simp only [pieceFrom, back, List.length_nil]
  · split
    · refine ⟨_, _, rfl, ?_⟩
      have n0 := small (v / 64 % 0x20 + 0xc0) (by omega)
      have n1 := small (v % 0x40 + 0x80) (by omega)
      rw [pieceAt, leadOf_two _ (by rw [n0]; omega) (by rw [n0]; omega)]
      simp only [List.cons_append, List.nil_append]
      rw [pieceFrom_step _ _ _ _ _ _ _ (by rw [n1]; omega) (by rw [n1]; omega), n0, n1]
      have hv : (v / 64 % 0x20 + 0xc0 - 0xC0) * 64 + (v % 0x40 + 0x80 - 0x80) = v := by omega
      rw [hv, pieceFrom, back]
      rfl
    · split
      · refine ⟨_, _, rfl, ?_⟩
        have n0 := small (v / 4096 % 0x10 + 0xe0) (by omega)
        have n1 := small (v / 64 % 0x40 + 0x80) (by omega)
        have n2 := small (v % 0x40 + 0x80) (by omega)
        rw [pieceAt, leadOf_three _ (by rw [n0]; omega) (by rw [n0]; omega)]
        simp only [List.cons_append, List.nil_append]
        rw [pieceFrom_step _ _ _ _ _ _ _ (by rw [n0, n1]; split <;> omega)
          (by rw [n0, n1]; split <;> omega),
          pieceFrom_step _ _ _ _ _ _ _ (by rw [n2]; omega) (by rw [n2]; omega), n0, n1, n2]
        have hv : ((v / 4096 % 0x10 + 0xe0 - 0xE0) * 64 + (v / 64 % 0x40 + 0x80 - 0x80)) * 64 +
            (v % 0x40 + 0x80 - 0x80) = v := by omega
        rw [hv, pieceFrom, back]
        rfl
      · refine ⟨_, _, rfl, ?_⟩
        have n0 := small (v / 262144 % 0x08 + 0xf0) (by omega)
        have n1 := small (v / 4096 % 0x40 + 0x80) (by omega)
        have n2 := small (v / 64 % 0x40 + 0x80) (by omega)
        have n3 := small (v % 0x40 + 0x80) (by omega)
        rw [pieceAt, leadOf_four _ (by rw [n0]; omega) (by rw [n0]; omega)]
        simp only [List.cons_append, List.nil_append]
        rw [pieceFrom_step _ _ _ _ _ _ _ (by rw [n0, n1]; split <;> omega)
          (by rw [n0, n1]; split <;> omega),
          pieceFrom_step _ _ _ _ _ _ _ (by rw [n2]; omega) (by rw [n2]; omega),
          pieceFrom_step _ _ _ _ _ _ _ (by rw [n3]; omega) (by rw [n3]; omega), n0, n1, n2, n3]
        have hv : (((v / 262144 % 0x08 + 0xf0 - 0xF0) * 64 + (v / 4096 % 0x40 + 0x80 - 0x80)) * 64 +
            (v / 64 % 0x40 + 0x80 - 0x80)) * 64 + (v % 0x40 + 0x80 - 0x80) = v := by omega
        rw [hv, pieceFrom, back]
        rfl

theorem utf8EncodeChar_ascii (c : Char) (h : c.toNat < 0x80) :
    String.utf8EncodeChar c = [UInt8.ofNat c.toNat] := by
  have h' : c.val.toNat ≤ 0x7f := Nat.le_of_lt_succ h
  simp only [String.utf8EncodeChar, h', if_true]
  rfl

/-- All bytes of a character beyond ASCII are high, and there are at least two. -/
theorem utf8EncodeChar_high (c : Char) (h : 0x80 ≤ c.toNat) :
    2 ≤ (String.utf8EncodeChar c).length ∧ ∀ b ∈ String.utf8EncodeChar c, 0x80 ≤ b.toNat := by
  have h1 : ¬ c.val.toNat ≤ 0x7f := Nat.not_le.mpr h
  have small : ∀ n, 0x80 ≤ n → n < 256 → 0x80 ≤ (UInt8.ofNat n).toNat := by
    intro n hn hn'
    rw [toNat_ofNat_lt n hn']
    exact hn
  simp only [String.utf8EncodeChar, h1, if_false]
  split
  · refine ⟨Nat.le_refl _, ?_⟩
    simp only [List.forall_mem_cons]
    exact ⟨small _ (by omega) (by omega), small _ (by omega) (by omega), by simp⟩
  · split
    · refine ⟨by simp, ?_⟩
      simp only [List.forall_mem_cons]
      exact ⟨small _ (by omega) (by omega), small _ (by omega) (by omega),
        small _ (by omega) (by omega), by simp⟩
    · refine ⟨by simp, ?_⟩
      simp only [List.forall_mem_cons]
      exact ⟨small _ (by omega) (by omega), small _ (by omega) (by omega),
        small _ (by omega) (by omega), small _ (by omega) (by omega), by simp⟩

/-! ## Decoding -/

theorem decodeFrom_skip (position skip : Nat) (bs : Bytes) :
    decodeFrom position skip bs = decodeFrom (position + skip) 0 (bs.drop skip) := by
  induction bs generalizing position skip with
  | nil => simp [decodeFrom]
  | cons b bs ih =>
    cases skip with
    | zero => rfl
    | succ skip =>
      have e : position + 1 + skip = position + (skip + 1) := by omega
      rw [decodeFrom, ih, e, List.drop_succ_cons]

theorem decodeFrom_encode (position : Nat) (t : Text) :
    decodeFrom position 0 (encode t) = .ok t := by
  induction t generalizing position with
  | nil => rfl
  | cons c t ih =>
    obtain ⟨b, bs, hc, hp⟩ := pieceAt_utf8EncodeChar c (encode t)
    rw [encode_cons, hc, List.cons_append, decodeFrom]
    simp only [hp]
    rw [decodeFrom_skip, List.drop_left, ih]

theorem decode_encode (t : Text) : decode (encode t) = .ok t :=
  decodeFrom_encode 0 t

theorem encode_injective (s t : Text) (h : encode s = encode t) : s = t := by
  have hs := decode_encode s
  rw [h, decode_encode] at hs
  exact (Except.ok.inj hs).symm

/-! ## Cuts -/

theorem toNat_ofNat_ascii (b : UInt8) (h : b.toNat < 0x80) :
    (Char.ofNat b.toNat).toNat = b.toNat :=
  toNat_ofNat_scalar b.toNat (Or.inl (by omega))

theorem utf8EncodeChar_ofNat (b : UInt8) (h : b.toNat < 0x80) :
    String.utf8EncodeChar (Char.ofNat b.toNat) = [b] := by
  have e := toNat_ofNat_ascii b h
  rw [utf8EncodeChar_ascii _ (by rw [e]; exact h), e, UInt8.ofNat_toNat]

theorem utf8EncodeChar_head_ascii (c : Char) (b : UInt8) (bs : Bytes) (h : b.toNat < 0x80)
    (hc : String.utf8EncodeChar c = b :: bs) : c = Char.ofNat b.toNat ∧ bs = [] := by
  by_cases low : c.toNat < 0x80
  · rw [utf8EncodeChar_ascii c low, List.cons.injEq] at hc
    obtain ⟨hb, hbs⟩ := hc
    have e : b.toNat = c.toNat := by rw [← hb, toNat_ofNat_lt _ (by omega)]
    exact ⟨by rw [e, Char.ofNat_toNat], hbs.symm⟩
  · have hb := (utf8EncodeChar_high c (Nat.le_of_not_lt low)).2 b (by rw [hc]; exact List.mem_cons_self)
    omega

theorem encode_cut (s : Text) (a : Bytes) (x : UInt8) (b : Bytes) (hx : x.toNat < 0x80)
    (h : encode s = a ++ x :: b) :
    ∃ s1 s2, s = s1 ++ Char.ofNat x.toNat :: s2 ∧ encode s1 = a ∧ encode s2 = b := by
  induction s generalizing a with
  | nil => simp at h
  | cons c s ih =>
    rw [encode_cons, List.append_eq_append_iff] at h
    rcases h with ⟨a', ha, hs⟩ | ⟨c', hc, hs⟩
    · -- the byte lies behind the first character
      obtain ⟨s1, s2, rfl, h1, h2⟩ := ih a' hs
      refine ⟨c :: s1, s2, rfl, ?_, h2⟩
      rw [encode_cons, h1, ha]
    · cases c' with
      | nil =>
        rw [List.append_nil] at hc
        obtain ⟨s1, s2, rfl, h1, h2⟩ := ih [] hs.symm
        refine ⟨c :: s1, s2, rfl, ?_, h2⟩
        rw [encode_cons, h1, hc, List.append_nil]
      | cons y c' =>
        rw [List.cons_append, List.cons.injEq] at hs
        obtain ⟨rfl, rfl⟩ := hs
        by_cases low : c.toNat < 0x80
        · rw [utf8EncodeChar_ascii c low] at hc
          have hlen := congrArg List.length hc
          rw [List.length_singleton, List.length_append, List.length_cons] at hlen
          have ha : a = [] := List.eq_nil_of_length_eq_zero (by omega)
          subst ha
          rw [← utf8EncodeChar_ascii c low] at hc
          obtain ⟨rfl, rfl⟩ := utf8EncodeChar_head_ascii c x c' hx hc
          exact ⟨[], s, rfl, rfl, rfl⟩
        · have := (utf8EncodeChar_high c (Nat.le_of_not_lt low)).2 x (by rw [hc]; simp)
          omega

/-! ## Lossy decoding -/

/-- The character that a byte shows as when it is decoded by itself. -/
def lossyChar (b : UInt8) : Char :=
  if b.toNat < 0x80 then Char.ofNat b.toNat else '\ufffd'

theorem lossyChar_high (b : UInt8) (h : lossyChar b = '\ufffd') : 0x80 ≤ b.toNat := by
  refine Nat.le_of_not_lt (fun hlow => ?_)
  rw [lossyChar, if_pos hlow] at h
  have := congrArg Char.toNat h
  rw [toNat_ofNat_ascii b hlow] at this
  rw [this] at hlow
  exact absurd hlow (by decide)

theorem pieceAt_ascii (b : UInt8) (bs : Bytes) (h : b.toNat < 0x80) :
    pieceAt b bs = ⟨.ok (Char.ofNat b.toNat), 0⟩ := by
  rw [pieceAt, leadOf_one b h]
  rfl

theorem decodeLossy_ascii (bs : Bytes) (h : ∀ b ∈ bs, b.toNat < 0x80) :
    decodeLossy bs = bs.map lossyChar := by
  induction bs with
  | nil => rfl
  | cons b bs ih =>
    have hb := h b List.mem_cons_self
    have ht := ih (fun x hx => h x (List.mem_cons_of_mem b hx))
    rw [decodeLossy] at ht
    rw [decodeLossy, decodeLossyFrom, pieceAt_ascii b bs hb, ht, List.map_cons, lossyChar, if_pos hb]

theorem decodeLossyFrom_skip (skip : Nat) (bs : Bytes) :
    decodeLossyFrom skip bs = decodeLossyFrom 0 (bs.drop skip) := by
  induction bs generalizing skip with
  | nil => simp [decodeLossyFrom]
  | cons b bs ih =>
    cases skip with
    | zero => rfl
    | succ skip => rw [decodeLossyFrom, ih, List.drop_succ_cons]

theorem decodeLossy_encode (t : Text) : decodeLossy (encode t) = t := by
  induction t with
  | nil => rfl
  | cons c t ih =>
    obtain ⟨b, bs, hc, hp⟩ := pieceAt_utf8EncodeChar c (encode t)
    rw [decodeLossy] at ih
    rw [encode_cons, hc, List.cons_append, decodeLossy, decodeLossyFrom, hp, decodeLossyFrom_skip,
      List.drop_left, ih]

theorem decodeLossy_high (b : UInt8) (h : 0x80 ≤ b.toNat) : decodeLossy [b] = ['\ufffd'] := by
  have hp : ∃ e, (pieceAt b []).content = .error e := by
    rw [pieceAt]
    by_cases h2 : b.toNat < 0xC2
    · exact ⟨.start, by simp only [leadOf]; rw [if_neg (by omega), if_pos h2]⟩
    · by_cases h3 : b.toNat < 0xE0
      · exact ⟨.truncated, by rw [leadOf_two b (by omega) h3]; rfl⟩
      · by_cases h4 : b.toNat < 0xF0
        · exact ⟨.truncated, by rw [leadOf_three b (by omega) h4]; rfl⟩
        · by_cases h5 : b.toNat < 0xF5
          · exact ⟨.truncated, by rw [leadOf_four b (by omega) h5]; rfl⟩
          · refine ⟨.start, ?_⟩
            simp only [leadOf]
            rw [if_neg (by omega), if_neg (by omega), if_neg h3, if_neg h4, if_neg h5]
  obtain ⟨e, he⟩ := hp
  rw [decodeLossy, decodeLossyFrom]
  simp only [he, decodeLossyFrom]

theorem decodeLossy_singleton (b : UInt8) : decodeLossy [b] = [lossyChar b] := by
  by_cases h : b.toNat < 0x80
  · exact decodeLossy_ascii [b] (by simpa using h)
  · rw [decodeLossy_high b (Nat.le_of_not_lt h), lossyChar, if_neg h]

/-! ## ASCII -/

/-- Whether all characters are in ASCII. -/
def isAscii (t : Text) : Bool :=
  t.all fun c => decide (c.toNat < 0x80)

theorem isAscii_append (s t : Text) : isAscii (s ++ t) = (isAscii s && isAscii t) :=
  List.all_append

theorem isAscii_lossy (bs : Bytes) (h : ∀ b ∈ bs, b.toNat < 0x80) :
    isAscii (bs.map lossyChar) = true ∧ encode (bs.map lossyChar) = bs := by
  induction bs with
  | nil => exact ⟨rfl, rfl⟩
  | cons b bs ih =>
    have hb := h b List.mem_cons_self
    obtain ⟨h1, h2⟩ := ih (fun x hx => h x (List.mem_cons_of_mem b hx))
    have hchar : lossyChar b = Char.ofNat b.toNat := if_pos hb
    rw [List.map_cons, encode_cons, h2, hchar, utf8EncodeChar_ofNat b hb]
    refine ⟨?_, rfl⟩
    have hc : decide ((Char.ofNat b.toNat).toNat < 0x80) = true := by
      rw [toNat_ofNat_ascii b hb]
      exact decide_eq_true hb
    rw [isAscii, List.all_cons, hc, Bool.true_and]
    exact h1

theorem length_encode_ascii (t : Text) (h : isAscii t = true) : (encode t).length = t.length := by
  induction t with
  | nil => rfl
  | cons c t ih =>
    rw [isAscii, List.all_cons, Bool.and_eq_true, decide_eq_true_eq] at h
    rw [encode_cons, utf8EncodeChar_ascii c h.1, List.singleton_append, List.length_cons, ih h.2,
      List.length_cons]

/-! ## Strictness -/

theorem ofNat_of_toNat (b : UInt8) (n : Nat) (h : n = b.toNat) : UInt8.ofNat n = b := by
  rw [h, UInt8.ofNat_toNat]

theorem utf8EncodeChar_two (b b1 : UInt8) (hb : 0xC2 ≤ b.toNat ∧ b.toNat < 0xE0)
    (h1 : 0x80 ≤ b1.toNat ∧ b1.toNat ≤ 0xBF) :
    String.utf8EncodeChar (Char.ofNat ((b.toNat - 0xC0) * 64 + (b1.toNat - 0x80))) = [b, b1] := by
  have hc : (Char.ofNat ((b.toNat - 0xC0) * 64 + (b1.toNat - 0x80))).val.toNat =
      (b.toNat - 0xC0) * 64 + (b1.toNat - 0x80) := toNat_ofNat_scalar _ (by omega)
  simp only [String.utf8EncodeChar, hc]
  rw [if_neg (by omega), if_pos (by omega), ofNat_of_toNat b _ (by omega),
    ofNat_of_toNat b1 _ (by omega)]

theorem utf8EncodeChar_three (b b1 b2 : UInt8) (hb : 0xE0 ≤ b.toNat ∧ b.toNat < 0xF0)
    (h1 : 0x80 ≤ b1.toNat ∧ b1.toNat ≤ 0xBF) (h2 : 0x80 ≤ b2.toNat ∧ b2.toNat ≤ 0xBF)
    (hshort : b.toNat = 0xE0 → 0xA0 ≤ b1.toNat) (hsurrogate : b.toNat = 0xED → b1.toNat ≤ 0x9F) :
    String.utf8EncodeChar (Char.ofNat (((b.toNat - 0xE0) * 64 + (b1.toNat - 0x80)) * 64 +
      (b2.toNat - 0x80))) = [b, b1, b2] := by
  have hc : (Char.ofNat (((b.toNat - 0xE0) * 64 + (b1.toNat - 0x80)) * 64 +
      (b2.toNat - 0x80))).val.toNat =
      ((b.toNat - 0xE0) * 64 + (b1.toNat - 0x80)) * 64 + (b2.toNat - 0x80) :=
    toNat_ofNat_scalar _ (by omega)
  simp only [String.utf8EncodeChar, hc]
  rw [if_neg (by omega), if_neg (by omega), if_pos (by omega), ofNat_of_toNat b _ (by omega),
    ofNat_of_toNat b1 _ (by omega), ofNat_of_toNat b2 _ (by omega)]

theorem utf8EncodeChar_four (b b1 b2 b3 : UInt8) (hb : 0xF0 ≤ b.toNat ∧ b.toNat < 0xF5)
    (h1 : 0x80 ≤ b1.toNat ∧ b1.toNat ≤ 0xBF) (h2 : 0x80 ≤ b2.toNat ∧ b2.toNat ≤ 0xBF)
    (h3 : 0x80 ≤ b3.toNat ∧ b3.toNat ≤ 0xBF) (hshort : b.toNat = 0xF0 → 0x90 ≤ b1.toNat)
    (hlast : b.toNat = 0xF4 → b1.toNat ≤ 0x8F) :
    String.utf8EncodeChar (Char.ofNat ((((b.toNat - 0xF0) * 64 + (b1.toNat - 0x80)) * 64 +
      (b2.toNat - 0x80)) * 64 + (b3.toNat - 0x80))) = [b, b1, b2, b3] := by
  have hc : (Char.ofNat ((((b.toNat - 0xF0) * 64 + (b1.toNat - 0x80)) * 64 +
      (b2.toNat - 0x80)) * 64 + (b3.toNat - 0x80))).val.toNat =
      (((b.toNat - 0xF0) * 64 + (b1.toNat - 0x80)) * 64 + (b2.toNat - 0x80)) * 64 +
        (b3.toNat - 0x80) :=
    toNat_ofNat_scalar _ (by omega)
  simp only [String.utf8EncodeChar, hc]
  rw [if_neg (by omega), if_neg (by omega), if_neg (by omega), ofNat_of_toNat b _ (by omega),
    ofNat_of_toNat b1 _ (by omega), ofNat_of_toNat b2 _ (by omega), ofNat_of_toNat b3 _ (by omega)]

/-- A piece that gives a character is the encoding of that character. -/
theorem utf8EncodeChar_of_pieceAt (b : UInt8) (bs : Bytes) (c : Char) (more : Nat)
    (h : pieceAt b bs = ⟨.ok c, more⟩) :
    ∃ tail rest, bs = tail ++ rest ∧ tail.length = more ∧ String.utf8EncodeChar c = b :: tail := by
  unfold pieceAt at h
  cases hlead : leadOf b with
  | none => simp [hlead] at h
  | some lead =>
    simp only [hlead] at h
    -- one case for each number of bytes, as in `pieceAt_utf8EncodeChar`
    rcases leadOf_cases b lead hlead with ⟨hb, rfl⟩ | ⟨hlow, hhigh, rfl⟩ | ⟨hlow, hhigh, rfl⟩ |
      ⟨hlow, hhigh, rfl⟩
    · simp only [pieceFrom, Piece.mk.injEq, Except.ok.injEq] at h
      obtain ⟨rfl, rfl⟩ := h
      exact ⟨[], bs, rfl, rfl, utf8EncodeChar_ofNat b hb⟩
    · obtain ⟨b1, rest, rfl, hl1, hh1, h⟩ := pieceFrom_ok _ _ _ _ _ _ _ _ h
      simp only [pieceFrom, Piece.mk.injEq, Except.ok.injEq] at h
      obtain ⟨rfl, rfl⟩ := h
      exact ⟨[b1], rest, rfl, rfl, utf8EncodeChar_two b b1 ⟨hlow, hhigh⟩ ⟨hl1, hh1⟩⟩
    · obtain ⟨b1, rest1, rfl, hl1, hh1, h⟩ := pieceFrom_ok _ _ _ _ _ _ _ _ h
      obtain ⟨b2, rest, rfl, hl2, hh2, h⟩ := pieceFrom_ok _ _ _ _ _ _ _ _ h
      simp only [pieceFrom, Piece.mk.injEq, Except.ok.injEq] at h
      obtain ⟨rfl, rfl⟩ := h
      refine ⟨[b1, b2], rest, rfl, rfl, utf8EncodeChar_three b b1 b2 ⟨hlow, hhigh⟩ ?_ ⟨hl2, hh2⟩
        ?_ ?_⟩
      all_goals grind
    · obtain ⟨b1, rest1, rfl, hl1, hh1, h⟩ := pieceFrom_ok _ _ _ _ _ _ _ _ h
      obtain ⟨b2, rest2, rfl, hl2, hh2, h⟩ := pieceFrom_ok _ _ _ _ _ _ _ _ h
      obtain ⟨b3, rest, rfl, hl3, hh3, h⟩ := pieceFrom_ok _ _ _ _ _ _ _ _ h
      simp only [pieceFrom, Piece.mk.injEq, Except.ok.injEq] at h
      obtain ⟨rfl, rfl⟩ := h
      refine ⟨[b1, b2, b3], rest, rfl, rfl, utf8EncodeChar_four b b1 b2 b3 ⟨hlow, hhigh⟩ ?_
        ⟨hl2, hh2⟩ ⟨hl3, hh3⟩ ?_ ?_⟩
      all_goals grind

/-- Lossy decoding makes up no character but the replacement. -/
theorem mem_decodeLossy (c : Char) (skip : Nat) (bs : Bytes) (h : c ∈ decodeLossyFrom skip bs) :
    c = '\ufffd' ∨ ∀ b ∈ String.utf8EncodeChar c, b ∈ bs := by
  induction bs generalizing skip with
  | nil => simp [decodeLossyFrom] at h
  | cons b bs ih =>
    have later : ∀ skip, c ∈ decodeLossyFrom skip bs →
        c = '\ufffd' ∨ ∀ x ∈ String.utf8EncodeChar c, x ∈ b :: bs := fun skip h =>
      (ih skip h).imp_right fun hall x hx => List.mem_cons_of_mem b (hall x hx)
    cases skip with
    | succ skip => exact later skip h
    | zero =>
      rcases hpiece : pieceAt b bs with ⟨content, more⟩
      rw [decodeLossyFrom, hpiece, List.mem_cons] at h
      obtain rfl | h := h
      · cases content with
        | error fault => exact Or.inl rfl
        | ok c =>
          obtain ⟨tail, rest, rfl, -, hc⟩ := utf8EncodeChar_of_pieceAt b bs c more hpiece
          refine Or.inr fun x hx => ?_
          rw [hc] at hx
          exact List.mem_append_left rest hx
      · exact later more h

theorem encode_of_decodeFrom (position skip : Nat) (bs : Bytes) (t : Text)
    (h : decodeFrom position skip bs = .ok t) : encode t = bs.drop skip := by
  induction bs generalizing position skip t with
  | nil =>
    obtain rfl : [] = t := Except.ok.inj h
    rw [List.drop_nil, encode_nil]
  | cons b bs ih =>
    cases skip with
    | succ skip => exact ih _ _ _ h
    | zero =>
      rw [decodeFrom] at h
      rcases hpiece : pieceAt b bs with ⟨content, more⟩
      cases content with
      | error fault => simp [hpiece] at h
      | ok c =>
        obtain ⟨tail, rest, rfl, rfl, hc⟩ := utf8EncodeChar_of_pieceAt b bs c more hpiece
        simp only [hpiece] at h
        cases hrest : decodeFrom (position + 1) tail.length (tail ++ rest) with
        | error e => simp [hrest] at h
        | ok t' =>
          simp only [hrest, Except.ok.injEq] at h
          subst h
          rw [encode_cons, hc, ih _ _ _ hrest, List.drop_left, List.cons_append]
          rfl

/-- Strict decoding takes nothing but encodings. -/
theorem decode_eq_ok_iff (bs : Bytes) (t : Text) : decode bs = .ok t ↔ bs = encode t :=
  ⟨fun h => (encode_of_decodeFrom 0 0 bs t h).symm, fun h => h ▸ decode_encode t⟩

end KeyTables
