import KeyTables.Proofs.Block.ReadBack

/-! Keys that are not read back. A character outside ASCII in a key is read back as three, and two
slashes in a row hide the rest of their line.

* `compoundScan_ne`: the arguments of a compound key that does not last are read as something else.
* `keysFrom_listed_ne`: so is a list with a key that does not last. -/
namespace KeyTables
set_option autoImplicit false
open Cursor

/-- What stands for a stray byte. -/
def lost : Char :=
  '\ufffd'

theorem encode_lost : encode [lost] = [0xEF, 0xBF, 0xBD] := by
  decide +kernel

/-! ## Scanning -/

theorem compoundScan_spaces (depth : Int) (ws bs : Bytes) (h : ∀ b ∈ ws, isSpaceByte b = true) :
    compoundScan false depth (ws ++ bs) =
      (compoundScan false depth bs).map fun r => (r.1, r.2 + ws.length) := by
  induction ws with
  | nil => simp
  | cons b ws ih =>
    rw [List.cons_append, compoundScan_space depth b _ (h b List.mem_cons_self),
      ih (fun x hx => h x (List.mem_cons_of_mem b hx)), Option.map_map]
    rfl

theorem compoundScan_hidden (depth : Int) (body rest : Bytes)
    (h : ∀ b ∈ body, isLineFeed b = false) :
    compoundScan true depth (body ++ rest) =
      (compoundScan true depth rest).map fun r => (r.1, r.2 + body.length) := by
  induction body with
  | nil => simp
  | cons b body ih =>
    rw [List.cons_append, compoundScan, h b List.mem_cons_self, Bool.not_false,
      ih (fun x hx => h x (List.mem_cons_of_mem b hx)), Option.map_map]
    rfl

theorem compoundScan_lost (depth : Int) (bs : Bytes) :
    compoundScan false depth (encode [lost] ++ bs) =
      (compoundScan false depth bs).map fun r => (lost :: lost :: lost :: r.1, r.2 + 3) := by
  have step : ∀ (b : UInt8) (bs : Bytes), 0x80 ≤ b.toNat →
      compoundScan false depth (b :: bs) =
        (compoundScan false depth bs).map fun r => (lost :: r.1, r.2 + 1) := by
    intro b bs hb
    obtain ⟨hstray, hslash⟩ := isStray_of_high b hb
    obtain ⟨h1, h2⟩ := not_paren_of_stray b hstray
    have hparen : parenByte b = 0 := by simp [parenByte, h1, h2]
    rw [compoundScan_char depth b bs (isSpaceByte_of_stray b hstray)
      (by rw [hslash, Bool.false_and]) (fun h => h2 h.1), hparen, Int.add_zero, lossyChar,
      if_neg (by omega)]
    rfl
  rw [encode_lost, List.cons_append, List.cons_append, List.cons_append, List.nil_append,
    step _ _ (by decide), step _ _ (by decide), step _ _ (by decide), Option.map_map,
    Option.map_map]
  rfl

/-- The first byte that is scanned comes first in the text. -/
theorem compoundScan_first (depth : Int) (b : UInt8) (bs : Bytes) (s : Text) (n : Nat)
    (hb : isSpaceByte b = false) (hs : (isSlash b && bs.head?.any isSlash) = false)
    (h : compoundScan false depth (b :: bs) = some (s, n)) :
    ∃ s', s = lossyChar b :: s' ∧
      (s' = [] ∨ ∃ depth' n', compoundScan false depth' bs = some (s', n')) := by
  rw [compoundScan, hb, hs] at h
  simp only [Bool.false_eq_true, if_false] at h
  split at h
  · obtain ⟨rfl, -⟩ := Prod.mk.inj (Option.some.inj h)
    exact ⟨[], rfl, Or.inl rfl⟩
  · obtain ⟨⟨s', n'⟩, hscan, he⟩ := Option.map_eq_some_iff.mp h
    obtain ⟨rfl, -⟩ := Prod.mk.inj he
    exact ⟨s', rfl, Or.inr ⟨_, n', hscan⟩⟩

/-- Two slashes hide the rest of the line. -/
theorem compoundScan_pair (depth : Int) (body : Text) (rest : Bytes) (h : '\n' ∉ body) :
    compoundScan false depth (encode ('/' :: '/' :: body) ++ rest) =
      (compoundScan true depth rest).map fun r => (r.1, r.2 + ((encode body).length + 1) + 1) := by
  have hline : ∀ b ∈ 0x2F :: encode body, isLineFeed b = false := by
    intro b hb
    rcases List.mem_cons.mp hb with rfl | hb
    · rfl
    · exact lineFeed_encode body h b hb
  have hbytes : encode ('/' :: '/' :: body) ++ rest = 0x2F :: (0x2F :: encode body ++ rest) := by
    rw [encode_cons_ascii '/' _ (by decide), encode_cons_ascii '/' _ (by decide)]
    rfl
  rw [hbytes, compoundScan, if_neg (by decide), if_pos (by rfl), compoundScan_hidden depth _ _ hline,
    Option.map_map]
  rfl

/-! ## After a comment -/

def startsPair : Text → Bool
  | '/' :: '/' :: _ => true
  | _ => false

theorem startsPair_cons (c : Char) (s : Text) (h : startsPair (c :: s) = true) :
    c = '/' ∧ s.head? = some '/' := by
  unfold startsPair at h
  split at h
  · next he =>
    obtain ⟨rfl, rfl⟩ := List.cons.inj he
    exact ⟨rfl, rfl⟩
  · simp at h

/-- A scan over these bytes starts with something other than a slash. -/
def Clear (rest : Bytes) : Prop :=
  (∀ b ∈ rest.head?, isSlash b = false) ∧
    ∀ depth s n, compoundScan false depth rest = some (s, n) → s.head? ≠ some '/'

theorem lossyChar_slash (b : UInt8) (h : lossyChar b = '/') : b = 0x2F :=
  UInt8.toNat_inj.mp ((lossyChar_eq_iff b '/' (by decide)).mp h)

theorem clear_of_mark (ws rest : Bytes) (b : UInt8) (kind : Token.Kind)
    (hws : ∀ x ∈ ws, isSpaceByte x = true) (hb : punctuation? b = some kind) :
    Clear (ws ++ b :: rest) := by
  have hslash : isSlash b = false := by
    simpa using mark_all (fun b _ => !isSlash b) (by decide) b kind hb
  refine ⟨?_, ?_⟩
  · cases ws with
    | nil => simpa using hslash
    | cons x ws =>
      have hx := hws x List.mem_cons_self
      simp only [isSpaceByte, Bool.or_eq_true, beq_iff_eq] at hx
      rcases hx with ((rfl | rfl) | rfl) | rfl <;> simp [isSlash]
  · intro depth s n h
    rw [compoundScan_spaces depth ws _ hws, Option.map_eq_some_iff] at h
    obtain ⟨⟨s, n⟩, hscan, he⟩ := h
    obtain ⟨rfl, -⟩ := Prod.mk.inj he
    obtain ⟨s', rfl, -⟩ := compoundScan_first depth b rest s n (isSpaceByte_of_mark b kind hb)
      (by rw [hslash, Bool.false_and]) hscan
    intro hhead
    rw [lossyChar_slash b (by simpa using hhead)] at hslash
    exact absurd hslash (by decide)

theorem startsPair_ident (depth : Int) (w : Text) (rest : Bytes) (s : Text) (n : Nat)
    (hw : IdentText w) (hrest : Clear rest)
    (h : compoundScan false depth (encode w ++ rest) = some (s, n)) : startsPair s = false := by
  refine Bool.eq_false_iff.mpr (fun hpair => ?_)
  rcases hw.cases with ⟨ha, hs⟩ | rfl
  · generalize encode w = lexeme at h hs
    generalize hk : Token.Kind.ident = kind at hs
    cases hs with
    | mark b kind hp =>
      have := mark_all (fun _ kind => kind != .ident) (by decide) b kind hp
      simp [← hk] at this
    | comment body => simp at hk
    | word _ hne hword =>
      cases lexeme with
      | nil => exact hne rfl
      | cons b more =>
        have hb := hword b List.mem_cons_self
        have hslash := isSlash_of_word b hb
        obtain ⟨s', rfl, -⟩ := compoundScan_first depth b _ s n (isSpaceByte_of_word b hb)
          (by rw [hslash, Bool.false_and]) h
        rw [lossyChar_slash b (startsPair_cons _ _ hpair).1] at hslash
        exact absurd hslash (by decide)
    | stray b hb =>
      have hs : (isSlash b && rest.head?.any isSlash) = false := by
        rw [Bool.and_eq_false_iff]
        refine Or.inr ?_
        cases hx : rest.head? with
        | none => rfl
        | some x => exact hrest.1 x hx
      obtain ⟨s', rfl, hs'⟩ := compoundScan_first depth b rest s n (isSpaceByte_of_stray b hb) hs h
      obtain ⟨-, hhead⟩ := startsPair_cons _ _ hpair
      rcases hs' with rfl | ⟨depth', n', hscan⟩
      · simp at hhead
      · exact hrest.2 depth' s' n' hscan hhead
  · have hlost := compoundScan_lost depth rest
    rw [lost] at hlost
    rw [hlost, Option.map_eq_some_iff] at h
    obtain ⟨r, -, he⟩ := h
    obtain ⟨rfl, -⟩ := Prod.mk.inj he
    exact absurd (startsPair_cons _ _ hpair).1 (by decide)

theorem startsPair_listed {dangling : Bool} (depth : Int) (keys : List Text) (t : Text)
    (after : Bytes) (s : Text) (n : Nat) (ht : Listed dangling keys t) (hk : ∀ k ∈ keys, KeyText k)
    (h : compoundScan false depth (encode t ++ 0x29 :: after) = some (s, n)) :
    startsPair s = false := by
  cases ht with
  | nil gap hgap hbreak =>
    have hclear := clear_of_mark (encode t) after 0x29 .rparen (isSpaceByte_encode t hgap) rfl
    refine Bool.eq_false_iff.mpr (fun hpair => ?_)
    cases s with
    | nil => simp [startsPair] at hpair
    | cons c s =>
      exact hclear.2 depth _ n h (by rw [(startsPair_cons c s hpair).1]; rfl)
  | cons gap k sep t keys hgap hsep ht =>
    have hclear : Clear (encode (sep ++ t) ++ 0x29 :: after) := by
      rcases hsep with ⟨rfl, rfl⟩ | ⟨m, rfl, -⟩
      · cases ht with
        | nil gap hgap hbreak =>
          exact clear_of_mark _ after 0x29 .rparen (isSpaceByte_encode t hgap) rfl
      · rw [List.append_assoc, encode_append, List.singleton_append,
          encode_cons_ascii ',' t (by decide), List.append_assoc]
        exact clear_of_mark _ _ _ .comma (isSpaceByte_replicate m) rfl
    rw [encode_append, List.append_assoc, compoundScan_spaces depth _ _
      (isSpaceByte_encode gap hgap), Option.map_eq_some_iff] at h
    obtain ⟨⟨s, n⟩, hscan, he⟩ := h
    obtain ⟨rfl, -⟩ := Prod.mk.inj he
    rw [encode_append, List.append_assoc] at hscan
    cases hk k List.mem_cons_self with
    | unassigned =>
      have hbytes : encode (shown []) = 0x5F :: List.replicate 6 0x5F := by decide +kernel
      rw [hbytes, List.cons_append] at hscan
      obtain ⟨s', rfl, -⟩ := compoundScan_first depth 0x5F _ s n rfl rfl hscan
      refine Bool.eq_false_iff.mpr (fun hpair => ?_)
      exact absurd (startsPair_cons _ _ hpair).1 (by decide)
    | plain w h =>
      rw [shown, if_neg (by simpa using h.ne_nil)] at hscan
      exact startsPair_ident depth k _ s n h hclear hscan
    | compound w body h ink hc =>
      rw [shown, if_neg (by simp), encode_append, List.append_assoc] at hscan
      refine startsPair_ident depth w _ s n h ?_ hscan
      rw [encode_cons_ascii '(' body (by decide), List.cons_append]
      exact clear_of_mark [] _ _ .lparen (by simp) rfl

theorem not_lineFeed_separator {dangling : Bool} (sep : Text) (keys : List Text)
    (h : Separates dangling sep keys) : '\n' ∉ sep := by
  rcases h with ⟨rfl, -⟩ | ⟨m, rfl, -⟩
  · simp
  · simp

theorem compoundScan_break (depth : Int) (t u : Text) (rest : Bytes) (h : '\n' ∉ t) :
    compoundScan true depth (encode (t ++ '\n' :: u) ++ rest) =
      (compoundScan false depth (encode ('\n' :: u) ++ rest)).map
        fun r => (r.1, r.2 + (encode t).length) := by
  rw [encode_append, List.append_assoc]
  refine compoundScan_comment depth _ _ (lineFeed_encode t h) ?_
  rw [encode_cons_ascii '\n' u (by decide), List.cons_append, List.head?_cons]
  intro b hb
  obtain rfl := Option.mem_some.mp hb
  rfl

/-- A comment inside a key list ends with its line, and what is read then does not start with two
slashes. -/
theorem startsPair_hidden {dangling : Bool} (depth : Int) (keys : List Text) (t : Text)
    (after : Bytes) (s : Text) (n : Nat) (ht : Listed dangling keys t) (hk : ∀ k ∈ keys, KeyText k)
    (h : compoundScan true depth (encode t ++ 0x29 :: after) = some (s, n)) :
    startsPair s = false := by
  induction ht generalizing depth s n with
  | nil gap hgap hbreak =>
    obtain ⟨g1, g2, rfl, hg1⟩ := List.eq_append_cons_of_mem hbreak
    rw [compoundScan_break depth g1 g2 _ hg1, Option.map_eq_some_iff] at h
    obtain ⟨⟨s, n⟩, hscan, he⟩ := h
    obtain ⟨rfl, -⟩ := Prod.mk.inj he
    refine @startsPair_listed dangling depth [] _ after s n (.nil ('\n' :: g2) ?_ List.mem_cons_self) hk hscan
    exact fun c hc => hgap c (List.mem_append_right g1 hc)
  | cons gap k sep t keys hgap hsep ht ih =>
    by_cases hbreak : '\n' ∈ gap
    · obtain ⟨g1, g2, rfl, hg1⟩ := List.eq_append_cons_of_mem hbreak
      rw [List.append_assoc, List.cons_append, compoundScan_break depth g1 _ _ hg1,
        Option.map_eq_some_iff] at h
      obtain ⟨⟨s, n⟩, hscan, he⟩ := h
      obtain ⟨rfl, -⟩ := Prod.mk.inj he
      refine startsPair_listed depth (k :: keys) _ after s n
        (.cons ('\n' :: g2) k sep t keys ?_ hsep ht) hk hscan
      exact fun c hc => hgap c (List.mem_append_right g1 hc)
    · have hline : '\n' ∉ gap ++ (shown k ++ sep) := by
        have hsep' := not_lineFeed_separator sep keys hsep
        have hkey := not_lineFeed_shown k (hk k List.mem_cons_self)
        simp only [List.mem_append, not_or]
        exact ⟨hbreak, hkey, hsep'⟩
      have happ : gap ++ (shown k ++ (sep ++ t)) = gap ++ (shown k ++ sep) ++ t := by simp
      rw [happ, encode_append, List.append_assoc, compoundScan_hidden depth _ _
        (lineFeed_encode _ hline), Option.map_eq_some_iff] at h
      obtain ⟨⟨s, n⟩, hscan, he⟩ := h
      obtain ⟨rfl, -⟩ := Prod.mk.inj he
      exact ih depth s n (fun x hx => hk x (List.mem_cons_of_mem k hx)) hscan

theorem startsPair_separated {dangling : Bool} (depth : Int) (sep t : Text) (keys : List Text)
    (after : Bytes) (s : Text) (n : Nat) (hsep : Separates dangling sep keys)
    (ht : Listed dangling keys t)
    (hk : ∀ k ∈ keys, KeyText k)
    (h : compoundScan true depth (encode (sep ++ t) ++ 0x29 :: after) = some (s, n)) :
    startsPair s = false := by
  rw [encode_append, List.append_assoc, compoundScan_hidden depth _ _
    (lineFeed_encode sep (not_lineFeed_separator sep keys hsep)), Option.map_eq_some_iff] at h
  obtain ⟨⟨s', n'⟩, hscan, he⟩ := h
  obtain ⟨rfl, -⟩ := Prod.mk.inj he
  exact startsPair_hidden depth keys t after s' n' ht hk hscan

/-! ## Compound keys -/

theorem ink_cases (c : Char) (h : isInk c = true) : c.toNat < 0x80 ∨ c = lost := by
  rw [isInk, Bool.or_eq_true, Bool.and_eq_true, decide_eq_true_eq] at h
  rcases h with h | h
  · exact Or.inr (eq_of_beq h)
  · exact Or.inl h.1

theorem isLasting_cons (c : Char) (t : Text) (h : c.toNat < 0x80)
    (hp : ¬ (c = '/' ∧ t.head? = some '/')) : isLasting (c :: t) = isLasting t := by
  have hascii : isAscii (c :: t) = isAscii t := by
    rw [isAscii, List.all_cons, decide_eq_true h, Bool.true_and]
    rfl
  have hpair : hasSlashPair (c :: t) = hasSlashPair t := by
    cases t with
    | nil => simp [hasSlashPair]
    | cons d t =>
      rw [hasSlashPair]
      intro tail hc he
      exact hp ⟨hc, by rw [he]; rfl⟩
  rw [isLasting, isLasting, hascii, hpair]

theorem replicate_three {α : Type} (m : Nat) (a : α) (s : List α) :
    List.replicate m a ++ a :: a :: a :: s = a :: (List.replicate (m + 2) a ++ s) := by
  induction m with
  | zero => rfl
  | succ m ih =>
    rw [List.replicate_succ, List.cons_append, ih]
    rfl

/-- A body that does not last is not read back. The characters in front of it count what the
replacements before it have been multiplied to. -/
theorem compoundScan_ne (depth : Int) (body : Text) (rest : Bytes)
    (hrest : ∀ d s n, compoundScan true d rest = some (s, n) → startsPair s = false)
    (hc : closes depth body = true) (ink : ∀ c ∈ body, isInk c = true) (m : Nat)
    (hbad : 0 < m ∨ isLasting body = false) (s : Text) (n : Nat)
    (h : compoundScan false depth (encode body ++ rest) = some (s, n)) :
    List.replicate m lost ++ s ≠ body := by
  induction body generalizing depth m s n with
  | nil => simp [closes] at hc
  | cons c body ih =>
    have hinkc := ink c List.mem_cons_self
    have hbody : ∀ x ∈ body, isInk x = true := fun x hx => ink x (List.mem_cons_of_mem c hx)
    intro he
    rcases ink_cases c hinkc with hlow | rfl
    · obtain rfl : m = 0 := by
        cases m with
        | zero => rfl
        | succ m =>
          rw [List.replicate_succ, List.cons_append] at he
          rw [← (List.cons.inj he).1] at hlow
          exact absurd hlow (by decide)
      have hlast : isLasting (c :: body) = false := by simpa using hbad
      rw [List.replicate_zero, List.nil_append] at he
      by_cases hpair : c = '/' ∧ body.head? = some '/'
      · -- the rest of the line is hidden, so the text cannot go on with the second slash
        obtain ⟨rfl, hhead⟩ := hpair
        obtain ⟨tail, rfl⟩ := List.head?_eq_some_iff.mp hhead
        have hline : '\n' ∉ tail :=
          fun hmem => not_lineFeed_of_ink _ (hbody _ (List.mem_cons_of_mem _ hmem)) rfl
        rw [compoundScan_pair depth tail rest hline, Option.map_eq_some_iff] at h
        obtain ⟨⟨s', n'⟩, hscan, hsn⟩ := h
        obtain ⟨rfl, -⟩ := Prod.mk.inj hsn
        have hno := hrest depth s' n' hscan
        rw [show s' = '/' :: '/' :: tail from he, startsPair] at hno
        exact Bool.noConfusion hno
      · rw [isLasting_cons c body hlow hpair] at hlast
        rw [encode_cons_ascii c body hlow, List.cons_append] at h
        have hspace := isSpaceByte_of_ink c hlow hinkc
        have hparen := parenByte_ofNat c hlow
        have hclose := ofNat_toNat_eq_iff c ')' hlow (by decide)
        rw [closes] at hc
        split at hc
        · rw [List.isEmpty_iff.mp hc] at hlast
          exact absurd hlast (by decide)
        · next hopen =>
          have hs := slash_apart c body rest hlow (by intro hnil; simp [hnil, closes] at hc) hpair
          rw [compoundScan_char depth _ _ hspace hs (fun hx => hopen ⟨hclose.mp hx.1, by
            rw [← hparen]
            exact hx.2⟩), hparen, Option.map_eq_some_iff] at h
          obtain ⟨⟨s', n'⟩, hscan, hsn⟩ := h
          obtain ⟨rfl, -⟩ := Prod.mk.inj hsn
          exact ih _ hc hbody 0 (Or.inr hlast) s' n' hscan (List.cons.inj he).2
    · have hparen : parenChar lost = 0 := by decide
      rw [closes, if_neg (fun hx => absurd hx.1 (by decide)), hparen, Int.add_zero] at hc
      rw [← List.singleton_append, encode_append, List.append_assoc, compoundScan_lost,
        Option.map_eq_some_iff] at h
      obtain ⟨⟨s', n'⟩, hscan, hsn⟩ := h
      obtain ⟨rfl, -⟩ := Prod.mk.inj hsn
      refine ih depth hc hbody (m + 2) (Or.inl (by omega)) s' n' hscan ?_
      rw [replicate_three] at he
      exact (List.cons.inj he).2

/-! ## Lists of keys -/

theorem hasSlashPair_append (w t : Text) (h : '/' ∉ w) :
    hasSlashPair (w ++ t) = hasSlashPair t := by
  induction w with
  | nil => rfl
  | cons c w ih =>
    simp only [List.mem_cons, not_or] at h
    rw [List.cons_append, hasSlashPair, ih h.2]
    intro tail hc
    exact absurd hc.symm h.1

theorem IdentText.slash {w : Text} (h : IdentText w) : '/' ∉ w ∨ ∃ c, w = [c] := by
  obtain ⟨lexeme, hs, rfl⟩ := h
  generalize hk : Token.Kind.ident = kind at hs
  cases hs with
  | mark b kind hp => exact Or.inr ⟨lossyChar b, rfl⟩
  | comment body => simp at hk
  | word _ hw hword =>
    refine Or.inl ?_
    intro hmem
    obtain ⟨b, hb, he⟩ := List.mem_map.mp hmem
    have := isSlash_of_word b (hword b hb)
    rw [lossyChar_slash b he] at this
    exact absurd this (by decide)
  | stray b hb => exact Or.inr ⟨lossyChar b, rfl⟩

theorem IdentText.hasSlashPair_append {w : Text} (h : IdentText w) (t : Text)
    (ht : t.head? ≠ some '/') : hasSlashPair (w ++ t) = hasSlashPair t := by
  rcases h.slash with hw | ⟨c, rfl⟩
  · exact KeyTables.hasSlashPair_append w t hw
  · rw [List.singleton_append, hasSlashPair]
    intro tail _ he
    rw [he] at ht
    exact ht rfl

theorem tokensFrom_lost (o : Nat) (rest : Bytes) :
    ∃ t1 t2 t3, (∀ t ∈ [t1, t2, t3], t.kind = .ident ∧ t.text = [lost]) ∧
      tokensFrom o 0 (encode [lost] ++ rest) = t1 :: t2 :: t3 :: tokensFrom (o + 3) 0 rest := by
  have step : ∀ (o : Nat) (b : UInt8) (bs : Bytes), 0x80 ≤ b.toNat →
      tokensFrom o 0 (b :: bs) = ⟨.ident, o, [b]⟩ :: tokensFrom (o + 1) 0 bs := by
    intro o b bs hb
    obtain ⟨hstray, hslash⟩ := isStray_of_high b hb
    exact tokensFrom_stray o b bs hstray (by simp [hslash])
  refine ⟨⟨.ident, o, [0xEF]⟩, ⟨.ident, o + 1, [0xBF]⟩, ⟨.ident, o + 2, [0xBD]⟩, ?_, ?_⟩
  · simp only [List.forall_mem_cons, Token.text, decodeLossy_singleton]
    decide
  · rw [encode_lost, List.cons_append, List.cons_append, List.cons_append, List.nil_append,
      step o _ _ (by decide), step _ _ _ (by decide), step _ _ _ (by decide)]

theorem keysFrom_lost (o : Nat) (rest : Bytes) (hrest : Ends rest) :
    keysFrom (tokensFrom o 0 (encode [lost] ++ rest)) =
      (keysFrom (tokensFrom (o + 3) 0 rest)).map
        fun r => ([lost] :: [lost] :: [lost] :: r.1, r.2) := by
  obtain ⟨t1, t2, t3, hall, hts⟩ := tokensFrom_lost o rest
  simp only [List.forall_mem_cons] at hall
  obtain ⟨⟨k1, e1⟩, ⟨k2, e2⟩, ⟨k3, e3⟩, -⟩ := hall
  rw [hts, keysFrom_plain t1 _ k1 (by simp [k2]), keysFrom_plain t2 _ k2 (by simp [k3]),
    keysFrom_plain t3 _ k3 (hrest.bare _), e1, e2, e3, Option.map_map, Option.map_map]
  rfl

theorem keysFrom_lost_first (o : Nat) (rest : Bytes) (keys : List Text) (after : List Token)
    (h : keysFrom (tokensFrom o 0 (encode [lost] ++ rest)) = some (keys, after)) :
    keys.head? = some [lost] := by
  obtain ⟨t1, t2, t3, hall, hts⟩ := tokensFrom_lost o rest
  simp only [List.forall_mem_cons] at hall
  obtain ⟨⟨k1, e1⟩, ⟨k2, e2⟩, -⟩ := hall
  rw [hts, keysFrom_plain t1 _ k1 (by simp [k2]), e1, Option.map_eq_some_iff] at h
  obtain ⟨r, -, he⟩ := h
  obtain ⟨rfl, -⟩ := Prod.mk.inj he
  rfl

/-- A key that is not read back, by what becomes of it: a lost character alone becomes three keys,
in front of arguments it becomes a key without them, and other arguments change. -/
theorem keysFrom_misread {dangling : Bool} (o : Nat) (k sep t : Text) (keys ks : List Text)
    (after : Bytes) (rest : List Token) (hk : KeyText k) (hl : isLasting k = false)
    (hsep : Separates dangling sep keys) (ht : Listed dangling keys t) (hkeys : ∀ x ∈ keys, KeyText x)
    (h : keysFrom (tokensFrom o 0 (encode (shown k) ++ (encode (sep ++ t) ++ 0x29 :: after))) =
      some (ks, rest)) :
    (k = [lost] ∧ ∃ ks', ks = [lost] :: [lost] :: [lost] :: ks' ∧
      keysFrom (tokensFrom (o + 3) 0 (encode (sep ++ t) ++ 0x29 :: after)) = some (ks', rest)) ∨
    (k ≠ [lost] ∧ ks.head? ≠ some k) := by
  have hends := ends_of_listed sep t keys after hsep ht
  cases hk with
  | unassigned => exact absurd hl (by decide)
  | plain w hw =>
    rw [shown, if_neg (by simpa using hw.ne_nil)] at h
    rcases hw.cases with ⟨ha, -⟩ | hlost
    · have hpair := hw.hasSlashPair_append [] (by simp)
      rw [List.append_nil] at hpair
      rw [isLasting, ha, hpair] at hl
      exact absurd hl (by decide)
    · have hlost' : k = [lost] := hlost
      rw [hlost', keysFrom_lost o _ hends, Option.map_eq_some_iff] at h
      obtain ⟨⟨ks', rest'⟩, hr, he⟩ := h
      obtain ⟨rfl, rfl⟩ := Prod.mk.inj he
      exact Or.inl ⟨hlost', ks', rfl, hr⟩
  | compound w body hw ink hc =>
    rw [shown, if_neg (by simp)] at h
    refine Or.inr ⟨?_, ?_⟩
    · intro he
      have hlen := congrArg List.length he
      have hpos := List.length_pos_iff.mpr hw.ne_nil
      simp only [List.length_append, List.length_cons, List.length_nil] at hlen
      omega
    rcases hw.cases with ⟨ha, -⟩ | hlost
    · have hbody : isLasting ('(' :: body) = false := by
        rw [isLasting, isAscii_append, ha, Bool.true_and, hw.hasSlashPair_append _ (by simp)] at hl
        exact hl
      rw [keysFrom_arguments o w body _ hw ha, compoundFrom_eq_scan, Option.bind_eq_some_iff] at h
      obtain ⟨⟨s, closing⟩, hc', hr⟩ := h
      rw [Option.map_eq_some_iff] at hc' hr
      obtain ⟨⟨s', n⟩, hscan, he⟩ := hc'
      obtain ⟨rfl, -⟩ := Prod.mk.inj he
      obtain ⟨r, -, he⟩ := hr
      obtain ⟨rfl, -⟩ := Prod.mk.inj he
      have hne := compoundScan_ne 0 ('(' :: body) _
        (fun d s n hscan => startsPair_separated d sep t keys after s n hsep ht hkeys hscan) hc
        (by simpa using ⟨rfl, ink⟩) 0 (Or.inr hbody) s' n hscan
      intro he
      exact hne (List.append_cancel_left (Option.some.inj he))
    · have hlost' : w = [lost] := hlost
      rw [encode_append, List.append_assoc, hlost'] at h
      rw [keysFrom_lost_first o _ ks rest h, hlost']
      simp

/-- A list with a key that does not last is not read back, whatever keys it is compared with in the
end. The keys in front count what lost characters have been multiplied to. -/
theorem keysFrom_listed_ne {dangling : Bool} (keys : List Text) (t : Text)
    (h : Listed dangling keys t) (hk : ∀ k ∈ keys, KeyText k) (m : Nat)
    (hbad : 0 < m ∨ ∃ k ∈ keys, isLasting k = false) (extra : List Text) (hextra : extra.head? ≠ some [lost]) (o : Nat) (after : Bytes)
    (ks : List Text) (rest : List Token)
    (hread : keysFrom (tokensFrom o 0 (encode t ++ 0x29 :: after)) = some (ks, rest)) :
    List.replicate m [lost] ++ ks ≠ keys ++ extra := by
  induction h generalizing m o ks with
  | nil gap hgap hbreak =>
    rw [tokensFrom_spaces o _ _ (isSpaceByte_encode gap hgap), tokensFrom_mark _ 0x29 .rparen after rfl,
      keysFrom_rparen _ _ rfl] at hread
    obtain ⟨rfl, -⟩ := Prod.mk.inj (Option.some.inj hread)
    have hm : 0 < m := by simpa using hbad
    intro he
    rw [List.append_nil, List.nil_append] at he
    rw [← he, List.head?_replicate, if_neg (by omega)] at hextra
    exact hextra rfl
  | cons gap k sep t keys hgap hsep ht ih =>
    have hkeys : ∀ x ∈ keys, KeyText x := fun x hx => hk x (List.mem_cons_of_mem k hx)
    rw [encode_append, List.append_assoc, tokensFrom_spaces o _ _ (isSpaceByte_encode gap hgap),
      encode_append, List.append_assoc] at hread
    intro he
    by_cases hl : isLasting k = true
    · have hends := ends_of_listed sep t keys after hsep ht
      rw [keysFrom_shown _ k _ (hk k List.mem_cons_self) hl hends, encode_append, List.append_assoc,
        keysFrom_separator _ sep keys _ hsep, Option.map_eq_some_iff] at hread
      obtain ⟨⟨ks', rest'⟩, hr, hks⟩ := hread
      obtain ⟨rfl, rfl⟩ := Prod.mk.inj hks
      cases m with
      | succ m =>
        rw [List.replicate_succ, List.cons_append, List.cons_append, List.cons.injEq] at he
        rw [← he.1] at hl
        exact absurd hl (by decide)
      | zero =>
        refine ih hkeys 0 (Or.inr ?_) _ ks' hr (List.cons.inj he).2
        obtain ⟨x, hx, hxl⟩ : ∃ x ∈ k :: keys, isLasting x = false := by simpa using hbad
        rcases List.mem_cons.mp hx with rfl | hx
        · rw [hl] at hxl
          simp at hxl
        · exact ⟨x, hx, hxl⟩
    · rcases keysFrom_misread _ k sep t keys ks after rest (hk k List.mem_cons_self)
        (by simpa using hl) hsep ht hkeys hread with ⟨rfl, ks', rfl, hr⟩ | ⟨hlost, hne⟩
      · rw [replicate_three, List.cons_append, List.cons.injEq] at he
        rw [encode_append, List.append_assoc, keysFrom_separator _ sep keys _ hsep] at hr
        exact ih hkeys (m + 2) (Or.inl (by omega)) _ ks' hr he.2
      · cases m with
        | succ m =>
          rw [List.replicate_succ, List.cons_append, List.cons_append, List.cons.injEq] at he
          exact hlost he.1.symm
        | zero =>
          rw [List.replicate_zero, List.nil_append] at he
          rw [he] at hne
          exact hne rfl

end KeyTables
