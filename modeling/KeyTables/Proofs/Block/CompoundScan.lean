import KeyTables.Block.Keys
import KeyTables.Proofs.Token.Spelling

/-! Compound keys, read byte by byte. How the bytes of a compound key are cut into words makes no
difference to its text, so reading it token by token is the same as one scan over its bytes that
counts parentheses and passes over spaces and comments.

* `compoundScan`: the scan.
* `compoundFrom_eq_scan`: it agrees with reading the tokens. -/
namespace KeyTables
set_option autoImplicit false

/-- What a byte adds to the number of open parentheses. -/
def parenByte (b : UInt8) : Int :=
  if b = 0x28 then 1 else if b = 0x29 then -1 else 0

/-- The text up to the closing parenthesis that leaves none open, and the position of that
parenthesis. Inside a comment everything up to the next line feed is passed over. -/
def compoundScan : (inComment : Bool) → (depth : Int) → Bytes → Option (Text × Nat)
  | _, _, [] => none
  | true, depth, b :: bs =>
    (compoundScan (!isLineFeed b) depth bs).map fun r => (r.1, r.2 + 1)
  | false, depth, b :: bs =>
    if isSpaceByte b then (compoundScan false depth bs).map fun r => (r.1, r.2 + 1)
    else if isSlash b && bs.head?.any isSlash then
      (compoundScan true depth bs).map fun r => (r.1, r.2 + 1)
    else if b = 0x29 ∧ depth + parenByte b = 0 then some ([lossyChar b], 0)
    else (compoundScan false (depth + parenByte b) bs).map fun r => (lossyChar b :: r.1, r.2 + 1)

/-! ## Runs -/

theorem compoundScan_space (depth : Int) (b : UInt8) (bs : Bytes) (h : isSpaceByte b = true) :
    compoundScan false depth (b :: bs) =
      (compoundScan false depth bs).map fun r => (r.1, r.2 + 1) := by
  rw [compoundScan, if_pos h]

theorem compoundScan_char (depth : Int) (b : UInt8) (bs : Bytes) (hb : isSpaceByte b = false)
    (hs : (isSlash b && bs.head?.any isSlash) = false)
    (hc : ¬ (b = 0x29 ∧ depth + parenByte b = 0)) :
    compoundScan false depth (b :: bs) =
      (compoundScan false (depth + parenByte b) bs).map fun r => (lossyChar b :: r.1, r.2 + 1) := by
  rw [compoundScan, hb, hs, if_neg hc]
  rfl

theorem compoundScan_close (depth : Int) (bs : Bytes) (h : depth + parenByte 0x29 = 0) :
    compoundScan false depth (0x29 :: bs) = some ([')'], 0) := by
  rw [compoundScan, if_neg (by decide), if_neg (by simp [isSlash]), if_pos ⟨rfl, h⟩]
  rfl

theorem compoundScan_comment (depth : Int) (body rest : Bytes)
    (hbody : ∀ b ∈ body, isLineFeed b = false) (hrest : ∀ b ∈ rest.head?, isLineFeed b = true) :
    compoundScan true depth (body ++ rest) =
      (compoundScan false depth rest).map fun r => (r.1, r.2 + body.length) := by
  induction body with
  | nil =>
    cases rest with
    | nil => rfl
    | cons b rest =>
      have hb : isLineFeed b = true := hrest b rfl
      have e : b = 0x0A := by simpa [isLineFeed] using hb
      subst e
      rw [List.nil_append, compoundScan_space depth 0x0A rest rfl, compoundScan, Option.map_map]
      rfl
  | cons b body ih =>
    have hb := hbody b List.mem_cons_self
    have ht := ih (fun x hx => hbody x (List.mem_cons_of_mem b hx))
    rw [List.cons_append, compoundScan, hb, Bool.not_false, ht, Option.map_map]
    rfl

theorem not_paren_of_word (b : UInt8) (h : isWordByte b = true) : b ≠ 0x28 ∧ b ≠ 0x29 := by
  refine ⟨?_, ?_⟩ <;> intro e <;> subst e <;> exact absurd h (by decide)

theorem compoundScan_word (depth : Int) (w rest : Bytes) (h : ∀ b ∈ w, isWordByte b = true) :
    compoundScan false depth (w ++ rest) =
      (compoundScan false depth rest).map fun r => (w.map lossyChar ++ r.1, r.2 + w.length) := by
  induction w with
  | nil => simp
  | cons b w ih =>
    have hb := h b List.mem_cons_self
    have ht := ih (fun x hx => h x (List.mem_cons_of_mem b hx))
    obtain ⟨h1, h2⟩ := not_paren_of_word b hb
    have hp : parenByte b = 0 := by simp [parenByte, h1, h2]
    rw [List.cons_append, compoundScan_char depth b _ (isSpaceByte_of_word b hb)
      (by rw [isSlash_of_word b hb, Bool.false_and]) (fun hc => h2 hc.1), hp, Int.add_zero, ht,
      Option.map_map]
    rfl

/-! ## Tokens -/

open Cursor in
theorem compoundFrom_comment (depth : Int) (t : Token) (ts : List Token)
    (h : t.kind = .comment) : compoundFrom depth (t :: ts) = compoundFrom depth ts := by
  rw [compoundFrom, if_pos h]

open Cursor in
theorem compoundFrom_close (depth : Int) (t : Token) (ts : List Token)
    (h : t.kind = .rparen ∧ depth + parenStep t.kind = 0) :
    compoundFrom depth (t :: ts) = some (t.text, t :: ts) := by
  rw [compoundFrom, if_neg (by simp [h.1]), if_pos h]

open Cursor in
theorem compoundFrom_step (depth : Int) (t : Token) (ts : List Token) (h : t.kind ≠ .comment)
    (hc : ¬ (t.kind = .rparen ∧ depth + parenStep t.kind = 0)) :
    compoundFrom depth (t :: ts) =
      (compoundFrom (depth + parenStep t.kind) ts).map fun r => (t.text ++ r.1, r.2) := by
  rw [compoundFrom, if_neg h, if_neg hc]
  cases compoundFrom (depth + parenStep t.kind) ts <;> rfl

theorem parenByte_mark (b : UInt8) (kind : Token.Kind) (h : punctuation? b = some kind) :
    parenByte b = Cursor.parenStep kind ∧ (b = 0x29 ↔ kind = .rparen) := by
  have := mark_all (fun b kind => decide (parenByte b = Cursor.parenStep kind ∧
    (b = 0x29 ↔ kind = .rparen))) (by decide) b kind h
  simpa using this

theorem parenStep_wordKind (w : Bytes) :
    Cursor.parenStep (wordKind w) = 0 ∧ wordKind w ≠ .rparen := by
  have h := wordKind_not_mark w
  refine ⟨?_, ?_⟩
  · cases hk : wordKind w <;> simp_all [Token.Kind.isMark, Cursor.parenStep]
  · intro hk
    simp [hk, Token.Kind.isMark] at h

theorem punctuation_of_stray (b : UInt8) (h : isStray b = true) : punctuation? b = none := by
  simp only [isStray, Bool.and_eq_true, Option.isNone_iff_eq_none] at h
  exact h.2

theorem not_paren_of_stray (b : UInt8) (h : isStray b = true) : b ≠ 0x28 ∧ b ≠ 0x29 := by
  refine ⟨?_, ?_⟩ <;> intro e <;> subst e <;> exact absurd h (by decide)

/-- The result of a scan in terms of the tokens of the scanned bytes. -/
def scannedTokens (o : Nat) (bs : Bytes) (r : Text × Nat) : Text × List Token :=
  (r.1, tokensFrom (o + r.2) 0 (bs.drop r.2))

/-- A scan that goes on behind a token. -/
theorem map_scannedTokens (o : Nat) (a rest : Bytes) (w : Text) (r : Option (Text × Nat)) :
    (r.map (scannedTokens (o + a.length) rest)).map (fun c => (w ++ c.1, c.2)) =
      (r.map fun c => (w ++ c.1, c.2 + a.length)).map (scannedTokens o (a ++ rest)) := by
  rw [Option.map_map, Option.map_map]
  congr 1
  funext c
  simp only [scannedTokens, Function.comp_apply, Nat.add_comm c.2 a.length,
    List.drop_length_add_append, Nat.add_assoc]

theorem compoundFrom_eq_scan (depth : Int) (o : Nat) (bs : Bytes) :
    Cursor.compoundFrom depth (tokensFrom o 0 bs) =
      (compoundScan false depth bs).map (scannedTokens o bs) := by
  induction o, bs using lexInduction generalizing depth with
  | nil o => simp [tokensFrom, Cursor.compoundFrom, compoundScan]
  | space o b bs hb ih =>
    rw [tokensFrom_space o b bs hb, compoundScan_space depth b bs hb, ih, Option.map_map]
    congr 1
    funext r
    have e : o + (r.2 + 1) = o + 1 + r.2 := by omega
    simp only [scannedTokens, Function.comp_apply, List.drop_succ_cons, e]
  | token o b kind more rest hb hlex ih =>
    rw [tokensFrom_lexeme o b kind more rest hb hlex]
    have e : o + 1 + more.length = o + (b :: more).length := by
      rw [List.length_cons]
      omega
    rw [e] at ih ⊢
    generalize hw : b :: more = w
    have hsp := spelled_lexemeAt b _ kind more hb hlex
    rw [hw] at hsp
    cases hsp with
    | comment body' =>
      obtain ⟨body, rfl, rfl, hbody, hrest⟩ := lexemeAt_comment b more rest hlex
      obtain rfl : body = body' := by simpa using hw
      have past := map_scannedTokens o (0x2F :: 0x2F :: body) rest [] (compoundScan false depth rest)
      simp only [List.nil_append, Option.map_id'] at past
      rw [compoundFrom_comment depth _ _ rfl, ih, past, List.cons_append, compoundScan]
      rw [if_neg (by decide), if_pos (by rfl),
        compoundScan_comment depth (0x2F :: body) rest (by simpa using ⟨rfl, hbody⟩) hrest,
        Option.map_map, Option.map_map, Option.map_map]
      rfl
    | mark b' kind hp =>
      obtain ⟨rfl, rfl⟩ := List.cons.inj hw
      obtain ⟨hstep, hclose⟩ := parenByte_mark b kind hp
      have hslash : isSlash b = false := by
        simpa using mark_all (fun b _ => !isSlash b) (by decide) b kind hp
      have hcomment : kind ≠ .comment := by
        simpa using mark_all (fun _ kind => kind != .comment) (by decide) b kind hp
      have htext : Token.text ⟨kind, o, [b]⟩ = [lossyChar b] :=
        Token.Spelled.text_eq _ (.mark b kind hp) hcomment
      by_cases hend : b = 0x29 ∧ depth + parenByte b = 0
      · -- the closing parenthesis that leaves none open
        rw [compoundFrom_close depth _ _ ⟨hclose.mp hend.1, by rw [← hstep]; exact hend.2⟩,
          compoundScan, hb, hslash, if_pos hend, htext]
        simp only [Bool.false_eq_true, if_false, Bool.false_and, Option.map_some, scannedTokens,
          Nat.add_zero, List.drop_zero, List.nil_append]
        rw [tokensFrom_mark o b kind rest hp]
        rfl
      · rw [compoundFrom_step depth _ _ hcomment (by rw [← hstep, ← hclose]; exact hend), ih,
          compoundScan_char depth b _ hb (by rw [hslash, Bool.false_and]) hend, htext, ← hstep,
          List.nil_append]
        exact map_scannedTokens o [b] rest [lossyChar b] _
    | word _ _ hword =>
      subst hw
      have htext : Token.text ⟨wordKind (b :: more), o, b :: more⟩ = (b :: more).map lossyChar :=
        Token.Spelled.text_eq _ (.word _ (by simp) hword) (wordKind_ne_comment _)
      obtain ⟨hstep, hclose⟩ := parenStep_wordKind (b :: more)
      rw [compoundFrom_step depth _ _ (wordKind_ne_comment _) (fun h => hclose h.1), ih,
        ← List.cons_append, compoundScan_word depth (b :: more) rest hword, htext, hstep,
        Int.add_zero]
      exact map_scannedTokens o (b :: more) rest _ _
    | stray b' hstray =>
      obtain ⟨rfl, rfl⟩ := List.cons.inj hw
      have htext : Token.text ⟨.ident, o, [b]⟩ = [lossyChar b] :=
        Token.Spelled.text_eq _ (.stray b hstray) (by simp)
      obtain ⟨h1, h2⟩ := not_paren_of_stray b hstray
      have hstep : parenByte b = 0 := by simp [parenByte, h1, h2]
      have hslash := lexemeAt_stray b _ (punctuation_of_stray b hstray) hlex
      rw [compoundFrom_step depth _ _ (by simp) (by simp), ih,
        compoundScan_char depth b _ hb hslash (fun hc => h2 hc.1), htext, hstep, List.nil_append]
      exact map_scannedTokens o [b] rest [lossyChar b] _

end KeyTables
