import KeyTables.Proofs.Block.Entries
import KeyTables.Proofs.Block.KeyText

/-! One table in the text of a source.

* `Segment`: a stretch of text and the table that is read from it.
* `Segment.Reads`: the stretch is read so wherever it stands.
* `reads_of_tokens`: being read so in one place is enough.
* `Segment.Reads.name_text`, `Segment.Reads.keys_text`: what names and keys look like. -/
namespace KeyTables
set_option autoImplicit false
open Cursor

structure Segment where
  text : Text
  name : Text
  keys : List Text
  /-- Whether a comma belongs to the table. -/
  comma : Bool

namespace Segment

/-- The table of a segment that stands at `o`. -/
def Holds (p : Segment) (o : Nat) (table : KeyTable) : Prop :=
  table.name.text = p.name ∧ table.keys = p.keys ∧ table.stop = o + (encode p.text).length

def Reads (p : Segment) : Prop :=
  Sealed (encode p.text) ∧
    ∀ o, ∃ table, PieceTokens (tokensFrom o 0 (encode p.text)) table p.comma ∧ p.Holds o table

end Segment

/-! ## Cuts -/

/-- A text can be cut around each of its brackets and separators. -/
theorem text_cut (o : Nat) (s : Text) (before after : List Token) (t : Token)
    (h : tokensFrom o 0 (encode s) = before ++ t :: after) (hm : t.kind.isMark = true) :
    ∃ s1 x s2, s = s1 ++ Char.ofNat x.toNat :: s2 ∧ punctuation? x = some t.kind ∧
      o + (encode s1).length = t.offset ∧
      tokensFrom o 0 (encode (s1 ++ [Char.ofNat x.toNat])) = before ++ [t] ∧
      tokensFrom t.offset 0 (encode (Char.ofNat x.toNat :: s2)) = t :: after ∧
      tokensFrom (t.offset + 1) 0 (encode s2) = after := by
  obtain ⟨a, rest, hs, hlen, ha, hfrom, hrest⟩ := tokensFrom_cut o _ before after t h
  obtain ⟨x, hx, hp⟩ := lexeme_of_mark _ _ (spelled_of_mem o _ t (by rw [h]; simp)) hm
  have hstop : t.stop = t.offset + 1 := by rw [Token.stop, hx, List.length_singleton]
  rw [hx, List.singleton_append] at hs hfrom
  rw [hx] at ha
  rw [hstop] at hrest
  have low := mark_lt x _ hp
  obtain ⟨s1, s2, rfl, rfl, rfl⟩ := encode_cut s a x rest low hs
  refine ⟨s1, x, s2, rfl, hp, hlen, ?_, ?_, hrest⟩
  · rw [encode_append, encode_cons, utf8EncodeChar_ofNat x low, encode_nil, List.append_nil, ha]
  · rw [encode_cons, utf8EncodeChar_ofNat x low, List.singleton_append, hfrom]

/-! ## Moving tables -/

/-- A key list that is read up to its end is read the same in front of anything. -/
theorem keysFrom_closed (inner : List Token) (close : Token) (keys : List Text)
    (h : keysFrom (inner ++ [close]) = some (keys, [close])) (after : List Token) :
    keysFrom (inner ++ close :: after) = some (keys, close :: after) := by
  obtain ⟨inner', close', after', hts, hrest, -, hall⟩ := keysFrom_local _ _ _ h
  obtain ⟨rfl, rfl⟩ := List.cons.inj hrest
  obtain ⟨rfl, -⟩ := List.append_inj' hts rfl
  exact hall after

theorem TableTokens.relocate (f : Nat → Nat) (ts : List Token) (first name close : Token)
    (keys : List Text) (h : TableTokens ts first name close keys) :
    TableTokens (ts.map (Token.relocate f)) (first.relocate f) (name.relocate f)
      (close.relocate f) keys := by
  obtain ⟨middle, inner, rfl, hfirst, hheader, hclose, hkeys⟩ := h
  refine ⟨middle.map (Token.relocate f), inner.map (Token.relocate f), by simp, hfirst, ?_,
    hclose, ?_⟩
  · rw [← hheader, List.map_cons, List.map_cons, List.map_map]
    rfl
  · have hmoved := keysFrom_relocate f (inner ++ [close])
    rw [hkeys [], Option.map_some, List.map_append] at hmoved
    exact keysFrom_closed _ _ keys hmoved

theorem PieceTokens.relocate (f : Nat → Nat) (ts : List Token) (table : KeyTable) (comma : Bool)
    (h : PieceTokens ts table comma) :
    PieceTokens (ts.map (Token.relocate f))
      ⟨table.name.relocate f, table.keys, f table.start, f (table.stop - 1) + 1⟩ comma := by
  have gaps : ∀ gap : List Token, IsGap gap → IsGap (gap.map (Token.relocate f)) := by
    intro gap hgap t ht
    obtain ⟨u, hu, rfl⟩ := List.mem_map.mp ht
    exact hgap u hu
  cases h with
  | plain gap body first name close keys hgap hbody =>
    rw [List.map_append]
    exact .plain _ _ _ _ _ keys (gaps gap hgap) (TableTokens.relocate f _ _ _ _ keys hbody)
  | comma gap body comments first name close comma keys hgap hbody hcomments hcomma =>
    simp only [List.map_append, List.map_cons, List.map_nil]
    refine .comma _ _ _ _ _ _ _ keys (gaps gap hgap) (TableTokens.relocate f _ _ _ _ keys hbody)
      ?_ hcomma
    intro t ht
    obtain ⟨u, hu, rfl⟩ := List.mem_map.mp ht
    exact hcomments u hu

theorem PieceTokens.last (ts : List Token) (table : KeyTable) (comma : Bool)
    (h : PieceTokens ts table comma) :
    ∃ before t, ts = before ++ [t] ∧ (t.kind = .rparen ∨ t.kind = .comma) ∧
      table.stop = t.offset + 1 := by
  cases h with
  | plain gap body first name close keys hgap hbody =>
    obtain ⟨middle, inner, rfl, -, -, hclose, -⟩ := hbody
    exact ⟨gap ++ first :: name :: (middle ++ inner), close, by simp, Or.inl hclose, rfl⟩
  | comma gap body comments first name close comma keys hgap hbody hcomments hcomma =>
    exact ⟨gap ++ (body ++ comments), comma, by simp, Or.inr hcomma, rfl⟩

theorem isMark_of_last (t : Token) (h : t.kind = .rparen ∨ t.kind = .comma) :
    t.kind.isMark = true := by
  rcases h with h | h <;> rw [h] <;> rfl

theorem reads_of_tokens (text : Text) (o : Nat) (table : KeyTable) (comma : Bool)
    (h : PieceTokens (tokensFrom o 0 (encode text)) table comma)
    (hstop : table.stop = o + (encode text).length) :
    Segment.Reads ⟨text, table.name.text, table.keys, comma⟩ := by
  obtain ⟨before, t, hts, ht, -⟩ := PieceTokens.last _ _ _ h
  refine ⟨sealed_of_last o _ ?_, ?_⟩
  · intro u hu
    rw [hts, List.getLast?_append, List.getLast?_singleton] at hu
    obtain rfl : t = u := by simpa using hu
    exact Or.inl (isMark_of_last t ht)
  · intro o'
    have hmoved := PieceTokens.relocate (fun x => x - o + o') _ _ _ h
    rw [← tokensFrom_relocate] at hmoved
    refine ⟨_, hmoved, rfl, rfl, ?_⟩
    have hne : (encode text).length ≠ 0 := by
      intro hlen
      rw [List.eq_nil_of_length_eq_zero hlen] at hts
      simp [tokensFrom] at hts
    simp only [hstop]
    omega

/-! ## Commas -/

theorem startsComma_relocate (f : Nat → Nat) (ts : List Token) :
    startsComma (ts.map (Token.relocate f)) = startsComma ts := by
  induction ts with
  | nil => rfl
  | cons t ts ih =>
    rw [List.map_cons, startsComma, startsComma, ih]
    rfl

/-- Whether the first token of a text that is no comment is a comma. -/
def leadsComma (t : Text) : Bool :=
  startsComma (tokensFrom 0 0 (encode t))

theorem startsComma_tokensFrom (o : Nat) (t : Text) :
    startsComma (tokensFrom o 0 (encode t)) = leadsComma t := by
  rw [tokensFrom_relocate 0 o, startsComma_relocate]
  rfl

theorem PieceTokens.bracket (ts : List Token) (table : KeyTable) (comma : Bool)
    (h : PieceTokens ts table comma) : ∃ t ∈ ts, isComment t = false := by
  obtain ⟨before, t, rfl, ht, -⟩ := PieceTokens.last _ _ _ h
  refine ⟨t, by simp, ?_⟩
  rcases ht with ht | ht <;> rw [isComment, ht] <;> rfl

/-- What comes after a table does not decide whether a comma comes first. -/
theorem leadsComma_segment (p : Segment) (rest : Text) (h : p.Reads) :
    leadsComma (p.text ++ rest) = leadsComma p.text := by
  obtain ⟨table, htokens, -⟩ := h.2 0
  rw [leadsComma, encode_append, h.1, startsComma_append _ _ (PieceTokens.bracket _ _ _ htokens)]
  rfl

/-! ## Names and keys -/

/-- The bytes of a character outside ASCII make tokens of their own, at least two of them. -/
theorem ident_of_high (o : Nat) (s : Text) (name next : Token) (after : List Token)
    (h : tokensFrom o 0 (encode s) = name :: next :: after)
    (hb : ∀ b ∈ name.lexeme.head?, 0x80 ≤ b.toNat) : next.kind = .ident := by
  induction s generalizing o with
  | nil => simp [tokensFrom] at h
  | cons c s ih =>
    rw [encode_cons] at h
    by_cases hc : c.toNat < 0x80
    · rw [utf8EncodeChar_ascii c hc, List.singleton_append] at h
      by_cases hs : isSpaceByte (UInt8.ofNat c.toNat) = true
      · rw [tokensFrom_space _ _ _ hs] at h
        exact ih _ h
      · exfalso
        rw [tokensFrom, if_neg hs] at h
        obtain ⟨rfl, -⟩ := List.cons.inj h
        have := hb _ rfl
        rw [toNat_ofNat_lt _ (by omega)] at this
        omega
    · obtain ⟨hlen, hhigh⟩ := utf8EncodeChar_high c (by omega)
      rcases hbytes : String.utf8EncodeChar c with _ | ⟨b1, _ | ⟨b2, more⟩⟩
      · simp [hbytes] at hlen
      · simp [hbytes] at hlen
      · rw [hbytes] at h hhigh
        obtain ⟨h1, hslash1⟩ := isStray_of_high b1 (hhigh b1 (by simp))
        obtain ⟨h2, hslash2⟩ := isStray_of_high b2 (hhigh b2 (by simp))
        rw [List.cons_append, List.cons_append,
          tokensFrom_stray o b1 _ h1 (by simp [hslash1]),
          tokensFrom_stray _ b2 _ h2 (by simp [hslash2])] at h
        obtain ⟨-, h⟩ := List.cons.inj h
        rw [← (List.cons.inj h).1]

theorem PieceTokens.body (ts : List Token) (table : KeyTable) (comma : Bool)
    (h : PieceTokens ts table comma) :
    ∃ gap body after first close, ts = gap ++ (body ++ after) ∧
      TableTokens body first table.name close table.keys := by
  cases h with
  | plain gap body first name close keys hgap hbody =>
    exact ⟨gap, body, [], first, close, by simp, hbody⟩
  | comma gap body comments first name close comma keys hgap hbody hcomments hcomma =>
    exact ⟨gap, body, comments ++ [comma], first, close, rfl, hbody⟩

/-- A name stands alone between its brackets, so it is no part of a character outside ASCII. -/
theorem Segment.Reads.name_text (p : Segment) (h : p.Reads) :
    IdentText p.name ∧ isAscii p.name = true := by
  obtain ⟨table, htokens, hname, -, -⟩ := h.2 0
  obtain ⟨gap, body, after, first, close, hts, hbody⟩ := PieceTokens.body _ _ _ htokens
  obtain ⟨middle, inner, rfl, hfirst, hheader, -, -⟩ := hbody
  have hspelled := spelled_of_mem 0 (encode p.text) table.name (by rw [hts]; simp)
  obtain ⟨hk, hmiddle⟩ := List.cons.inj hheader
  have hident := identText_of_spelled table.name hspelled hk
  rw [← hname]
  refine ⟨hident, ?_⟩
  rcases hident.cases with ⟨hascii, -⟩ | hlossy
  · exact hascii
  · exfalso
    obtain ⟨next, rest, rfl, hnext⟩ : ∃ next rest, middle = next :: rest ∧ next.kind = .rbracket := by
      cases middle with
      | nil => simp at hmiddle
      | cons next rest => exact ⟨next, rest, rfl, (List.cons.inj hmiddle).1⟩
    obtain ⟨s1, x, s2, -, -, -, -, -, hname'⟩ := text_cut 0 p.text gap _ first
      (by simpa using hts) (by rw [hfirst]; rfl)
    have hhigh : ∀ b ∈ table.name.lexeme.head?, 0x80 ≤ b.toNat := by
      have htext := Token.Spelled.text_eq table.name hspelled (by rw [hk]; simp)
      rw [hlossy] at htext
      intro b hb
      cases hlex : table.name.lexeme with
      | nil => simp [hlex] at hb
      | cons c rest =>
        rw [hlex, List.map_cons] at htext
        rw [hlex] at hb
        obtain rfl : c = b := by simpa using hb
        exact lossyChar_high c (List.cons.inj htext).1.symm
    have := ident_of_high _ s2 table.name next _ hname' hhigh
    rw [hnext] at this
    simp at this

theorem Segment.Reads.keys_text (p : Segment) (h : p.Reads) : ∀ k ∈ p.keys, KeyText k := by
  obtain ⟨table, htokens, -, hkeys, -⟩ := h.2 0
  obtain ⟨gap, body, after, first, close, hts, hbody⟩ := PieceTokens.body _ _ _ htokens
  obtain ⟨middle, inner, rfl, -, -, -, hall⟩ := hbody
  rw [← hkeys]
  refine keyText_of_keysFrom (inner ++ [close]) table.keys [close] ?_ (hall [])
  intro t ht
  refine spelled_of_mem 0 (encode p.text) t ?_
  rw [hts]
  simp only [List.mem_append, List.mem_cons] at ht ⊢
  grind

end KeyTables
