import KeyTables.Proofs.Block.Segment

/-! The text of a source around and inside its block.

* `Layout`: the text up to the opening brace, the segments of the tables, what follows the last one,
  and the text from the closing brace on.
* `parseBlock_layout`: a valid layout is read as the block that it frames.
* `layout_of_parseBlock`: a source whose block has no faults has a valid layout. -/
namespace KeyTables
set_option autoImplicit false
open Cursor

def joined (ps : List Segment) : Text :=
  ps.flatMap Segment.text

@[simp] theorem joined_nil : joined [] = [] := rfl

@[simp] theorem joined_cons (p : Segment) (ps : List Segment) :
    joined (p :: ps) = p.text ++ joined ps := rfl

/-- The segments are read one after the other, and then `tail` is passed over up to the brace that
`closing` starts with. A comma that comes first in the rest would belong to the table before. -/
def Inside (tail closing : Text) : List Segment → Prop
  | [] => ∀ o, ∃ gap after, IsGap gap ∧ tokensFrom o 0 (encode (tail ++ closing)) =
      gap ++ ⟨.rbrace, o + (encode tail).length, [0x7D]⟩ :: after
  | p :: ps => p.Reads ∧ (p.comma = false → leadsComma (joined ps ++ (tail ++ closing)) = false) ∧
      Inside tail closing ps

/-- The tables of segments that stand at `o` one after the other. -/
def Tiles : Nat → List Segment → List KeyTable → Prop
  | _, [], tables => tables = []
  | o, p :: ps, tables => ∃ table rest, tables = table :: rest ∧ p.Holds o table ∧
      Tiles (o + (encode p.text).length) ps rest

structure Layout where
  opening : Text
  segments : List Segment
  tail : Text
  closing : Text

namespace Layout

def text (l : Layout) : Text :=
  l.opening ++ (joined l.segments ++ (l.tail ++ l.closing))

structure Valid (l : Layout) : Prop where
  opened : ∃ before, l.opening = before ++ ['{'] ∧ Sealed (encode l.opening) ∧
    Opens (tokensFrom 0 0 (encode l.opening)) (encode before).length
  inside : Inside l.tail l.closing l.segments
  closed : ∃ after, l.closing = '}' :: after

/-- The block that a layout is read as. -/
structure Frames (l : Layout) (b : Block) : Prop where
  start : b.start + 1 = (encode l.opening).length
  stop : b.stop = (encode (l.opening ++ (joined l.segments ++ l.tail))).length
  unparsed : b.unparsed = 0
  tables : Tiles (encode l.opening).length l.segments b.tables

theorem encode_text (l : Layout) : encode l.text = encode l.opening ++
    (encode (joined l.segments ++ l.tail) ++ encode l.closing) := by
  simp [text]

section
variable {l : Layout} {b : Block} (h : l.Frames b)
include h

theorem Frames.stop_eq :
    b.stop = (encode l.opening).length + (encode (joined l.segments ++ l.tail)).length := by
  rw [h.stop, encode_append, List.length_append]

/-- The texts around the block that a layout frames. -/
theorem Frames.around : (encode l.text).take (b.start + 1) = encode l.opening ∧
    (encode l.text).drop b.stop = encode l.closing := by
  refine ⟨?_, ?_⟩
  · rw [encode_text, h.start, List.take_left]
  · rw [encode_text, h.stop_eq, ← List.length_append, ← List.append_assoc, List.drop_left]

end

end Layout

/-! ## Reading a layout -/

theorem entries_segment (start o n : Nat) (p : Segment) (rest : Text) (hp : p.Reads)
    (hcomma : p.comma = false → leadsComma rest = false) :
    ∃ table, p.Holds o table ∧
      (entries start ⟨tokensFrom o 0 (encode (p.text ++ rest)), .ending n⟩).value =
        (entries start ⟨tokensFrom (o + (encode p.text).length) 0 (encode rest),
          .ending n⟩).value.map (withTable table) := by
  obtain ⟨table, htokens, hholds⟩ := hp.2 o
  refine ⟨table, hholds, ?_⟩
  rw [encode_append, hp.1]
  apply entries_piece start _ table p.comma htokens _ n
  intro hc
  rw [startsComma_tokensFrom]
  exact hcomma hc

theorem entries_inside (start o n : Nat) (ps : List Segment) (tail closing : Text)
    (h : Inside tail closing ps) :
    ∃ tables, Tiles o ps tables ∧
      (entries start ⟨tokensFrom o 0 (encode (joined ps ++ (tail ++ closing))), .ending n⟩).value =
        some ⟨start, o + (encode (joined ps ++ tail)).length, tables, 0⟩ := by
  induction ps generalizing o with
  | nil =>
    obtain ⟨gap, after, hgap, hts⟩ := h o
    refine ⟨[], rfl, ?_⟩
    rw [joined_nil, List.nil_append, List.nil_append, hts, entries_gap start _ gap _ hgap,
      entries_rbrace start _ _ _ rfl]
  | cons p ps ih =>
    obtain ⟨hreads, hcomma, hrest⟩ := h
    obtain ⟨table, hholds, hentries⟩ := entries_segment start o n p _ hreads hcomma
    obtain ⟨tables, htiles, hvalue⟩ := ih (o + (encode p.text).length) hrest
    refine ⟨table :: tables, ⟨table, tables, rfl, hholds, htiles⟩, ?_⟩
    rw [joined_cons, List.append_assoc, hentries, hvalue]
    simp only [Option.map_some, withTable, encode_append, List.length_append, Nat.add_assoc]

/-- The block that follows an opening is read entry by entry, whatever the text after it. -/
theorem parseBlock_opening (l : Layout) (h : l.Valid) :
    ∃ start, start + 1 = (encode l.opening).length ∧
      ∀ t : Text, (parseBlock (encode (l.opening ++ t))).value =
        (entries start ⟨tokensFrom (encode l.opening).length 0 (encode t),
          .ending (encode (l.opening ++ t)).length⟩).value := by
  obtain ⟨before, hbefore, hsealed, hopens⟩ := h.opened
  refine ⟨(encode before).length, ?_, ?_⟩
  · rw [hbefore, encode_append, List.length_append]
    rfl
  · intro t
    rw [← hopens, parseBlock, Cursor.start, encode_append, hsealed, Nat.zero_add]

theorem parseBlock_layout (l : Layout) (h : l.Valid) :
    ∃ b, (parseBlock (encode l.text)).value = some b ∧ l.Frames b := by
  obtain ⟨start, hstart, hparse⟩ := parseBlock_opening l h
  obtain ⟨tables, htiles, hvalue⟩ := entries_inside start (encode l.opening).length
    (encode l.text).length l.segments l.tail l.closing h.inside
  refine ⟨_, (hparse _).trans hvalue, hstart, ?_, rfl, htiles⟩
  rw [encode_append _ (joined l.segments ++ l.tail), List.length_append]

/-! ## Finding a layout -/

theorem inside_of_close (o : Nat) (tail after : Text) (gap rest : List Token) (close : Token)
    (hts : tokensFrom o 0 (encode (tail ++ '}' :: after)) = gap ++ close :: rest)
    (hgap : IsGap gap) (hclose : close.kind = .rbrace)
    (hoffset : o + (encode tail).length = close.offset) : Inside tail ('}' :: after) [] := by
  intro o'
  have hlex : close.lexeme = [0x7D] := by
    have hspelled := spelled_of_mem o _ close (by rw [hts]; simp)
    rw [hclose] at hspelled
    obtain ⟨b, hb, hp⟩ := lexeme_of_mark _ _ hspelled rfl
    have := mark_all (fun b kind => decide (kind = .rbrace → b = 0x7D)) (by decide) b _ hp
    rw [hb, of_decide_eq_true this rfl]
  have hmoved := tokensFrom_relocate o o' (encode (tail ++ '}' :: after))
  rw [hts, List.map_append, List.map_cons] at hmoved
  refine ⟨gap.map (Token.relocate fun x => x - o + o'),
    rest.map (Token.relocate fun x => x - o + o'), ?_, ?_⟩
  · intro t ht
    obtain ⟨u, hu, rfl⟩ := List.mem_map.mp ht
    exact hgap u hu
  · rw [hmoved, Token.relocate, hclose, hlex, ← hoffset]
    have e : o + (encode tail).length - o + o' = o' + (encode tail).length := by omega
    rw [e]

theorem inside_of_entries (start o n : Nat) (s : Text) (b : Block)
    (h : (entries start ⟨tokensFrom o 0 (encode s), .ending n⟩).value = some b)
    (hu : b.unparsed = 0) :
    ∃ ps tail after, s = joined ps ++ (tail ++ '}' :: after) ∧ Inside tail ('}' :: after) ps := by
  induction hn : s.length using Nat.strongRecOn generalizing s o b with
  | ind m ih =>
    rcases entries_cases start _ n b h hu with ⟨gap, close, rest, hts, hgap, hclose, -⟩ |
      ⟨piece, rest, table, comma, b', hts, hpiece, hcomma, hrest, hu', -⟩
    · obtain ⟨tail, x, after, rfl, hp, hoffset, -, -, -⟩ := text_cut o s gap rest close hts
        (by rw [hclose]; rfl)
      have hx := mark_all (fun b kind => decide (kind = .rbrace → Char.ofNat b.toNat = '}'))
        (by decide) x _ hp
      rw [of_decide_eq_true hx hclose] at hts ⊢
      exact ⟨[], tail, after, rfl, inside_of_close o tail after gap rest close hts hgap hclose
        hoffset⟩
    · obtain ⟨before, t, rfl, ht, hstop⟩ := PieceTokens.last _ _ _ hpiece
      obtain ⟨s1, x, s2, rfl, hp, hoffset, hfirst, -, hafter⟩ := text_cut o s before rest t
        (by rw [hts]; simp) (isMark_of_last t ht)
      have hlen : (encode [Char.ofNat x.toNat]).length = 1 := by
        rw [encode_cons, utf8EncodeChar_ofNat x (mark_lt x _ hp)]
        rfl
      rw [← hafter] at hrest
      obtain ⟨ps, tail, after, rfl, hinside⟩ := ih s2.length
        (by rw [← hn, List.length_append, List.length_cons]; omega) _ s2 b' hrest hu' rfl
      refine ⟨⟨s1 ++ [Char.ofNat x.toNat], table.name.text, table.keys, comma⟩ :: ps, tail, after,
        by simp, ?_, ?_, hinside⟩
      · rw [← hfirst] at hpiece
        refine reads_of_tokens _ o table comma hpiece ?_
        rw [encode_append, List.length_append, hlen]
        omega
      · intro hc
        rw [← startsComma_tokensFrom (t.offset + 1), hafter]
        exact hcomma hc

theorem layout_of_parseBlock (s : Text) (b : Block)
    (h : (parseBlock (encode s)).value = some b) (hu : b.unparsed = 0) :
    ∃ l : Layout, l.Valid ∧ l.text = s ∧ l.Frames b := by
  obtain ⟨before, brace, after, hts, hbrace, hstart, hopens, hentries⟩ :=
    opens_of_findBlock _ _ b h
  obtain ⟨s1, x, s2, rfl, hp, hoffset, hfirst, -, hafter⟩ := text_cut 0 s before after brace hts
    (by rw [hbrace]; rfl)
  have hx := mark_all (fun b kind => decide (kind = .lbrace → Char.ofNat b.toNat = '{'))
    (by decide) x _ hp
  rw [of_decide_eq_true hx hbrace] at hfirst h ⊢
  rw [← hafter] at hentries
  obtain ⟨ps, tail, close, rfl, hinside⟩ := inside_of_entries _ _ _ s2 b hentries hu
  let l : Layout := ⟨s1 ++ ['{'], ps, tail, '}' :: close⟩
  have hvalid : l.Valid := by
    refine ⟨⟨s1, rfl, ?_, ?_⟩, hinside, ⟨close, rfl⟩⟩
    · refine sealed_of_last 0 _ ?_
      intro t ht
      rw [hfirst, List.getLast?_append, List.getLast?_singleton] at ht
      obtain rfl : brace = t := by simpa using ht
      exact Or.inl (by rw [hbrace]; rfl)
    · rw [hfirst, show (encode s1).length = b.start by omega]
      exact hopens
  have htext : l.text = s1 ++ '{' :: (joined ps ++ (tail ++ '}' :: close)) := by
    simp [l, Layout.text]
  obtain ⟨b', hb', hframes⟩ := parseBlock_layout l hvalid
  rw [htext, h] at hb'
  obtain rfl := Option.some.inj hb'
  exact ⟨l, hvalid, htext, hframes⟩

end KeyTables
