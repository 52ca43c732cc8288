import KeyTables.Proofs.Block.Scan
import KeyTables.Proofs.Token.Nesting

/-! Which closing brace ends a block. The scan stops at the first one that lies inside no table and
does not count those that open, so it stops at the brace that matches the opening one exactly if the
braces in between are nested.

* `brace_in_table`: a closing brace between the two of a block lies inside a table.
* `tokensBetween`: the tokens between two offsets.
* `matching_brace`: the condition under which the two braces of a block match. -/
namespace KeyTables
set_option autoImplicit false
open Cursor

/-- The tokens between two offsets. -/
def tokensBetween (d : Bytes) (start stop : Nat) : List Token :=
  (tokensBehind d start).filter fun t => decide (t.offset < stop)

theorem mem_tokensBetween (d : Bytes) (start stop : Nat) (t : Token) :
    t ∈ tokensBetween d start stop ↔ t ∈ tokens d ∧ start < t.offset ∧ t.offset < stop := by
  rw [tokensBetween, tokensBehind, List.mem_filter, List.mem_filter, decide_eq_true_eq,
    decide_eq_true_eq, and_assoc]

/-- A token at which the tokens are cut stands behind all those in front of the cut. -/
theorem tokensBetween_of_behind (d : Bytes) (start : Nat) (before rest : List Token) (t : Token)
    (h : tokensBehind d start = before ++ t :: rest) :
    tokensBetween d start t.offset = before := by
  have hincreasing := (tokens_increasing d).filter fun u => decide (start < u.offset)
  rw [← tokensBehind, h] at hincreasing
  rw [tokensBetween, h]
  exact filter_front before rest t hincreasing

/-- The brace that matches the opening one at an offset. -/
def matchingBrace (d : Bytes) (start : Nat) : Option Token :=
  matching .lbrace .rbrace 0 (tokensBehind d start)

section
variable (d : Bytes) (b : Block) (h : (parseBlock d).value = some b)
include h

theorem brace_in_table (t : Token) (ht : t ∈ tokensBetween d b.start b.stop)
    (hk : t.kind = .rbrace) : ∃ u ∈ b.tables, u.spans t.offset = true := by
  obtain ⟨ts, close, after, hbehind, hscanned, hstop, hincreasing⟩ := tokensBehind_start d b h
  obtain ⟨hmem, hlt⟩ := List.mem_filter.mp ht
  rw [hbehind] at hmem
  obtain hts | hlast := List.mem_append.mp hmem
  · obtain hin | ⟨hbracket, -⟩ := hscanned.bracket_or_brace hincreasing t hts (Or.inr hk)
      (by rw [hstop]; exact of_decide_eq_true hlt)
    · exact hin
    · rw [hk] at hbracket
      simp at hbracket
  · rw [List.mem_singleton.mp hlast] at hk
    simp [Token.ending] at hk

theorem matching_brace : (matchingBrace d b.start).map Token.offset = some b.stop ↔
    isNested .lbrace .rbrace 0 ((tokensBetween d b.start b.stop).map Token.kind) = true := by
  obtain ⟨ts, close, after, hbehind, hscanned, hstop, -⟩ := tokensBehind_start d b h
  obtain ⟨inside, rfl, hclose⟩ := hscanned.split
  have hsplit : tokensBehind d b.start = inside ++ close :: (after ++ [.ending d.length]) := by
    simpa using hbehind
  have hcut : ∀ (before rest : List Token) (m : Token),
      tokensBehind d b.start = before ++ m :: rest → m.offset = b.stop →
      tokensBetween d b.start b.stop = before := by
    intro before rest m hcut hm
    rw [← hm]
    exact tokensBetween_of_behind d b.start before rest m hcut
  rw [hcut inside _ close hsplit hstop]
  constructor
  · intro hmatch
    obtain ⟨m, hm, hoffset⟩ := Option.map_eq_some_iff.mp hmatch
    obtain ⟨inside', after', hts, -, hnested⟩ :=
      (matching_eq_some_iff .lbrace .rbrace (by decide) 0 _ m).mp hm
    have hsame : inside = inside' :=
      (hcut inside _ close hsplit hstop).symm.trans (hcut inside' after' m hts hoffset)
    rw [hsame]
    exact hnested
  · intro hnested
    have hm := matching_of_nested .lbrace .rbrace (by decide) 0 inside
      (after ++ [.ending d.length]) close hclose hnested
    rw [matchingBrace, hsplit, hm, Option.map_some, hstop]

/-- Every closing brace between the two braces of a block lies inside a table. The two match exactly
if the braces between them are nested; if no table holds a closing brace, exactly if none of them
opens. -/
theorem closing_brace_iff :
    (∀ t ∈ tokensBetween d b.start b.stop, t.kind = .rbrace →
      ∃ u ∈ b.tables, u.spans t.offset = true) ∧
    ((matchingBrace d b.start).map Token.offset = some b.stop ↔
      isNested .lbrace .rbrace 0 ((tokensBetween d b.start b.stop).map Token.kind) = true) ∧
    ((∀ t ∈ tokens d, t.kind = .rbrace → ∀ u ∈ b.tables, u.spans t.offset = false) →
      ((matchingBrace d b.start).map Token.offset = some b.stop ↔
        ∀ t ∈ tokensBetween d b.start b.stop, t.kind ≠ .lbrace)) := by
  refine ⟨brace_in_table d b h, matching_brace d b h, ?_⟩
  intro hfree
  have hnone : Token.Kind.rbrace ∉ (tokensBetween d b.start b.stop).map Token.kind := by
    intro hmem
    obtain ⟨t, ht, hk⟩ := List.mem_map.mp hmem
    obtain ⟨u, hu, hin⟩ := brace_in_table d b h t ht hk
    have hout := hfree t ((mem_tokensBetween d _ _ t).mp ht).1 hk u hu
    rw [hin] at hout
    simp at hout
  rw [matching_brace d b h, isNested_unclosed _ _ 0 _ hnone]
  simp

end

/-- A key that holds braces, and one brace at the end of the source that closes nothing. -/
def bracedSource : Bytes :=
  encode "const T PROGMEM K[][R][C] = \x7b[A] = LAYOUT(F(\x7b\x7d))\x7d;\x7d".toList

def bracedBlock : Block :=
  ⟨28, 48, [⟨⟨.ident, 30, [0x41]⟩, ["F(\x7b\x7d)".toList], 29, 48⟩], 0⟩

theorem closing_brace_braced : (parseBlock bracedSource).value = some bracedBlock ∧
    isNested .lbrace .rbrace 0 ((tokensBetween bracedSource 28 48).map Token.kind) = true ∧
    (matchingBrace bracedSource 28).map Token.offset = some 48 := by
  have hparse : (parseBlock bracedSource).value = some bracedBlock := by decide +kernel
  have hnested : isNested .lbrace .rbrace 0 ((tokensBetween bracedSource 28 48).map Token.kind) =
      true := by decide +kernel
  exact ⟨hparse, hnested, (closing_brace_iff bracedSource bracedBlock hparse).2.1.mpr hnested⟩

/-- A pair of braces between those of a block. -/
def nestedSource : Bytes :=
  encode "const T PROGMEM K[][R][C] = \x7b\x7b\x7d\x7d;".toList

/-- The block ends at the first closing brace, which matches the second opening one. -/
theorem closing_brace_nested : ∃ b close, (parseBlock nestedSource).value = some b ∧
    matchingBrace nestedSource b.start = some close ∧ b.stop ≠ close.offset := by
  refine ⟨⟨28, 30, [], 0⟩, ⟨.rbrace, 31, [0x7D]⟩, ?_, ?_, by decide⟩
  · decide +kernel
  · decide +kernel

end KeyTables
