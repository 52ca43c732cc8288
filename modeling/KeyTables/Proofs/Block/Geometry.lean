import KeyTables.Proofs.Block.Scan
import KeyTables.Proofs.Token.Extent

/-! Where a block and its tables stand in a source, entries that are no tables included.

* `Encloses`: the tables stand one after the other in the tokens, and then the closing brace.
* `Scanned.encloses`: the scan of a block takes such tokens.
* `braces_of_parseBlock`, `tables_of_parseBlock`: the tables of a block are in order and lie between
  its braces. -/
namespace KeyTables
set_option autoImplicit false

namespace Cursor

/-! ## Tables in tokens -/

/-- The tables stand one after the other in the tokens, and then the closing brace. -/
inductive Encloses (close : Token) : List Token → List KeyTable → Prop
  | brace (gap after : List Token) (hclose : close.kind = .rbrace) :
      Encloses close (gap ++ close :: after) []
  | table (gap middle after : List Token) (first name last : Token) (keys : List Text)
      (tables : List KeyTable) (hfirst : first.kind = .lbracket) (hname : name.kind = .ident)
      (hlast : last.kind = .rparen ∨ last.kind = .comma) (hrest : Encloses close after tables) :
      Encloses close (gap ++ first :: name :: (middle ++ last :: after))
        (⟨name, keys, first.offset, last.offset + 1⟩ :: tables)

theorem Encloses.prepend {close : Token} {ts : List Token} {tables : List KeyTable}
    (h : Encloses close ts tables) (before : List Token) : Encloses close (before ++ ts) tables := by
  cases h with
  | brace gap after hclose =>
    rw [← List.append_assoc]
    exact .brace _ _ hclose
  | table gap middle after first name last keys tables hfirst hname hlast hrest =>
    rw [← List.append_assoc]
    exact .table _ _ _ _ _ _ _ _ hfirst hname hlast hrest

theorem Scanned.encloses {close : Token} {after ts : List Token} {tables : List KeyTable} {n : Nat}
    (h : Scanned close after ts tables n) : Encloses close ts tables := by
  induction h with
  | brace hclose => exact .brace [] after hclose
  | pass t ts tables n h1 h2 hrest ih => exact ih.prepend [t]
  | fault first header ts tables n hfirst hheader hrest ih => exact ih.prepend (first :: header)
  | table first name last middle ts keys tables n hfirst hname hlast hrest ih =>
    exact .table [] middle ts first name last keys tables hfirst hname hlast ih

end Cursor

/-! ## Offsets -/

open Cursor

/-- A table and the tokens that its offsets are those of. -/
structure KeyTable.Within (t : KeyTable) (ts : List Token) : Prop where
  opened : ∃ first ∈ ts, first.kind = .lbracket ∧ first.offset = t.start ∧
    first.stop ≤ t.name.offset
  named : t.name ∈ ts ∧ t.name.kind = .ident
  closed : ∃ last ∈ ts, (last.kind = .rparen ∨ last.kind = .comma) ∧ last.offset + 1 = t.stop ∧
    t.name.stop ≤ last.offset

theorem within_of_encloses (o : Nat) (bs : Bytes) (close : Token) (before ts : List Token)
    (tables : List KeyTable) (hts : tokensFrom o 0 bs = before ++ ts)
    (h : Encloses close ts tables) :
    close ∈ ts ∧ close.kind = .rbrace ∧ (∀ t ∈ tables, t.Within ts ∧ t.stop ≤ close.offset) ∧
      tables.Pairwise fun t u => t.stop ≤ u.start := by
  induction h generalizing before with
  | brace gap after hclose => exact ⟨by simp, hclose, by simp, List.Pairwise.nil⟩
  | table gap middle after first name last keys tables hfirst hname hlast hrest ih =>
    obtain ⟨hmem, hkind, hwithin, hordered⟩ :=
      ih (before ++ gap ++ first :: name :: (middle ++ [last])) (by rw [hts]; simp)
    have hsub : ∀ x ∈ after, x ∈ gap ++ first :: name :: (middle ++ last :: after) := by
      intro x hx
      simp [hx]
    have h1 : first.stop ≤ name.offset :=
      stop_le_of_before o bs (before ++ gap) (name :: (middle ++ last :: after)) first name
        (by rw [hts]; simp) (by simp)
    have h2 : name.stop ≤ last.offset :=
      stop_le_of_before o bs (before ++ gap ++ [first]) (middle ++ last :: after) name last
        (by rw [hts]; simp) (by simp)
    have h3 : ∀ x ∈ after, last.offset + 1 ≤ x.offset := by
      intro x hx
      have hstop := stop_le_of_before o bs (before ++ gap ++ first :: name :: middle) after last x
        (by rw [hts]; simp) hx
      have hlt := offset_lt_stop o bs last (by rw [hts]; simp)
      omega
    refine ⟨hsub _ hmem, hkind, ?_, List.pairwise_cons.mpr ⟨?_, hordered⟩⟩
    · intro t ht
      cases ht with
      | head =>
        exact ⟨⟨⟨first, by simp, hfirst, rfl, h1⟩, ⟨by simp, hname⟩,
          ⟨last, by simp, hlast, rfl, h2⟩⟩, h3 close hmem⟩
      | tail _ ht =>
        obtain ⟨⟨⟨f, hf, hf'⟩, ⟨hn, hn'⟩, ⟨l, hl, hl'⟩⟩, hstop⟩ := hwithin t ht
        exact ⟨⟨⟨f, hsub f hf, hf'⟩, ⟨hsub _ hn, hn'⟩, ⟨l, hsub l hl, hl'⟩⟩, hstop⟩
    · intro u hu
      obtain ⟨⟨f, hf, -, hstart, -⟩, -, -⟩ := (hwithin u hu).1
      rw [← hstart]
      exact h3 f hf

/-- The tokens of a block: its opening brace, and behind it its tables and its closing brace. -/
theorem encloses_of_parseBlock (d : Bytes) (b : Block) (h : (parseBlock d).value = some b) :
    ∃ before brace after close, tokensFrom 0 0 d = before ++ brace :: after ∧
      brace.kind = .lbrace ∧ brace.offset = b.start ∧ Encloses close after b.tables ∧
      close.offset = b.stop := by
  obtain ⟨before, brace, ts, close, after, hts, hbrace, hstart, hscanned, hstop⟩ :=
    scanned_of_parseBlock d b h
  exact ⟨before, brace, ts, close, hts, hbrace, hstart, hscanned.encloses, hstop⟩

/-- The tokens behind the opening brace, up to the end of the source. -/
theorem offset_of_after (d : Bytes) (before after : List Token) (brace : Token)
    (hts : tokensFrom 0 0 d = before ++ brace :: after) :
    ∀ x ∈ after, x ∈ tokensFrom 0 0 d ∧ brace.offset < x.offset := by
  intro x hx
  have hle := stop_le_of_before 0 d before after brace x hts hx
  have hlt := offset_lt_stop 0 d brace (by rw [hts]; simp)
  refine ⟨by rw [hts]; simp [hx], ?_⟩
  omega

section
variable (d : Bytes) (b : Block) (h : (parseBlock d).value = some b)
include h

theorem braces_of_parseBlock : d[b.start]? = some 0x7B ∧ d[b.stop]? = some 0x7D ∧
    b.start < b.stop ∧ b.stop < d.length := by
  obtain ⟨before, brace, after, close, hts, hbrace, hstart, hencloses, hstop⟩ :=
    encloses_of_parseBlock d b h
  obtain ⟨hclose, hkind, -, -⟩ := within_of_encloses 0 d close (before ++ [brace]) after b.tables
    (by rw [hts]; simp) hencloses
  obtain ⟨hmem, hlt⟩ := offset_of_after d before after brace hts close hclose
  have hend := stop_le_of_mem 0 d close hmem
  have hpos := offset_lt_stop 0 d close hmem
  rw [← hstart, ← hstop]
  refine ⟨?_, ?_, hlt, by omega⟩
  · exact getElem?_of_mark d brace 0x7B (by rw [hts]; simp) (by rw [hbrace]; decide)
  · exact getElem?_of_mark d close 0x7D hmem (by rw [hkind]; decide)

theorem tables_of_parseBlock : (b.tables.Pairwise fun t u => t.stop ≤ u.start) ∧
    ∀ t ∈ b.tables, t.Within (tokensFrom 0 0 d) ∧ b.start < t.start ∧ t.stop ≤ b.stop := by
  obtain ⟨before, brace, after, close, hts, -, hstart, hencloses, hstop⟩ :=
    encloses_of_parseBlock d b h
  obtain ⟨-, -, hwithin, hordered⟩ := within_of_encloses 0 d close (before ++ [brace]) after
    b.tables (by rw [hts]; simp) hencloses
  have hafter := offset_of_after d before after brace hts
  refine ⟨hordered, ?_⟩
  intro t ht
  obtain ⟨⟨⟨first, hfirst, hbracket, hopen, hbefore⟩, ⟨hmem, hident⟩, ⟨last, hlast, hend⟩⟩, hle⟩ :=
    hwithin t ht
  have hlt := (hafter first hfirst).2
  refine ⟨⟨⟨first, (hafter first hfirst).1, hbracket, hopen, hbefore⟩,
    ⟨(hafter _ hmem).1, hident⟩, ⟨last, (hafter last hlast).1, hend⟩⟩, ?_, ?_⟩
  · omega
  · omega

/-- The offsets of a block and of its tables are in order, and the right bytes stand at them. -/
theorem block_geometry : d[b.start]? = some 0x7B ∧ d[b.stop]? = some 0x7D ∧
    b.start < b.stop ∧ b.stop < d.length ∧
      (∀ t ∈ b.tables, b.start < t.start ∧ t.stop ≤ b.stop) ∧
      (b.tables.Pairwise fun t u => t.stop ≤ u.start) ∧
      ∀ t ∈ b.tables, t.start < t.name.offset ∧ t.name.offset < t.stop ∧
        t.name ∈ tokens d ∧ t.name.kind = .ident ∧ t.name.stop < t.stop ∧
        d[t.start]? = some 0x5B ∧ (d[t.stop - 1]? = some 0x29 ∨ d[t.stop - 1]? = some 0x2C) := by
  obtain ⟨hopen, hclose, hlt, hlength⟩ := braces_of_parseBlock d b h
  obtain ⟨hordered, htables⟩ := tables_of_parseBlock d b h
  refine ⟨hopen, hclose, hlt, hlength, fun t ht => (htables t ht).2, hordered, ?_⟩
  intro t ht
  obtain ⟨⟨⟨first, hfirst, hbracket, hstart, hname⟩, ⟨hmem, hident⟩,
    ⟨last, hlast, hkind, hstop, hend⟩⟩, -⟩ := htables t ht
  have hfirst1 := offset_lt_stop 0 d first hfirst
  have hname1 := offset_lt_stop 0 d t.name hmem
  have hoffset : t.stop - 1 = last.offset := by omega
  refine ⟨by omega, by omega, List.mem_append_left _ hmem, hident, by omega, ?_, ?_⟩
  · rw [← hstart]
    exact getElem?_of_mark d first 0x5B hfirst (by rw [hbracket]; decide)
  · rw [hoffset]
    refine hkind.imp ?_ ?_
    · intro hk
      exact getElem?_of_mark d last 0x29 hlast (by rw [hk]; decide)
    · intro hk
      exact getElem?_of_mark d last 0x2C hlast (by rw [hk]; decide)

end

/-- A block with an entry that is no table, a comment in front of a comma and a byte that is no
text. -/
def faultySource : Bytes :=
  encode "const T PROGMEM K[][R][C] = \x7b".toList ++ [0xFF] ++
    encode "[0], [A] = LAYOUT(X) // x\n, [B] = LAYOUT(_)\x7d;".toList

def faultyBlock : Block :=
  ⟨28, 73, [⟨⟨.ident, 36, [0x41]⟩, [['X']], 35, 57⟩, ⟨⟨.ident, 59, [0x42]⟩, [[]], 58, 73⟩], 1⟩

theorem parseBlock_faulty : (parseBlock faultySource).value = some faultyBlock := by
  decide +kernel

theorem block_geometry_faulty :
    (parseBlock faultySource).value = some faultyBlock ∧ faultySource[28]? = some 0x7B ∧
      faultySource[73]? = some 0x7D ∧ 73 < faultySource.length ∧
      (∀ t ∈ faultyBlock.tables, 28 < t.start ∧ t.stop ≤ 73) ∧
      faultyBlock.tables.Pairwise fun t u => t.stop ≤ u.start := by
  obtain ⟨hopen, hclose, -, hlength, hinside, hordered, -⟩ :=
    block_geometry faultySource faultyBlock parseBlock_faulty
  exact ⟨parseBlock_faulty, hopen, hclose, hlength, hinside, hordered⟩

end KeyTables
