import KeyTables.Proofs.Block.FirstHeader
import KeyTables.Proofs.Block.Geometry
import KeyTables.Proofs.Token.Uncommented

/-! Reading a block is local: it depends on the source up to the closing brace only, and a text put in
front of the source moves the block without changing it. The cut behind the brace and the seam after
a line feed are sealed, so the tokens are the same ones; and the first header and the body behind it
are known by these tokens.

* `FirstHeader`: tokens that end with their first header. They keep doing so when they are moved.
* `opens_first`, `Opens.behind`: such tokens lead to a block, whatever follows them, and behind tokens
  without a first word.
* `front_of_parseBlock`: the part of a source up to the closing brace.
* `parseBlock_local`: the block of a source with the text around it exchanged. -/
namespace KeyTables
set_option autoImplicit false

namespace Cursor

/-! ## The first header -/

theorem headerAt_front (ts us : List Token) (i : Nat) (hi : i + 14 ≤ ts.length) :
    HeaderAt (ts ++ us) i ↔ HeaderAt ts i := by
  have hlen : openingKinds.length ≤ ((ts.map Token.kind).drop i).length := by
    have h14 : openingKinds.length = 14 := rfl
    rw [List.length_drop, List.length_map]
    omega
  unfold HeaderAt
  rw [List.map_append, List.drop_append_of_le_length (by rw [List.length_map]; omega)]
  exact ⟨fun h => List.prefix_of_prefix_length_le h (List.prefix_append _ _) hlen,
    fun h => h.trans (List.prefix_append _ _)⟩

theorem headerAt_relocate (f : Nat → Nat) (ts : List Token) (i : Nat) :
    HeaderAt (ts.map (Token.relocate f)) i ↔ HeaderAt ts i := by
  unfold HeaderAt
  rw [List.map_map]
  rfl

/-- Tokens that end with their first header, which ends with `brace`. -/
structure FirstHeader (ts : List Token) (brace : Token) : Prop where
  last : ts.getLast? = some brace
  starts : ∃ i, ts.length = i + 14 ∧ HeaderAt ts i ∧ ∀ j < i, ¬ HeaderAt ts j

theorem FirstHeader.relocate {ts : List Token} {brace : Token} (h : FirstHeader ts brace)
    (f : Nat → Nat) : FirstHeader (ts.map (Token.relocate f)) (brace.relocate f) := by
  obtain ⟨i, hlen, hat, hleast⟩ := h.starts
  refine ⟨by rw [List.getLast?_map, h.last]; rfl, i, by rw [List.length_map, hlen], ?_, ?_⟩
  · exact (headerAt_relocate f ts i).mpr hat
  · intro j hj hat'
    exact hleast j hj ((headerAt_relocate f ts j).mp hat')

theorem opens_first (ts : List Token) (brace : Token) (h : FirstHeader ts brace) :
    Opens ts brace.offset := by
  obtain ⟨i, hlen, hat, hleast⟩ := h.starts
  intro after n
  have hat' : HeaderAt (ts ++ after) i := (headerAt_front ts after i (by omega)).mpr hat
  obtain ⟨hnone, -⟩ | ⟨i', brace', hat'', hleast', hbrace', hvalue⟩ :=
    settles_findBlock n (ts ++ after)
  · exact absurd hat' (hnone i)
  · -- the least index is the one that the tokens end with
    have hle : i' ≤ i := Nat.le_of_not_lt (fun hlt => hleast' i hlt hat')
    have hge : i ≤ i' := by
      refine Nat.le_of_not_lt (fun hlt => hleast i' hlt ?_)
      exact (headerAt_front ts after i' (by omega)).mp hat''
    obtain rfl : i = i' := Nat.le_antisymm hge hle
    have hbrace : brace' = brace := by
      have hlast := h.last
      rw [List.getLast?_eq_getElem?, hlen] at hlast
      rw [List.getElem?_append_left (by omega)] at hbrace'
      exact Option.some.inj (hbrace'.symm.trans hlast)
    rw [hvalue, hbrace, ← hlen, List.drop_left]

theorem Opens.behind {before : List Token} {start : Nat} (h : Opens before start) (ts : List Token)
    (hts : ∀ t ∈ ts, t.kind ≠ .const) : Opens (ts ++ before) start := by
  induction ts with
  | nil => exact h
  | cons t ts ih =>
    exact (ih (fun x hx => hts x (List.mem_cons_of_mem t hx))).skip t (hts t List.mem_cons_self)

end Cursor

open Cursor

/-! ## The part of a source up to the closing brace -/

/-- The tokens of a source with a block: its first header, the body behind it, and what follows. -/
theorem header_of_parseBlock (d : Bytes) (b : Block) (h : (parseBlock d).value = some b) :
    ∃ header brace body close after, tokensFrom 0 0 d = header ++ (body ++ after) ∧
      FirstHeader header brace ∧ brace.offset = b.start ∧
      Body close body b.tables b.unparsed ∧ close.offset = b.stop := by
  obtain ⟨-, hvalue⟩ | ⟨i, brace, hat, hleast, hbrace, hvalue⟩ :=
    settles_findBlock d.length (tokensFrom 0 0 d)
  · rw [parseBlock, Cursor.start, hvalue] at h
    simp at h
  have hentries := hvalue.symm.trans h
  obtain ⟨close, body, after, hdrop, hbody, hstop⟩ := body_of_entries _ _ _ b hentries
  have hlen := headerAt_length _ i hat
  have hsplit : tokensFrom 0 0 d = (tokensFrom 0 0 d).take (i + 14) ++ (body ++ after) := by
    rw [← hdrop, List.take_append_drop]
  have hcount : ((tokensFrom 0 0 d).take (i + 14)).length = i + 14 := by
    rw [List.length_take]
    omega
  have hfront : ∀ j ≤ i, HeaderAt ((tokensFrom 0 0 d).take (i + 14)) j ↔
      HeaderAt (tokensFrom 0 0 d) j := by
    intro j hj
    have happ := headerAt_front ((tokensFrom 0 0 d).take (i + 14)) (body ++ after) j (by omega)
    rw [← hsplit] at happ
    exact happ.symm
  refine ⟨_, brace, body, close, after, hsplit, ⟨?_, i, hcount, ?_, ?_⟩,
    (entries_start _ _ b hentries).symm, hbody, hstop⟩
  · rw [List.getLast?_eq_getElem?, hcount, List.getElem?_take_of_lt (by omega)]
    exact hbrace
  · exact (hfront i (Nat.le_refl i)).mpr hat
  · intro j hj hat'
    exact hleast j hj ((hfront j (by omega)).mp hat')

/-- A source can be cut behind each of its brackets and separators. -/
theorem take_behind_mark (d : Bytes) (before after : List Token) (t : Token)
    (h : tokensFrom 0 0 d = before ++ t :: after) (hm : t.kind.isMark = true) :
    tokensFrom 0 0 (d.take (t.offset + 1)) = before ++ [t] ∧ Sealed (d.take (t.offset + 1)) := by
  obtain ⟨a, rest, hd, hoffset, hcut, -, -⟩ := tokensFrom_cut 0 d before after t h
  obtain ⟨x, hx, -⟩ := lexeme_of_mark _ _ (spelled_of_mem 0 d t (by rw [h]; simp)) hm
  have hlen : t.offset + 1 = (a ++ t.lexeme).length := by
    rw [List.length_append, hx, List.length_singleton]
    omega
  have htake : d.take (t.offset + 1) = a ++ t.lexeme := by
    rw [hd, ← List.append_assoc, hlen, List.take_left]
  rw [htake]
  refine ⟨hcut, sealed_of_last 0 _ ?_⟩
  intro u hu
  rw [hcut, List.getLast?_append, List.getLast?_singleton] at hu
  obtain rfl : t = u := by simpa using hu
  exact Or.inl hm

/-- The bytes up to the closing brace have the tokens of the header and of the body, and nothing that
follows joins the last one. -/
theorem front_of_parseBlock (d : Bytes) (b : Block) (h : (parseBlock d).value = some b) :
    ∃ header brace body close, tokensFrom 0 0 (d.take (b.stop + 1)) = header ++ body ∧
      Sealed (d.take (b.stop + 1)) ∧ FirstHeader header brace ∧ brace.offset = b.start ∧
      Body close body b.tables b.unparsed ∧ close.offset = b.stop := by
  obtain ⟨header, brace, body, close, after, hts, hfirst, hstart, hbody, hstop⟩ :=
    header_of_parseBlock d b h
  obtain ⟨inside, rfl, hclose⟩ := hbody.split
  obtain ⟨hfront, hsealed⟩ := take_behind_mark d (header ++ inside) after close
    (by rw [hts]; simp) (by rw [hclose]; rfl)
  rw [hstop] at hfront hsealed
  exact ⟨header, brace, inside ++ [close], close, by rw [hfront, List.append_assoc], hsealed, hfirst,
    hstart, hbody, hstop⟩

/-! ## Moving a source -/

theorem sealed_of_lineFeed (p : Bytes) (h : p = [] ∨ p.getLast? = some 0x0A) : Sealed p := by
  obtain rfl | hlast := h
  · exact sealed_nil
  · obtain ⟨a, rfl⟩ := List.getLast?_eq_some_iff.mp hlast
    exact sealed_lineFeed a

/-- Only the source up to the closing brace is read. In front of it, nothing or whole lines without a
first word move every offset by their length and change nothing else; what follows the brace plays no
part. -/
theorem parseBlock_local (p s t : Bytes) (b : Block) (h : (parseBlock s).value = some b)
    (hp : p = [] ∨ p.getLast? = some 0x0A ∧ ∀ x ∈ tokens p, x.kind ≠ .const) :
    (parseBlock (p ++ (s.take (b.stop + 1) ++ t))).value = some (b.shift p.length) := by
  obtain ⟨header, brace, body, close, htokens, hsealed, hfirst, hstart, hbody, hstop⟩ :=
    front_of_parseBlock s b h
  have hnone : ∀ x ∈ tokensFrom 0 0 p, x.kind ≠ .const := by
    obtain rfl | ⟨-, hp⟩ := hp
    · simp [tokensFrom]
    · exact fun x hx => hp x (List.mem_append_left _ hx)
  have hall : tokensFrom 0 0 (p ++ (s.take (b.stop + 1) ++ t)) =
      (tokensFrom 0 0 p ++ header.map (Token.relocate (· + p.length))) ++
        (body.map (Token.relocate (· + p.length)) ++
          tokensFrom (p.length + (s.take (b.stop + 1)).length) 0 t) := by
    have hmoved := tokensFrom_add p.length 0 (s.take (b.stop + 1))
    rw [htokens, List.map_append] at hmoved
    rw [sealed_of_lineFeed p (hp.imp_right And.left), hsealed, hmoved]
    simp
  have hopens := (opens_first _ _ (hfirst.relocate (· + p.length))).behind _ hnone
  rw [parseBlock, Cursor.start, hall, hopens, (hbody.shift p.length).entries]
  simp only [Token.relocate, hstart, hstop]
  rfl

/-- Whole lines whose only first word stands in a comment. -/
def leadingLines : Bytes :=
  encode "// const\nint é = \x7b 1 \x7d; /\n".toList

/-- A second block that is never closed, with a byte that is no text. -/
def trailingBlock : Bytes :=
  encode "/const T PROGMEM K[][R][C] = \x7b[Z] = LAYOUT(".toList ++ [0xFF]

/-- A block with an entry that is no table, between lines without a first word and another block. -/
theorem parseBlock_local_faulty : (parseBlock faultySource).value = some faultyBlock ∧
    (parseBlock (leadingLines ++ (faultySource.take 74 ++ trailingBlock))).value =
      some ⟨55, 100, [⟨⟨.ident, 63, [0x41]⟩, [['X']], 62, 84⟩, ⟨⟨.ident, 86, [0x42]⟩, [[]], 85, 100⟩],
        1⟩ := by
  refine ⟨parseBlock_faulty, ?_⟩
  exact parseBlock_local leadingLines faultySource trailingBlock faultyBlock parseBlock_faulty
    (Or.inr ⟨by decide +kernel, by decide +kernel⟩)

end KeyTables
