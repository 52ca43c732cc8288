import KeyTables.Proofs.Block.Segment

/-! The tokens of a block between its braces, with all that decides how they are read. An entry that
is no table counts with the token at which its header breaks off, and a table with whether a comma
belongs to it; so the same tokens are read the same in front of anything else and at any other place.

* `Body`: the tokens behind an opening brace, up to the closing one.
* `Body.entries`: they are read as their tables, whatever follows them.
* `body_of_entries`: every block is read from such tokens.
* `body_of_parseBlock`: the tokens of a source around the body of its block.
* `Body.piece_of_mem`: each table is read from a piece of the body.
* `Body.shift`: at another place they are the body of the shifted tables. -/
namespace KeyTables
set_option autoImplicit false

/-- The table `n` bytes further on. -/
def KeyTable.shift (n : Nat) (t : KeyTable) : KeyTable :=
  ⟨t.name.relocate (· + n), t.keys, t.start + n, t.stop + n⟩

/-- The block `n` bytes further on. -/
def Block.shift (n : Nat) (b : Block) : Block :=
  ⟨b.start + n, b.stop + n, b.tables.map (KeyTable.shift n), b.unparsed⟩

namespace Cursor

/-- The tokens behind an opening brace up to the closing one: tokens that are passed over, entries
that break off in their header, and tables. -/
inductive Body (close : Token) : List Token → List KeyTable → Nat → Prop
  | brace (hclose : close.kind = .rbrace) : Body close [close] [] 0
  | pass (t : Token) (ts : List Token) (tables : List KeyTable) (n : Nat)
      (h1 : t.kind ≠ .lbracket) (h2 : t.kind ≠ .rbrace) (hrest : Body close ts tables n) :
      Body close (t :: ts) tables n
  | fault (first x : Token) (header ts : List Token) (k : Token.Kind) (ks : List Token.Kind)
      (tables : List KeyTable) (n : Nat) (hfirst : first.kind = .lbracket)
      (hk : tableHeader = header.map Token.kind ++ k :: ks) (hx : x.kind ≠ k)
      (hrest : Body close (x :: ts) tables n) :
      Body close (first :: (header ++ x :: ts)) tables (n + 1)
  | table (piece ts : List Token) (table : KeyTable) (tables : List KeyTable) (comma : Bool)
      (n : Nat) (hpiece : PieceTokens piece table comma)
      (hcomma : comma = false → startsComma ts = false) (hrest : Body close ts tables n) :
      Body close (piece ++ ts) (table :: tables) n

section
variable {close : Token} {ts : List Token} {tables : List KeyTable} {n : Nat}

theorem Body.split (h : Body close ts tables n) :
    ∃ inside, ts = inside ++ [close] ∧ close.kind = .rbrace := by
  induction h with
  | brace hclose => exact ⟨[], rfl, hclose⟩
  | pass t ts tables n h1 h2 hrest ih =>
    obtain ⟨inside, rfl, hclose⟩ := ih
    exact ⟨t :: inside, rfl, hclose⟩
  | fault first x header ts k ks tables n hfirst hk hx hrest ih =>
    obtain ⟨inside, hts, hclose⟩ := ih
    exact ⟨first :: (header ++ inside), by simp [hts], hclose⟩
  | table piece ts table tables comma n hpiece hcomma hrest ih =>
    obtain ⟨inside, rfl, hclose⟩ := ih
    exact ⟨piece ++ inside, by simp, hclose⟩

theorem Body.starts (h : Body close ts tables n) {x : Token} {rest after : List Token}
    (hts : x :: rest = ts ++ after) : ∃ body, ts = x :: body ∧ rest = body ++ after := by
  obtain ⟨inside, rfl, -⟩ := h.split
  cases inside with
  | nil =>
    obtain ⟨rfl, rfl⟩ := List.cons.inj hts
    exact ⟨[], rfl, rfl⟩
  | cons y inside =>
    obtain ⟨rfl, rfl⟩ := List.cons.inj hts
    exact ⟨inside ++ [close], rfl, rfl⟩

/-- The closing brace decides whether a comma comes first, if nothing before it does. -/
theorem Body.startsComma_append (h : Body close ts tables n) (after : List Token) :
    startsComma (ts ++ after) = startsComma ts := by
  obtain ⟨inside, rfl, hclose⟩ := h.split
  refine Cursor.startsComma_append _ after ⟨close, by simp, ?_⟩
  rw [isComment, hclose]
  rfl

/-! ## Reading a body -/

theorem keyTable_fault (first x : Token) (header rest : List Token) (k : Token.Kind)
    (ks : List Token.Kind) (m : Nat) (hk : tableHeader = header.map Token.kind ++ k :: ks)
    (hx : x.kind ≠ k) :
    (keyTable ⟨first :: (header ++ x :: rest), .ending m⟩).value = none ∧
      (keyTable ⟨first :: (header ++ x :: rest), .ending m⟩).cursor.advance =
        ⟨x :: rest, .ending m⟩ := by
  have hexp := expectAll_mismatch header rest k ks first x (.ending m) hx
  rw [← hk] at hexp
  rw [keyTable, hexp]
  exact ⟨rfl, rfl⟩

theorem Body.entries (h : Body close ts tables n) (start m : Nat) (after : List Token) :
    (entries start ⟨ts ++ after, .ending m⟩).value = some ⟨start, close.offset, tables, n⟩ := by
  induction h with
  | brace hclose => exact entries_rbrace start close _ after hclose
  | pass t ts tables n h1 h2 hrest ih =>
    rw [List.cons_append, entries_skip start t _ _ h1 h2, ih]
  | fault first x header ts k ks tables n hfirst hk hx hrest ih =>
    have happ : first :: (header ++ x :: ts) ++ after = first :: (header ++ x :: (ts ++ after)) := by
      simp
    obtain ⟨hnone, hcursor⟩ := keyTable_fault first x header (ts ++ after) k ks m hk hx
    rw [List.cons_append] at ih
    rw [happ, entries_of_keyTable_none start first _ _ hfirst hnone, hcursor, ih]
    rfl
  | table piece ts table tables comma n hpiece hcomma hrest ih =>
    have hafter : comma = false → startsComma (ts ++ after) = false := by
      intro hc
      rw [hrest.startsComma_append]
      exact hcomma hc
    rw [List.append_assoc, entries_piece start piece table comma hpiece _ m hafter, ih]
    rfl

end

/-! ## Finding a body -/

/-- An entry that is no table, in front of a closing brace, breaks off in its header. -/
theorem fault_of_entries (start m : Nat) (first : Token) (ts : List Token) (b : Block)
    (hfirst : first.kind = .lbracket)
    (hnone : (keyTable ⟨first :: ts, .ending m⟩).value = none)
    (h : (entries start ⟨first :: ts, .ending m⟩).value = some b) :
    ∃ header x rest k ks b', ts = header ++ x :: rest ∧
      tableHeader = header.map Token.kind ++ k :: ks ∧ x.kind ≠ k ∧
      (entries start ⟨x :: rest, .ending m⟩).value = some b' ∧
      b = { b' with unparsed := b'.unparsed + 1 } := by
  rw [entries_of_keyTable_none start first _ ts hfirst hnone, Option.map_eq_some_iff] at h
  obtain ⟨b', hb', rfl⟩ := h
  -- an entry that takes all tokens leaves no closing brace
  have hleft : (keyTable ⟨first :: ts, .ending m⟩).cursor.advance ≠ ⟨[], .ending m⟩ := by
    intro hnil
    rw [hnil, entries] at hb'
    simp at hb'
  obtain ⟨us, rest, rfl, hus⟩ | ⟨us, k, ks, x, rest, hk, rfl, hx⟩ | ⟨k, ks, hk⟩ :=
    kinds_cases tableHeader ts
  · have hexp := expectAll_match us rest first (.ending m)
    rw [hus] at hexp
    exfalso
    apply hleft
    unfold keyTable keyList at hnone ⊢
    simp only [hexp, if_true, List.tail_cons] at hnone ⊢
    cases hkeys : keysFrom rest with
    | none => rfl
    | some r =>
      simp only [hkeys] at hnone
      split at hnone <;> simp at hnone
  · rw [(keyTable_fault first x us rest k ks m hk hx).2] at hb'
    exact ⟨us, x, rest, k, ks, b', rfl, hk, hx, hb', rfl⟩
  · exfalso
    apply hleft
    rw [keyTable, expectAll_ending ts tableHeader k ks first m hk (by decide)]
    rfl

/-- A block is read from the tokens of its body. -/
theorem body_of_entries (start m : Nat) (ts : List Token) (b : Block)
    (h : (entries start ⟨ts, .ending m⟩).value = some b) :
    ∃ close body after, ts = body ++ after ∧ Body close body b.tables b.unparsed ∧
      close.offset = b.stop := by
  induction hn : ts.length using Nat.strongRecOn generalizing ts b with
  | ind l ih =>
    cases ts with
    | nil =>
      rw [entries] at h
      simp at h
    | cons t ts =>
      rw [List.length_cons] at hn
      by_cases hbracket : t.kind = .lbracket
      · cases hvalue : (keyTable ⟨t :: ts, .ending m⟩).value with
        | none =>
          obtain ⟨header, x, rest, k, ks, b', rfl, hk, hx, hb', rfl⟩ :=
            fault_of_entries start m t ts b hbracket hvalue h
          rw [List.length_append] at hn
          obtain ⟨close, body, after, hbody, hrest, hstop⟩ :=
            ih (x :: rest).length (by omega) (x :: rest) b' hb' rfl
          obtain ⟨body, rfl, rfl⟩ := hrest.starts hbody
          exact ⟨close, t :: (header ++ x :: body), after, by simp,
            .fault t x header body k ks _ _ hbracket hk hx hrest, hstop⟩
        | some table =>
          obtain ⟨piece, after, table', comma, hts, hpiece, hcomma⟩ :=
            piece_of_keyTable t ts m table hbracket hvalue
          rw [hts, entries_piece start piece table' comma hpiece after m hcomma,
            Option.map_eq_some_iff] at h
          obtain ⟨b', hb', rfl⟩ := h
          have hlen := congrArg List.length hts
          rw [List.length_cons, List.length_append] at hlen
          obtain ⟨x, hx, -⟩ := PieceTokens.bracket piece table' comma hpiece
          have hpos := List.length_pos_of_mem hx
          obtain ⟨close, body, after', rfl, hrest, hstop⟩ :=
            ih after.length (by omega) after b' hb' rfl
          refine ⟨close, piece ++ body, after', by rw [hts, List.append_assoc], ?_, hstop⟩
          refine .table piece body table' _ comma _ hpiece ?_ hrest
          intro hc
          rw [← hrest.startsComma_append after']
          exact hcomma hc
      · by_cases hbrace : t.kind = .rbrace
        · rw [entries_rbrace start t _ ts hbrace, Option.some.injEq] at h
          subst h
          exact ⟨t, [t], ts, rfl, .brace hbrace, rfl⟩
        · rw [entries_skip start t _ ts hbracket hbrace] at h
          obtain ⟨close, body, after, rfl, hrest, hstop⟩ := ih ts.length (by omega) ts b h rfl
          exact ⟨close, t :: body, after, rfl, .pass t body _ _ hbracket hbrace hrest, hstop⟩

theorem Body.piece_of_mem {close : Token} {ts : List Token} {tables : List KeyTable} {n : Nat}
    (h : Body close ts tables n) (t : KeyTable) (ht : t ∈ tables) :
    ∃ before piece after comma, ts = before ++ (piece ++ after) ∧ PieceTokens piece t comma := by
  induction h with
  | brace hclose => simp at ht
  | pass x ts tables n h1 h2 hrest ih =>
    obtain ⟨before, piece, after, comma, rfl, hpiece⟩ := ih ht
    exact ⟨x :: before, piece, after, comma, rfl, hpiece⟩
  | fault first x header ts k ks tables n hfirst hk hx hrest ih =>
    obtain ⟨before, piece, after, comma, hts, hpiece⟩ := ih ht
    exact ⟨first :: (header ++ before), piece, after, comma, by simp [hts], hpiece⟩
  | table piece ts table tables comma n hpiece hcomma hrest ih =>
    cases ht with
    | head => exact ⟨[], piece, ts, comma, rfl, hpiece⟩
    | tail _ ht =>
      obtain ⟨before, piece', after, comma', rfl, hpiece'⟩ := ih ht
      exact ⟨piece ++ before, piece', after, comma', by simp, hpiece'⟩

/-! ## Moving a body -/

theorem PieceTokens.shift (n : Nat) (ts : List Token) (table : KeyTable) (comma : Bool)
    (h : PieceTokens ts table comma) :
    PieceTokens (ts.map (Token.relocate (· + n))) (table.shift n) comma := by
  obtain ⟨before, t, -, -, hstop⟩ := PieceTokens.last ts table comma h
  have hmoved := PieceTokens.relocate (· + n) ts table comma h
  have e : table.stop - 1 + n + 1 = table.stop + n := by omega
  simp only [e] at hmoved
  exact hmoved

theorem Body.shift {close : Token} {ts : List Token} {tables : List KeyTable} {u : Nat}
    (h : Body close ts tables u) (n : Nat) :
    Body (close.relocate (· + n)) (ts.map (Token.relocate (· + n))) (tables.map (KeyTable.shift n))
      u := by
  induction h with
  | brace hclose => exact .brace hclose
  | pass t ts tables u h1 h2 hrest ih => exact .pass _ _ _ _ h1 h2 ih
  | fault first x header ts k ks tables u hfirst hk hx hrest ih =>
    rw [List.map_cons, List.map_append, List.map_cons]
    refine .fault _ _ _ _ k ks _ _ hfirst ?_ hx ih
    rw [hk, List.map_map]
    rfl
  | table piece ts table tables comma u hpiece hcomma hrest ih =>
    rw [List.map_append, List.map_cons]
    refine .table _ _ _ _ comma _ (PieceTokens.shift n piece table comma hpiece) ?_ ih
    intro hc
    rw [startsComma_relocate]
    exact hcomma hc

end Cursor

open Cursor

/-- The tokens of a source with a block: its opening brace, and behind it its body. -/
theorem body_of_parseBlock (d : Bytes) (b : Block) (h : (parseBlock d).value = some b) :
    ∃ before brace body close after, tokensFrom 0 0 d = before ++ brace :: (body ++ after) ∧
      brace.kind = .lbrace ∧ brace.offset = b.start ∧
      Body close body b.tables b.unparsed ∧ close.offset = b.stop := by
  obtain ⟨before, brace, ts, hts, hbrace, hstart, -, hentries⟩ := opens_of_findBlock _ _ b h
  obtain ⟨close, body, after, rfl, hbody, hstop⟩ := body_of_entries b.start d.length ts b hentries
  exact ⟨before, brace, body, close, after, hts, hbrace, hstart, hbody, hstop⟩

end KeyTables
