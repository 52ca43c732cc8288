import Mathlib.Data.List.Forall2
import KeyTables.Block.Patch
import KeyTables.Proofs.Block.ClosingBrace
import KeyTables.Proofs.Block.Geometry

/-! Patching the block of a source, entries that are no tables included. Every cut that patching makes
stands beside a bracket or separator, so no character is cut, and the parts are texts again.

* `IsCut`: places where the bytes of a text can be cut. `slice_text`: what lies between two of them.
* `Tiled`: ranges that follow each other without gaps. `flatten_slices`: they hold all bytes.
* `covers_segmentsFrom`, `tiled_segmentsFrom`: each table lies in its segment, and the segments tile
  the inside of a block.
* `KeyTable.ClosesWith`: the closing parenthesis of a table.
* `patch_exact`: what patching gives, byte for byte. -/
namespace KeyTables
set_option autoImplicit false

/-! ## Slices -/

theorem slice_within (d : Bytes) (a a' e' e : Nat) (ha : a ≤ a') (he : e' ≤ e) :
    slice d a' e' <:+: slice d a e := by
  have htake : d.take e' <+: d.take e := List.take_prefix_take_left he
  have h1 : slice d a' e' <:+ slice d a e' := by
    have hdrop : (d.take e').drop a' = ((d.take e').drop a).drop (a' - a) := by
      rw [List.drop_drop]
      congr 1
      omega
    unfold slice
    rw [hdrop]
    exact List.drop_suffix _ _
  have h2 : slice d a e' <+: slice d a e := by
    unfold slice
    obtain ⟨rest, hrest⟩ := htake
    rw [← hrest, List.drop_append]
    exact List.prefix_append _ _
  exact h1.isInfix.trans h2.isInfix

theorem slice_append (d : Bytes) (a m e : Nat) (h1 : a ≤ m) (h2 : m ≤ e) :
    slice d a m ++ slice d m e = slice d a e := by
  have htake : d.take m = (d.take e).take m := by
    rw [List.take_take, Nat.min_eq_left h2]
  have hdrop : (d.take e).drop m = ((d.take e).drop a).drop (m - a) := by
    rw [List.drop_drop, Nat.add_sub_cancel' h1]
  unfold slice
  rw [htake, hdrop, List.drop_take, List.take_append_drop]

theorem take_slice_drop (d : Bytes) (a e : Nat) (h : a ≤ e) :
    d.take a ++ slice d a e ++ d.drop e = d := by
  have htake : d.take a = (d.take e).take a := by
    rw [List.take_take, Nat.min_eq_left h]
  unfold slice
  rw [htake, List.take_append_drop, List.take_append_drop]

/-- The ranges follow each other without gaps, from `start` up to `stop`. -/
def Tiled : (start stop : Nat) → List (Nat × Nat) → Prop
  | start, stop, [] => start = stop
  | start, stop, r :: rs => r.1 = start ∧ r.1 < r.2 ∧ Tiled r.2 stop rs

theorem Tiled.le (start stop : Nat) (rs : List (Nat × Nat)) (h : Tiled start stop rs) :
    start ≤ stop := by
  induction rs generalizing start with
  | nil => exact Nat.le_of_eq h
  | cons r rs ih =>
    obtain ⟨rfl, hlt, hrest⟩ := h
    exact Nat.le_trans (Nat.le_of_lt hlt) (ih _ hrest)

theorem flatten_slices (d : Bytes) (start stop : Nat) (rs : List (Nat × Nat))
    (h : Tiled start stop rs) :
    (rs.map fun r => slice d r.1 r.2).flatten = slice d start stop := by
  induction rs generalizing start with
  | nil =>
    rw [show start = stop from h, slice, List.drop_eq_nil_of_le (List.length_take_le stop d)]
    rfl
  | cons r rs ih =>
    obtain ⟨rfl, hlt, hrest⟩ := h
    rw [List.map_cons, List.flatten_cons, ih _ hrest,
      slice_append d _ _ _ (Nat.le_of_lt hlt) (Tiled.le _ _ _ hrest)]

/-! ## Cuts of a text -/

/-- The bytes of the text can be cut at the offset into those of two texts. -/
def IsCut (s : Text) (offset : Nat) : Prop :=
  ∃ s1 s2, s = s1 ++ s2 ∧ (encode s1).length = offset

/-- A text can be cut on both sides of an ASCII byte. -/
theorem isCut_ascii (s : Text) (offset : Nat) (x : UInt8) (hx : x.toNat < 0x80)
    (h : (encode s)[offset]? = some x) : IsCut s offset ∧ IsCut s (offset + 1) := by
  obtain ⟨hlt, hget⟩ := List.getElem?_eq_some_iff.mp h
  have hsplit : encode s = (encode s).take offset ++ x :: (encode s).drop (offset + 1) := by
    rw [← hget, ← List.drop_eq_getElem_cons hlt, List.take_append_drop]
  obtain ⟨s1, s2, hs, h1, -⟩ := encode_cut s _ x _ hx hsplit
  have hlen : (encode s1).length = offset := by
    rw [h1, List.length_take]
    omega
  refine ⟨⟨s1, _, hs, hlen⟩, s1 ++ [Char.ofNat x.toNat], s2, by simp [hs], ?_⟩
  rw [encode_append, List.length_append, hlen, encode_cons, utf8EncodeChar_ofNat x hx]
  rfl

section
variable (s : Text) (offset : Nat) (h : IsCut s offset)
include h

theorem take_text : ∃ t, (encode s).take offset = encode t := by
  obtain ⟨s1, s2, rfl, rfl⟩ := h
  exact ⟨s1, by rw [encode_append, List.take_left]⟩

theorem drop_text : ∃ t, (encode s).drop offset = encode t := by
  obtain ⟨s1, s2, rfl, rfl⟩ := h
  exact ⟨s2, by rw [encode_append, List.drop_left]⟩

end

theorem slice_text (s : Text) (a e : Nat) (ha : IsCut s a) (he : IsCut s e) :
    ∃ t, slice (encode s) a e = encode t := by
  obtain ⟨s1, s2, rfl, rfl⟩ := ha
  obtain ⟨u1, u2, hu, rfl⟩ := he
  have htake : (encode (s1 ++ s2)).take (encode u1).length = encode u1 := by
    rw [hu, encode_append, List.take_left]
  unfold slice
  rw [htake]
  obtain ⟨w, rfl, -⟩ | ⟨w, rfl, -⟩ := List.append_eq_append_iff.mp hu
  · exact ⟨w, by rw [encode_append, List.drop_left]⟩
  · refine ⟨[], List.drop_eq_nil_of_le ?_⟩
    rw [encode_append, List.length_append]
    exact Nat.le_add_right _ _

theorem flatten_text (parts : List Bytes) (h : ∀ part ∈ parts, ∃ t, part = encode t) :
    ∃ t, parts.flatten = encode t := by
  induction parts with
  | nil => exact ⟨[], rfl⟩
  | cons part parts ih =>
    obtain ⟨t, rfl⟩ := h part List.mem_cons_self
    obtain ⟨ts, hts⟩ := ih (fun x hx => h x (List.mem_cons_of_mem _ hx))
    exact ⟨t ++ ts, by rw [List.flatten_cons, hts, encode_append]⟩

/-! ## Segments of a block -/

/-- Tables in order lie each in its segment. -/
theorem covers_segmentsFrom (start stop : Nat) (tables : List KeyTable)
    (hstart : ∀ t ∈ tables, start ≤ t.start) (hstop : ∀ t ∈ tables, t.stop ≤ stop)
    (hordered : tables.Pairwise fun t u => t.stop ≤ u.start) :
    List.Forall₂ (fun t segment => segment.1 ≤ t.start ∧ t.stop ≤ segment.2) tables
      (Block.segmentsFrom start stop tables) := by
  fun_induction Block.segmentsFrom start stop tables with
  | case1 => exact .nil
  | case2 start t =>
    exact .cons ⟨hstart t List.mem_cons_self, hstop t List.mem_cons_self⟩ .nil
  | case3 start t u ts ih =>
    obtain ⟨hfirst, hrest⟩ := List.pairwise_cons.mp hordered
    refine .cons ⟨hstart t List.mem_cons_self, Nat.le_refl _⟩ (ih hfirst ?_ hrest)
    intro x hx
    exact hstop x (List.mem_cons_of_mem t hx)

theorem tiled_segmentsFrom (start stop : Nat) (tables : List KeyTable) (hne : tables ≠ [])
    (hstart : ∀ t ∈ tables, start ≤ t.start) (hstop : ∀ t ∈ tables, t.stop ≤ stop)
    (hlength : ∀ t ∈ tables, t.start < t.stop)
    (hordered : tables.Pairwise fun t u => t.stop ≤ u.start) :
    Tiled start stop (Block.segmentsFrom start stop tables) := by
  fun_induction Block.segmentsFrom start stop tables with
  | case1 => exact absurd rfl hne
  | case2 start t =>
    have h1 := hstart t List.mem_cons_self
    have h2 := hlength t List.mem_cons_self
    have h3 := hstop t List.mem_cons_self
    exact ⟨rfl, by dsimp only; omega, rfl⟩
  | case3 start t u ts ih =>
    obtain ⟨hfirst, hrest⟩ := List.pairwise_cons.mp hordered
    have h1 := hstart t List.mem_cons_self
    have h2 := hlength t List.mem_cons_self
    exact ⟨rfl, by dsimp only; omega, ih (by simp) hfirst
      (fun x hx => hstop x (List.mem_cons_of_mem t hx))
      (fun x hx => hlength x (List.mem_cons_of_mem t hx)) hrest⟩

theorem isCut_segmentsFrom (s : Text) (start stop : Nat) (tables : List KeyTable)
    (hstart : IsCut s start) (hstop : IsCut s stop) (htables : ∀ t ∈ tables, IsCut s t.stop) :
    ∀ r ∈ Block.segmentsFrom start stop tables, IsCut s r.1 ∧ IsCut s r.2 := by
  fun_induction Block.segmentsFrom start stop tables with
  | case1 => simp
  | case2 start t =>
    intro r hr
    rw [List.mem_singleton.mp hr]
    exact ⟨hstart, hstop⟩
  | case3 start t u ts ih =>
    have ht := htables t List.mem_cons_self
    intro r hr
    obtain rfl | hr := List.mem_cons.mp hr
    · exact ⟨hstart, ht⟩
    · exact ih ht (fun x hx => htables x (List.mem_cons_of_mem t hx)) r hr

/-! ## Closing parentheses -/

open Cursor

/-- What belongs to a table behind its closing parenthesis. -/
def IsSeparator (comma : Bool) (ts : List Token) : Prop :=
  if comma then
    ∃ comments t, ts = comments ++ [t] ∧ (∀ c ∈ comments, isComment c = true) ∧ t.kind = .comma
  else ts = []

/-- A piece ends with the closing parenthesis of its table and what belongs to the table behind it. -/
theorem PieceTokens.closing (ts : List Token) (table : KeyTable) (comma : Bool)
    (h : PieceTokens ts table comma) :
    ∃ before close separator, ts = before ++ close :: separator ∧ table.name ∈ before ∧
      close.kind = .rparen ∧ IsSeparator comma separator ∧
      table.stop = (separator.getLastD close).offset + 1 := by
  cases h with
  | plain gap body first name close keys hgap hbody =>
    obtain ⟨middle, inner, rfl, -, -, hclose, -⟩ := hbody
    exact ⟨gap ++ first :: name :: (middle ++ inner), close, [], by simp, by simp, hclose, rfl, rfl⟩
  | comma gap body comments first name close comma keys hgap hbody hcomments hcomma =>
    obtain ⟨middle, inner, rfl, -, -, hclose, -⟩ := hbody
    refine ⟨gap ++ first :: name :: (middle ++ inner), close, comments ++ [comma], by simp, by simp,
      hclose, ⟨comments, comma, rfl, hcomments, hcomma⟩, ?_⟩
    rw [List.getLastD_concat]

theorem IsSeparator.kinds {comma : Bool} {ts : List Token} (h : IsSeparator comma ts)
    (close : Token) :
    ∀ x ∈ ts, x.kind = .comment ∨ x.kind = .comma ∧ x = ts.getLastD close := by
  cases comma with
  | false => rw [show ts = [] from h]; simp
  | true =>
    obtain ⟨comments, t, rfl, hcomments, ht⟩ := h
    intro x hx
    obtain hx | hx := List.mem_append.mp hx
    · exact Or.inl (by simpa [isComment] using hcomments x hx)
    · obtain rfl := List.mem_singleton.mp hx
      exact Or.inr ⟨ht, by rw [List.getLastD_concat]⟩

/-- The closing parenthesis of a table. Between it and the end of the table stand only comments and
the comma that ends the table. -/
structure KeyTable.ClosesWith (t : KeyTable) (d : Bytes) (close : Token) : Prop where
  token : close ∈ tokens d ∧ close.kind = .rparen
  behind_name : t.name.offset < close.offset
  within : close.offset < t.stop
  between : ∀ x ∈ tokensBetween d close.offset t.stop,
    x.kind = .comment ∨ x.kind = .comma ∧ x.offset + 1 = t.stop

theorem closesWith_of_piece (d : Bytes) (before piece after : List Token) (t : KeyTable)
    (comma : Bool) (hts : tokens d = before ++ (piece ++ after)) (h : PieceTokens piece t comma) :
    ∃ close, t.ClosesWith d close := by
  obtain ⟨front, close, separator, rfl, hname, hclose, hseparator, hstop⟩ :=
    PieceTokens.closing piece t comma h
  have hat : tokens d = (before ++ front) ++ close :: (separator ++ after) := by
    rw [hts]
    simp
  have hordered := tokens_increasing d
  rw [hat] at hordered
  obtain ⟨-, hbehind, hfront⟩ := List.pairwise_append.mp hordered
  obtain ⟨hlt, hrest⟩ := List.pairwise_cons.mp hbehind
  -- the last token of the piece is the closing parenthesis or the comma behind it
  have hlast := List.getLastD_mem_cons (l := separator) (a := close)
  refine ⟨close, ⟨by rw [hat]; simp, hclose⟩, ?_, ?_, ?_⟩
  · exact hfront _ (List.mem_append_right before hname) close List.mem_cons_self
  · obtain hlast | hlast := List.mem_cons.mp hlast
    · rw [hstop, hlast]
      exact Nat.lt_succ_self _
    · have := hlt _ (List.mem_append_left after hlast)
      omega
  · intro x hx
    obtain ⟨hmem, hgt, hle⟩ := (mem_tokensBetween d _ _ x).mp hx
    have hx : x ∈ separator ++ after := by
      rw [← filter_behind _ _ close hordered, ← hat]
      exact List.mem_filter.mpr ⟨hmem, decide_eq_true hgt⟩
    obtain hx | hx := List.mem_append.mp hx
    · refine (hseparator.kinds close x hx).imp_right (And.imp_right ?_)
      intro he
      rw [hstop, ← he]
    · exfalso
      obtain hlast | hlast := List.mem_cons.mp hlast
      · rw [hlast] at hstop
        have := hlt x (List.mem_append_right separator hx)
        omega
      · have := (List.pairwise_append.mp hrest).2.2 _ hlast x hx
        omega

theorem closesWith_of_parseBlock (d : Bytes) (b : Block) (h : (parseBlock d).value = some b) :
    ∀ t ∈ b.tables, ∃ close, t.ClosesWith d close := by
  intro t ht
  obtain ⟨before, brace, body, close, after, hts, -, -, hbody, -⟩ := body_of_parseBlock d b h
  obtain ⟨front, piece, rest, comma, rfl, hpiece⟩ := hbody.piece_of_mem t ht
  refine closesWith_of_piece d (before ++ brace :: front) piece
    (rest ++ (after ++ [.ending d.length])) t comma ?_ hpiece
  rw [tokens, hts]
  simp

/-! ## Patching -/

/-- The cuts that patching a block makes. -/
theorem isCut_of_parseBlock (s : Text) (b : Block) (h : (parseBlock (encode s)).value = some b) :
    IsCut s (b.start + 1) ∧ IsCut s b.stop ∧ ∀ t ∈ b.tables, IsCut s t.stop := by
  obtain ⟨hopen, hclose, -, -⟩ := braces_of_parseBlock (encode s) b h
  refine ⟨(isCut_ascii s _ _ (by decide) hopen).2, (isCut_ascii s _ _ (by decide) hclose).1, ?_⟩
  intro t ht
  obtain ⟨⟨-, -, last, hmem, hkind, hstop, -⟩, -⟩ := (tables_of_parseBlock (encode s) b h).2 t ht
  rw [← hstop]
  obtain hk | hk := hkind
  · exact (isCut_ascii s _ 0x29 (by decide)
      (getElem?_of_mark _ last 0x29 hmem (by rw [hk]; decide))).2
  · exact (isCut_ascii s _ 0x2C (by decide)
      (getElem?_of_mark _ last 0x2C hmem (by rw [hk]; decide))).2

theorem patchedSegment_text (s : Text) (segment : Nat × Nat) (r : Option Text)
    (h : IsCut s segment.1 ∧ IsCut s segment.2) :
    ∃ t, Block.patchedSegment (encode s) segment r = encode t := by
  cases r with
  | none => exact slice_text s _ _ h.1 h.2
  | some t => exact ⟨t, rfl⟩

/-- The patched bytes are those of a text. -/
theorem patchedBytes_text (s : Text) (b : Block) (h : (parseBlock (encode s)).value = some b)
    (rs : List (Option Text)) : ∃ t, b.patchedBytes (encode s) rs = encode t := by
  obtain ⟨hstart, hstop, htables⟩ := isCut_of_parseBlock s b h
  have hsegments := isCut_segmentsFrom s _ _ b.tables hstart hstop htables
  obtain ⟨front, hfront⟩ := take_text s _ hstart
  obtain ⟨back, hback⟩ := drop_text s _ hstop
  obtain ⟨inside, hinside⟩ : ∃ t, b.patchedInside (encode s) rs = encode t := by
    unfold Block.patchedInside
    split
    · exact slice_text s _ _ hstart hstop
    · refine flatten_text _ ?_
      intro part hpart
      rw [← List.map_uncurry_zip_eq_zipWith] at hpart
      obtain ⟨⟨segment, r⟩, hmem, rfl⟩ := List.mem_map.mp hpart
      exact patchedSegment_text s segment r (hsegments segment (List.of_mem_zip hmem).1)
  refine ⟨front ++ inside ++ back, ?_⟩
  rw [Block.patchedBytes, hfront, hinside, hback, encode_append, encode_append]

theorem patch_ok (s : Text) (b : Block) (h : (parseBlock (encode s)).value = some b)
    (rs : List (Option Text)) (hlen : rs.length = b.tables.length) :
    ∃ text, patch s b rs = .ok text ∧ encode text = b.patchedBytes (encode s) rs := by
  obtain ⟨text, htext⟩ := patchedBytes_text s b h rs
  exact ⟨text, by rw [patch, if_pos hlen, htext, decode_encode], htext.symm⟩

/-- The segments of a block tile its inside, and each holds its table. -/
theorem segments_of_parseBlock (d : Bytes) (b : Block) (h : (parseBlock d).value = some b) :
    (b.tables ≠ [] → Tiled (b.start + 1) b.stop b.segments) ∧
      List.Forall₂ (fun t segment => segment.1 ≤ t.start ∧ t.stop ≤ segment.2) b.tables
        b.segments := by
  obtain ⟨hordered, htables⟩ := tables_of_parseBlock d b h
  have hstart : ∀ t ∈ b.tables, b.start + 1 ≤ t.start := fun t ht => (htables t ht).2.1
  have hstop : ∀ t ∈ b.tables, t.stop ≤ b.stop := fun t ht => (htables t ht).2.2
  have hlength : ∀ t ∈ b.tables, t.start < t.stop := by
    intro t ht
    obtain ⟨⟨first, -, -, hopen, hname⟩, -, ⟨last, -, -, hend, hafter⟩⟩ := (htables t ht).1
    unfold Token.stop at hname hafter
    omega
  exact ⟨fun hne => tiled_segmentsFrom _ _ _ hne hstart hstop hlength hordered,
    covers_segmentsFrom _ _ _ hstart hstop hordered⟩

/-- Without replacements all segments keep their bytes. -/
theorem patchedSegments_none (d : Bytes) (segments : List (Nat × Nat)) (rs : List (Option Text))
    (hlen : rs.length = segments.length) (hnone : ∀ r ∈ rs, r = none) :
    segments.zipWith (Block.patchedSegment d) rs = segments.map fun r => slice d r.1 r.2 := by
  induction segments generalizing rs with
  | nil => rfl
  | cons segment segments ih =>
    cases rs with
    | nil => simp at hlen
    | cons r rs =>
      obtain rfl := hnone r List.mem_cons_self
      rw [List.zipWith_cons_cons, List.map_cons,
        ih rs (by simpa using hlen) (fun x hx => hnone x (List.mem_cons_of_mem _ hx))]
      rfl

theorem patchedBytes_none (d : Bytes) (b : Block) (h : (parseBlock d).value = some b)
    (rs : List (Option Text)) (hlen : rs.length = b.tables.length) (hnone : ∀ r ∈ rs, r = none) :
    b.patchedBytes d rs = d := by
  have hinside : b.patchedInside d rs = slice d (b.start + 1) b.stop := by
    unfold Block.patchedInside
    split
    · rfl
    · next hne =>
      have hcount : rs.length = b.segments.length := by
        rw [hlen, Block.segments, Block.length_segmentsFrom]
      rw [patchedSegments_none d _ rs hcount hnone, flatten_slices d (b.start + 1) b.stop]
      exact (segments_of_parseBlock d b h).1 (by simpa using hne)
  obtain ⟨-, -, hlt, -⟩ := braces_of_parseBlock d b h
  rw [Block.patchedBytes, hinside, take_slice_drop d _ _ hlt]

/-- Each segment holds the opening bracket and the closing parenthesis of its table. -/
theorem brackets_in_segments (d : Bytes) (b : Block) (h : (parseBlock d).value = some b) :
    List.Forall₂ (fun t segment => ∃ close, t.ClosesWith d close ∧ d[t.start]? = some 0x5B ∧
      segment.1 ≤ t.start ∧ t.start < close.offset ∧ close.offset < segment.2) b.tables
      b.segments := by
  have hbrackets : ∀ t ∈ b.tables, ∃ close, t.ClosesWith d close ∧ d[t.start]? = some 0x5B ∧
      t.start < close.offset := by
    intro t ht
    obtain ⟨close, hclose⟩ := closesWith_of_parseBlock d b h t ht
    obtain ⟨⟨first, hmem, hkind, hstart, hname⟩, -, -⟩ := ((tables_of_parseBlock d b h).2 t ht).1
    have hbehind := hclose.behind_name
    unfold Token.stop at hname
    refine ⟨close, hclose, ?_, by omega⟩
    rw [← hstart]
    exact getElem?_of_mark d first 0x5B hmem (by rw [hkind]; decide)
  have hboth := (List.forall₂_and_left _ _).mpr ⟨hbrackets, (segments_of_parseBlock d b h).2⟩
  refine hboth.imp ?_
  rintro t segment ⟨⟨close, hclose, hopen, hlt⟩, hstart, hstop⟩
  exact ⟨close, hclose, hopen, hstart, hlt, Nat.lt_of_lt_of_le hclose.within hstop⟩

/-- Patching wants one replacement for each table, and then it always gives a text. The segments tile
the inside of the block, and each holds the brackets of its table. Patching keeps the bytes up to the
opening brace and from the closing one on, and each segment without a replacement. -/
theorem patch_exact (s : Text) (b : Block) (h : (parseBlock (encode s)).value = some b)
    (rs : List (Option Text)) :
    (patch s b rs = .error (.replacementCount b.tables.length rs.length) ↔
      rs.length ≠ b.tables.length) ∧
    (rs.length = b.tables.length → ∃ text inside, patch s b rs = .ok text ∧
      encode text = (encode s).take (b.start + 1) ++ inside ++ (encode s).drop b.stop ∧
      (b.tables = [] → inside = slice (encode s) (b.start + 1) b.stop) ∧
      (b.tables ≠ [] → inside = (b.segments.zipWith (fun segment r =>
        (r.map encode).getD (slice (encode s) segment.1 segment.2)) rs).flatten) ∧
      ((∀ r ∈ rs, r = none) → text = s)) ∧
    (b.tables ≠ [] → Tiled (b.start + 1) b.stop b.segments) ∧
    List.Forall₂ (fun t segment => ∃ close, t.ClosesWith (encode s) close ∧
      (encode s)[t.start]? = some 0x5B ∧ segment.1 ≤ t.start ∧ t.start < close.offset ∧
      close.offset < segment.2) b.tables b.segments := by
  refine ⟨⟨?_, ?_⟩, ?_, (segments_of_parseBlock _ b h).1, brackets_in_segments _ b h⟩
  · intro herror hlen
    obtain ⟨text, htext, -⟩ := patch_ok s b h rs hlen
    rw [htext] at herror
    simp at herror
  · intro hlen
    rw [patch, if_neg hlen]
  · intro hlen
    obtain ⟨text, htext, hbytes⟩ := patch_ok s b h rs hlen
    refine ⟨text, b.patchedInside (encode s) rs, htext, hbytes, ?_, ?_, ?_⟩
    · intro hnil
      rw [Block.patchedInside, hnil, List.isEmpty_nil, if_pos rfl]
    · intro hne
      rw [Block.patchedInside, if_neg (by simpa using hne)]
      congr 2
      funext segment r
      cases r with
      | none => rfl
      | some t => rfl
    · intro hnone
      refine encode_injective text s ?_
      rw [hbytes, patchedBytes_none _ b h rs hlen hnone]

/-- Characters outside ASCII at every cut, an entry that is no table, and a comment in front of a
comma. -/
def multibyteSource : Text :=
  "é const T PROGMEM K[][R][C] = \x7bé[0], [A] = LAYOUT(X)// é\n,é[B] = LAYOUT(_)é\x7dé".toList

def multibyteBlock : Block :=
  ⟨31, 80, [⟨⟨.ident, 40, [0x41]⟩, [['X']], 39, 61⟩, ⟨⟨.ident, 64, [0x42]⟩, [[]], 63, 78⟩], 1⟩

theorem parseBlock_multibyte : (parseBlock (encode multibyteSource)).value = some multibyteBlock := by
  decide +kernel

theorem patch_exact_multibyte : (parseBlock (encode multibyteSource)).value = some multibyteBlock ∧
    patch multibyteSource multibyteBlock [none] = .error (.replacementCount 2 1) ∧
    (∃ text, patch multibyteSource multibyteBlock [some ['ö'], none] = .ok text ∧
      encode text = (encode multibyteSource).take 32 ++
        (encode ['ö'] ++ slice (encode multibyteSource) 61 80) ++ (encode multibyteSource).drop 80) ∧
    patch multibyteSource multibyteBlock [none, none] = .ok multibyteSource ∧
    Tiled 32 80 [(32, 61), (61, 80)] := by
  have hexact := patch_exact multibyteSource multibyteBlock parseBlock_multibyte
  obtain ⟨hcount, -, htiled, -⟩ := hexact [none]
  obtain ⟨text, inside, htext, hbytes, -, hinside, -⟩ := (hexact [some ['ö'], none]).2.1 rfl
  obtain ⟨same, -, hsame, -, -, -, hkept⟩ := (hexact [none, none]).2.1 rfl
  refine ⟨parseBlock_multibyte, hcount.mpr (by decide), ⟨text, htext, ?_⟩, ?_, htiled (by decide)⟩
  · rw [hbytes, hinside (by decide)]
    rfl
  · rw [hsame, hkept (by decide)]

end KeyTables
