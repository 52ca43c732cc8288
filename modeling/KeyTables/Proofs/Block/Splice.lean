import KeyTables.Block.Patch
import KeyTables.Proofs.Block.Layout

/-! Patching a layout.

* `spliced`: the text between the braces with some segments replaced.
* `stretches`, `slices_tiles`: the text that each segment of a block holds.
* `patchedSegments_layout`, `patch_layout`: patching a source replaces the segments of its layout. -/
namespace KeyTables
set_option autoImplicit false

/-- What follows the last table is replaced together with it. -/
def spliced (tail : Text) : List Segment → List (Option Text) → Text
  | p :: q :: ps, r :: rs => r.getD p.text ++ spliced tail (q :: ps) rs
  | [p], r :: _ => r.getD (p.text ++ tail)
  | _, _ => tail

theorem length_tiles (o : Nat) (ps : List Segment) (tables : List KeyTable)
    (h : Tiles o ps tables) : tables.length = ps.length := by
  induction ps generalizing o tables with
  | nil =>
    rw [show tables = [] from h]
    rfl
  | cons p ps ih =>
    obtain ⟨table, rest, rfl, -, hrest⟩ := h
    rw [List.length_cons, ih _ rest hrest, List.length_cons]

/-- The segment of a table. It starts in front of the table. -/
theorem tiles_at (o k : Nat) (ps : List Segment) (tables : List KeyTable) (t : KeyTable)
    (h : Tiles o ps tables) (hk : tables[k]? = some t) (hstart : ∀ u ∈ tables, o ≤ u.start)
    (hordered : tables.Pairwise fun u v => u.stop ≤ v.start) :
    ∃ before p after, ps = before ++ p :: after ∧ before.length = k ∧
      p.Holds (o + (encode (joined before)).length) t ∧
      o + (encode (joined before)).length ≤ t.start ∧
      Tiles (o + (encode (joined before)).length + (encode p.text).length) after
        (tables.drop (k + 1)) := by
  induction ps generalizing o k tables with
  | nil =>
    rw [show tables = [] from h] at hk
    simp at hk
  | cons p ps ih =>
    obtain ⟨table, rest, rfl, hholds, hrest⟩ := h
    obtain ⟨hfirst, hordered⟩ := List.pairwise_cons.mp hordered
    cases k with
    | zero =>
      obtain rfl := Option.some.inj hk
      exact ⟨[], p, ps, rfl, rfl, hholds, hstart table List.mem_cons_self, hrest⟩
    | succ k =>
      have hbehind : ∀ u ∈ rest, o + (encode p.text).length ≤ u.start := by
        intro u hu
        rw [← hholds.2.2]
        exact hfirst u hu
      obtain ⟨before, p', after, rfl, rfl, hp', hle, htiles⟩ := ih _ k rest hrest hk hbehind hordered
      refine ⟨p :: before, p', after, rfl, rfl, ?_⟩
      rw [joined_cons, encode_append, List.length_append, ← Nat.add_assoc]
      exact ⟨hp', hle, htiles⟩

/-- The segments with the text that is replaced together with each of them. -/
def stretches (tail : Text) : List Segment → List (Segment × Text)
  | [] => []
  | [p] => [(p, p.text ++ tail)]
  | p :: q :: ps => (p, p.text) :: stretches tail (q :: ps)

theorem map_stretches {α : Type} (tail : Text) (f : Segment → α) (ps : List Segment) :
    ((stretches tail ps).map fun x => f x.1) = ps.map f := by
  fun_induction stretches tail ps with
  | case1 => rfl
  | case2 p => rfl
  | case3 p q ps ih => simp [ih]

theorem stretches_append (tail : Text) (ps : List Segment) (q : Segment) (qs : List Segment) :
    stretches tail (ps ++ q :: qs) = ps.map (fun p => (p, p.text)) ++ stretches tail (q :: qs) := by
  induction ps with
  | nil => rfl
  | cons p ps ih =>
    obtain ⟨u, us, hu⟩ := List.exists_cons_of_ne_nil
      (List.append_ne_nil_of_right_ne_nil ps (List.cons_ne_nil q qs))
    rw [List.cons_append, hu, stretches, ← hu, ih, List.map_cons, List.cons_append]

theorem spliced_stretches (tail : Text) (p : Segment) (ps : List Segment) (rs : List (Option Text))
    (h : rs.length = (p :: ps).length) :
    spliced tail (p :: ps) rs =
      ((stretches tail (p :: ps)).zipWith (fun x r => r.getD x.2) rs).flatten := by
  induction ps generalizing p rs with
  | nil =>
    obtain ⟨r, rfl⟩ := List.length_eq_one_iff.mp h
    simp [spliced, stretches]
  | cons q ps ih =>
    cases rs with
    | nil => simp at h
    | cons r rs =>
      rw [spliced, ih q rs (by simpa using h), stretches, List.zipWith_cons_cons, List.flatten_cons]

/-- Each segment of a block holds its stretch. -/
theorem slices_tiles (a c : Bytes) (tail : Text) (ps : List Segment) (tables : List KeyTable)
    (h : Tiles a.length ps tables) :
    ((Block.segmentsFrom a.length (a.length + (encode (joined ps ++ tail)).length) tables).map
      fun r => slice (a ++ (encode (joined ps ++ tail) ++ c)) r.1 r.2) =
      (stretches tail ps).map fun x => encode x.2 := by
  fun_induction stretches tail ps generalizing a tables with
  | case1 =>
    rw [show tables = [] from h]
    rfl
  | case2 p =>
    obtain ⟨table, rest, rfl, -, hrest⟩ := h
    rw [show rest = [] from hrest, Block.segmentsFrom, List.map_singleton, slice_middle]
    simp
  | case3 p q ps ih =>
    obtain ⟨table, rest, rfl, hholds, hrest⟩ := h
    obtain ⟨table', rest', rfl, -, -⟩ := id hrest
    have hstop : table.stop = (a ++ encode p.text).length := by
      rw [hholds.2.2, List.length_append]
    have hend : a.length + (encode (joined (p :: q :: ps) ++ tail)).length =
        (a ++ encode p.text).length + (encode (joined (q :: ps) ++ tail)).length := by
      simp only [joined_cons, encode_append, List.length_append]
      omega
    have hfirst : slice (a ++ (encode (joined (p :: q :: ps) ++ tail) ++ c)) a.length
        (a ++ encode p.text).length = encode p.text := by
      rw [joined_cons, List.append_assoc, encode_append, List.append_assoc, List.length_append,
        slice_middle]
    have hd : a ++ (encode (joined (p :: q :: ps) ++ tail) ++ c) =
        (a ++ encode p.text) ++ (encode (joined (q :: ps) ++ tail) ++ c) := by
      simp
    have hih := ih (a ++ encode p.text) (table' :: rest') (by
      rw [List.length_append]
      exact hrest)
    rw [Block.segmentsFrom, List.map_cons, hstop, hfirst, hend, hd, hih, List.map_cons]

/-! ## Patching -/

section
variable (l : Layout) (b : Block) (h : l.Frames b)
include h

theorem slices_layout : (b.segments.map fun r => slice (encode l.text) r.1 r.2) =
    (stretches l.tail l.segments).map fun x => encode x.2 := by
  rw [Block.segments, h.start, h.stop_eq, Layout.encode_text]
  exact slices_tiles _ _ l.tail l.segments b.tables h.tables

/-- Each segment of a block after patching. -/
theorem patchedSegments_layout (rs : List (Option Text)) :
    b.segments.zipWith (Block.patchedSegment (encode l.text)) rs =
      (stretches l.tail l.segments).zipWith (fun x r => encode (r.getD x.2)) rs := by
  have hslices : b.segments.zipWith (Block.patchedSegment (encode l.text)) rs =
      (b.segments.map fun r => slice (encode l.text) r.1 r.2).zipWith
        (fun kept r => (r.map encode).getD kept) rs := by
    rw [List.zipWith_map_left]
    congr 1
    funext segment r
    cases r with
    | none => rfl
    | some t => rfl
  rw [hslices, slices_layout l b h, List.zipWith_map_left]
  congr 1
  funext x r
  cases r with
  | none => rfl
  | some t => rfl

variable (rs : List (Option Text)) (hlen : rs.length = l.segments.length)
include hlen

theorem patchedInside_layout :
    b.patchedInside (encode l.text) rs = encode (spliced l.tail l.segments rs) := by
  have hcount := length_tiles _ _ _ h.tables
  rw [Block.patchedInside, patchedSegments_layout l b h]
  cases hsegments : l.segments with
  | nil =>
    rw [hsegments] at hcount
    rw [List.eq_nil_of_length_eq_zero hcount, List.isEmpty_nil, if_pos rfl, h.start, h.stop_eq,
      Layout.encode_text, slice_middle]
    simp [hsegments, spliced]
  | cons p ps =>
    rw [hsegments] at hcount hlen
    have hne : b.tables.isEmpty = false := by
      rw [List.isEmpty_eq_false_iff]
      intro hnil
      simp [hnil] at hcount
    rw [hne, if_neg (by simp), spliced_stretches l.tail p ps rs hlen, encode_flatten,
      List.map_zipWith]

theorem patchedBytes_layout : b.patchedBytes (encode l.text) rs =
    encode (l.opening ++ (spliced l.tail l.segments rs ++ l.closing)) := by
  obtain ⟨hopening, hclosing⟩ := h.around
  rw [Block.patchedBytes, patchedInside_layout l b h rs hlen, hopening, hclosing,
    List.append_assoc, encode_append, encode_append]

end

theorem patch_layout (l : Layout) (b : Block) (h : l.Frames b) (rs : List (Option Text))
    (hlen : rs.length = l.segments.length) :
    patch l.text b rs = .ok (l.opening ++ (spliced l.tail l.segments rs ++ l.closing)) := by
  have hcount := length_tiles _ _ _ h.tables
  rw [patch, if_pos (by rw [hlen, hcount]), patchedBytes_layout l b h rs hlen, decode_encode]

end KeyTables
