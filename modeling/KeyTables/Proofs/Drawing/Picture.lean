import KeyTables.Proofs.Drawing.Cells
import KeyTables.Proofs.Drawing.Diagram

/-! What a diagram shows at each position.

* `charAt_picture`: a position of a drawn line reads the cell that it lies in.
* `border_picture`, `key_picture`: what a border line and a key line show in a column.
* `PicturesGrid`, `picture_exact`: hence the corners, edges, separators and keys stand at their
  positions. -/
namespace KeyTables
set_option autoImplicit false

/-- A line of a diagram behind the lead. -/
def picture (lead : Text) (ls : List Text) (line : Nat) : Text :=
  (ls[line]?.getD []).drop lead.length

/-! ## Positions -/

theorem le_keyWidth (keys : List Text) (k : Text) (h : k ∈ keys) : k.length ≤ keyWidth keys := by
  induction keys with
  | nil => simp at h
  | cons k' keys ih =>
    rw [keyWidth, List.foldr_cons]
    rcases List.mem_cons.mp h with rfl | h
    · exact Nat.le_max_left _ _
    · exact Nat.le_trans (ih h) (Nat.le_max_right _ _)

theorem Glyph.ink_of_ne (glyph : Glyph) (h : glyph.char ≠ ' ') : isBlank glyph.char = false := by
  cases glyph with
  | blank => exact absurd rfl h
  | _ => decide

namespace Grid

theorem exists_beyond (g : Grid) (col : Nat) :
    ∃ n, col < n ∧ ∀ row, (g.rowAt row).length < n := by
  induction g with
  | nil => exact ⟨col + 1, Nat.lt_succ_self col, fun row => Nat.succ_pos col⟩
  | cons marks g ih =>
    obtain ⟨n, hcol, hn⟩ := ih
    refine ⟨max n (marks.length + 1), Nat.lt_of_lt_of_le hcol (Nat.le_max_left _ _), ?_⟩
    intro row
    cases row with
    | zero => exact Nat.lt_of_lt_of_le (Nat.lt_succ_self _) (Nat.le_max_right _ _)
    | succ row => exact Nat.lt_of_lt_of_le (hn row) (Nat.le_max_left _ _)

section
variable (g : Grid) (keys : List Text)

theorem length_labelAt (row col : Nat) : (g.labelAt keys row col).length ≤ keyWidth keys := by
  rw [labelAt]
  split
  · cases h : keys[g.rank row col]? with
    | none => exact Nat.zero_le _
    | some k => exact le_keyWidth keys k (List.mem_of_getElem? h)
  · exact Nat.zero_le _

theorem length_cellAt (line col : Nat) :
    (g.cellAt keys (keyWidth keys) line col).length = keyWidth keys + 3 := by
  rw [cellAt]
  split
  · rw [borderCell, List.length_cons, List.length_replicate]
    omega
  · have hlabel := g.length_labelAt keys (line / 2) col
    simp only [keyCell, List.length_cons, List.length_append, length_padEnd, List.length_nil,
      List.cons_append]
    omega

/-- What stands in a cell is not blank, or it belongs to a key. -/
theorem cellAt_ink (line col k : Nat)
    (h : charAt (g.cellAt keys (keyWidth keys) line col) k ≠ ' ') :
    isBlank (charAt (g.cellAt keys (keyWidth keys) line col) k) = false ∨
      line % 2 = 1 ∧ g.occupied (line / 2 : Nat) col = true := by
  rw [cellAt] at h ⊢
  split at h
  · next heven =>
    rw [if_pos heven]
    refine Or.inl ?_
    cases k with
    | zero => exact Glyph.ink_of_ne _ h
    | succ k =>
      rw [borderCell, charAt_cons_succ, charAt_replicate] at h ⊢
      split at h
      · next hk =>
        rw [if_pos hk]
        exact Glyph.ink_of_ne _ h
      · exact absurd rfl h
  · next hodd =>
    rw [if_neg hodd]
    cases k with
    | zero => exact Or.inl (Glyph.ink_of_ne _ h)
    | succ k =>
      refine Or.inr ⟨by omega, Decidable.byContradiction fun hocc => h ?_⟩
      rw [keyCell, List.cons_append, charAt_cons_succ]
      exact charAt_of_forall _ k (g.spaces_of_gap keys _ _ col (by simpa using hocc))

/-- A separator stands behind every key. -/
theorem anchored_cells (line n : Nat) (hn : ∀ row, (g.rowAt row).length < n) :
    Anchored (columns (g.cellAt keys (keyWidth keys) line) n) := by
  have hlen := g.length_cellAt keys line
  have hread := charAt_columns _ _ hlen n
  intro i hi
  have hpos : 0 < keyWidth keys + 3 := Nat.succ_pos _
  obtain ⟨col, k, hk, rfl⟩ := exists_column _ i hpos
  have hcoln : col < n := by
    refine Nat.lt_of_not_le fun hle => hi (charAt_of_le _ _ ?_)
    have := Nat.mul_le_mul_right (keyWidth keys + 3) hle
    rw [length_columns _ _ hlen]
    omega
  rw [hread col k hcoln hk] at hi
  rcases g.cellAt_ink keys line col k hi with hink | ⟨hodd, hocc⟩
  · refine ⟨_, Nat.le_refl _, ?_⟩
    rw [hread col k hcoln hk]
    exact hink
  · have hbehind : col + 1 < n :=
      Nat.lt_of_le_of_lt (g.col_lt_of_occupied _ col hocc) (hn (line / 2))
    refine ⟨(col + 1) * (keyWidth keys + 3) + 0, by rw [Nat.succ_mul]; omega, ?_⟩
    rw [hread (col + 1) 0 hbehind hpos, cellAt, if_neg (by omega)]
    change isBlank (g.separator (line / 2 : Nat) (col + 1 : Nat)).char = false
    rw [separator, show ((col + 1 : Nat) : Int) - 1 = col by omega, hocc, Bool.true_or]
    decide

end

end Grid

section
variable (g : Grid) (keys : List Text) (lead : Text) (d : Drawing)
  (h : draw g keys lead = .ok d)
include h

theorem length_drawn (hrows : 0 < g.length) : d.diagram.length = 2 * g.length + 1 := by
  rw [length_diagram g keys _ _ lead (draw_ok g keys lead d h).2.1, if_neg (by omega)]

/-- A position of a drawn line reads the cell that it lies in, also past the end of the line. -/
theorem charAt_picture (line : Nat) (hline : line < d.diagram.length) (col k : Nat)
    (hk : k < keyWidth keys + 3) :
    charAt (picture lead d.diagram line) (col * (keyWidth keys + 3) + k) =
      charAt (g.cellAt keys (keyWidth keys) line col) k := by
  obtain ⟨n, hcol, hn⟩ := g.exists_beyond col
  obtain ⟨-, hdiagram, -⟩ := draw_ok g keys lead d h
  rw [picture, diagram_line g keys _ _ lead hdiagram n hn line hline, Option.getD_some, charAt_drop,
    charAt_trimEnd lead _ (g.anchored_cells keys line n hn),
    charAt_columns _ _ (g.length_cellAt keys line) n col k hcol hk]

theorem window_picture (line : Nat) (hline : line < d.diagram.length) (col : Nat) (c : Char)
    (t : Text) (hcell : g.cellAt keys (keyWidth keys) line col = c :: t) :
    charAt (picture lead d.diagram line) (col * (keyWidth keys + 3)) = c ∧
      window (picture lead d.diagram line) (col * (keyWidth keys + 3) + 1) (keyWidth keys + 2) =
        t := by
  have hread := charAt_picture g keys lead d h line hline col
  have hlen := g.length_cellAt keys line col
  rw [hcell, List.length_cons] at hlen
  refine ⟨?_, ?_⟩
  · have hfirst := hread 0 (Nat.succ_pos _)
    rw [Nat.add_zero, hcell] at hfirst
    exact hfirst
  · have hrest : t.length = keyWidth keys + 2 := by omega
    rw [← hrest]
    refine window_eq _ _ _ fun k hk => ?_
    rw [Nat.add_assoc, Nat.add_comm 1 k, hread (k + 1) (by omega), hcell, charAt_cons_succ]

theorem border_picture (row : Nat) (hline : 2 * row < d.diagram.length) (col : Nat) :
    charAt (picture lead d.diagram (2 * row)) (col * (keyWidth keys + 3)) =
        (g.vertex row col).char ∧
      window (picture lead d.diagram (2 * row)) (col * (keyWidth keys + 3) + 1)
          (keyWidth keys + 2) = List.replicate (keyWidth keys + 2) (g.edge row col).char :=
  window_picture g keys lead d h (2 * row) hline col _ _ (by rw [g.cellAt_even]; rfl)

theorem key_picture (row : Nat) (hline : 2 * row + 1 < d.diagram.length) (col : Nat) :
    charAt (picture lead d.diagram (2 * row + 1)) (col * (keyWidth keys + 3)) =
        (g.separator row col).char ∧
      window (picture lead d.diagram (2 * row + 1)) (col * (keyWidth keys + 3) + 1)
          (keyWidth keys + 2) = ' ' :: padEnd (keyWidth keys) (g.labelAt keys row col) ++ [' '] :=
  window_picture g keys lead d h (2 * row + 1) hline col _ _ (by rw [g.cellAt_odd]; rfl)

end

/-! ## The picture of a grid -/

/-- The lines picture the grid with its keys: in every column, also beyond the ends of the rows, the
even lines show the corners and the edges, and the odd lines the separators and the keys in the order
of the places. -/
structure PicturesGrid (g : Grid) (keys : List Text) (lead : Text) (ls : List Text) : Prop where
  length_eq : ls.length = 2 * g.length + 1
  corner : ∀ row ≤ g.length, ∀ col : Nat,
    charAt (picture lead ls (2 * row)) (col * (keyWidth keys + 3)) = (g.vertex row col).char
  edge : ∀ row ≤ g.length, ∀ col : Nat,
    window (picture lead ls (2 * row)) (col * (keyWidth keys + 3) + 1) (keyWidth keys + 2) =
      List.replicate (keyWidth keys + 2) (g.edge row col).char
  separator : ∀ row < g.length, ∀ col : Nat,
    charAt (picture lead ls (2 * row + 1)) (col * (keyWidth keys + 3)) = (g.separator row col).char
  key : ∀ row < g.length, ∀ col : Nat, g.occupied row col = true →
    ∃ k, keys[g.rank row col]? = some k ∧
      window (picture lead ls (2 * row + 1)) (col * (keyWidth keys + 3) + 1) (keyWidth keys + 2) =
        ' ' :: padEnd (keyWidth keys) k ++ [' ']
  gap : ∀ row < g.length, ∀ col : Nat, g.occupied row col = false →
    window (picture lead ls (2 * row + 1)) (col * (keyWidth keys + 3) + 1) (keyWidth keys + 2) =
      List.replicate (keyWidth keys + 2) ' '

namespace Grid

theorem labelAt_key (g : Grid) (keys : List Text) (row col : Nat)
    (hcount : g.keyCount ≤ keys.length) (h : g.occupied row col = true) :
    keys[g.rank row col]? = some (g.labelAt keys row col) := by
  have hlt := Nat.lt_of_lt_of_le (g.rank_lt row col h) hcount
  rw [labelAt, if_pos h, List.getElem?_eq_getElem hlt, Option.getD_some]

theorem labelAt_gap (g : Grid) (keys : List Text) (row col : Nat)
    (h : g.occupied row col = false) :
    ' ' :: padEnd (keyWidth keys) (g.labelAt keys row col) ++ [' '] =
      List.replicate (keyWidth keys + 2) ' ' := by
  refine List.eq_replicate_iff.mpr ⟨?_, g.spaces_of_gap keys _ row col h⟩
  have hlabel := g.length_labelAt keys row col
  simp only [List.cons_append, List.length_cons, List.length_append, length_padEnd, List.length_nil]
  omega

end Grid

/-- A table with as many keys as the grid is drawn, and its diagram pictures the grid. -/
theorem picture_exact (g : Grid) (keys : List Text) (lead : Text) (hrows : g ≠ [])
    (hcount : g.keyCount = keys.length) :
    ∃ d, draw g keys lead = .ok d ∧ PicturesGrid g keys lead d.diagram := by
  obtain ⟨d, hd⟩ := draw_of_count g keys lead hcount
  have hlen := length_drawn g keys lead d hd (List.length_pos_iff.mpr hrows)
  exact ⟨d, hd, {
    length_eq := hlen
    corner := fun row hrow col => (border_picture g keys lead d hd row (by omega) col).1
    edge := fun row hrow col => (border_picture g keys lead d hd row (by omega) col).2
    separator := fun row hrow col => (key_picture g keys lead d hd row (by omega) col).1
    key := fun row hrow col hocc =>
      ⟨_, g.labelAt_key keys row col (Nat.le_of_eq hcount) hocc,
        (key_picture g keys lead d hd row (by omega) col).2⟩
    gap := fun row hrow col hocc =>
      (key_picture g keys lead d hd row (by omega) col).2.trans (g.labelAt_gap keys row col hocc) }⟩

/-- A gap in front of a key, and a row that is longer than the one above it: the border between the
two rows has all its arms at their corner, and the second key stands in the second column. -/
theorem picture_ragged : ∃ d, draw [[.key], [.blank, .key]] [['A'], ['B', 'C']] ['/', '/'] = .ok d ∧
    PicturesGrid [[.key], [.blank, .key]] [['A'], ['B', 'C']] ['/', '/'] d.diagram ∧
    charAt (picture ['/', '/'] d.diagram 2) 5 = '┼' ∧
    window (picture ['/', '/'] d.diagram 3) 6 4 = [' ', 'B', 'C', ' '] := by
  obtain ⟨d, hd, hpicture⟩ := picture_exact [[.key], [.blank, .key]] [['A'], ['B', 'C']] ['/', '/']
    (by decide) (by decide)
  obtain ⟨k, hk, hwindow⟩ := hpicture.key 1 (by decide) 1 (by decide)
  obtain rfl : ['B', 'C'] = k := Option.some.inj hk
  exact ⟨d, hd, hpicture, hpicture.corner 1 (by decide) 1, hwindow⟩

end KeyTables
