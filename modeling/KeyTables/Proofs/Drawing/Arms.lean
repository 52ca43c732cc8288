import KeyTables.Proofs.Drawing.Picture

/-! The borders of a diagram join: whatever line a position draws towards its neighbour, the neighbour
draws towards it.

* `armsAt`: the lines that the character at a position draws.
* `arms_vertex`, `arms_edge`, `arms_separator`: a line is drawn between two places if and only if one
  of them holds a key.
* `borders_join`: hence no line ends in the open, and every key is framed. -/
namespace KeyTables
set_option autoImplicit false

namespace Glyph

def all : List Glyph :=
  [.topLeft, .topRight, .bottomLeft, .bottomRight, .horizontal, .vertical, .topTee, .bottomTee,
    .leftTee, .rightTee, .cross, .blank]

/-- The glyph that a character is. Any character that is no glyph draws no line, as the blank one. -/
def ofChar (c : Char) : Glyph :=
  (all.find? fun glyph => glyph.char == c).getD .blank

theorem ofChar_char (glyph : Glyph) : ofChar glyph.char = glyph := by
  cases glyph <;> decide

end Glyph

/-- The lines that are drawn at a position of a diagram, counted behind the lead. -/
def armsAt (lead : Text) (ls : List Text) (line col : Nat) : Glyph.Arms :=
  (Glyph.ofChar (charAt (picture lead ls line) col)).arms

/-! ## Glyphs and places -/

theorem Quadrants.arms_glyph (q : Quadrants) :
    q.glyph.arms = ⟨q.northWest || q.northEast, q.southWest || q.southEast,
      q.northWest || q.southWest, q.northEast || q.southEast⟩ := by
  rcases q with ⟨_ | _, _ | _, _ | _, _ | _⟩ <;> rfl

namespace Grid

section
variable (g : Grid) (row col : Int)

theorem arms_vertex : (g.vertex row col).arms =
    ⟨g.occupied (row - 1) (col - 1) || g.occupied (row - 1) col,
      g.occupied row (col - 1) || g.occupied row col,
      g.occupied (row - 1) (col - 1) || g.occupied row (col - 1),
      g.occupied (row - 1) col || g.occupied row col⟩ :=
  Quadrants.arms_glyph _

theorem arms_edge : (g.edge row col).arms =
    ⟨false, false, g.occupied (row - 1) col || g.occupied row col,
      g.occupied (row - 1) col || g.occupied row col⟩ := by
  rw [edge]
  cases g.occupied (row - 1) col || g.occupied row col <;> rfl

theorem arms_separator : (g.separator row col).arms =
    ⟨g.occupied row (col - 1) || g.occupied row col,
      g.occupied row (col - 1) || g.occupied row col, false, false⟩ := by
  rw [separator]
  cases g.occupied row (col - 1) || g.occupied row col <;> rfl

end

end Grid

/-! ## Positions -/

theorem armsAt_outside (lead : Text) (ls : List Text) (line col : Nat) (h : ls.length ≤ line) :
    armsAt lead ls line col = Glyph.blank.arms := by
  rw [armsAt, picture, List.getElem?_eq_none h, Option.getD_none, List.drop_nil,
    charAt_of_le [] col (Nat.zero_le _)]
  rfl

section
variable (g : Grid) (keys : List Text) (lead : Text) (d : Drawing)
  (h : draw g keys lead = .ok d)
include h

theorem armsAt_corner (row : Nat) (hline : 2 * row < d.diagram.length) (col : Nat) :
    armsAt lead d.diagram (2 * row) (col * (keyWidth keys + 3)) = (g.vertex row col).arms := by
  rw [armsAt, (border_picture g keys lead d h row hline col).1, Glyph.ofChar_char]

theorem armsAt_edge (row : Nat) (hline : 2 * row < d.diagram.length) (col k : Nat)
    (hk : k < keyWidth keys + 2) :
    armsAt lead d.diagram (2 * row) (col * (keyWidth keys + 3) + (k + 1)) =
      (g.edge row col).arms := by
  rw [armsAt, charAt_picture g keys lead d h (2 * row) hline col (k + 1) (by omega), g.cellAt_even,
    Grid.borderCell, charAt_cons_succ, charAt_replicate, if_pos (by omega), Glyph.ofChar_char]

theorem armsAt_separator (row : Nat) (hline : 2 * row + 1 < d.diagram.length) (col : Nat) :
    armsAt lead d.diagram (2 * row + 1) (col * (keyWidth keys + 3)) =
      (g.separator row col).arms := by
  rw [armsAt, (key_picture g keys lead d h row hline col).1, Glyph.ofChar_char]

/-- Each position of a border line is a corner or lies on an edge. -/
theorem armsAt_border (row : Nat) (hline : 2 * row < d.diagram.length) (i : Nat) :
    ∃ col, i = col * (keyWidth keys + 3) ∧
        armsAt lead d.diagram (2 * row) i = (g.vertex row col).arms ∨
      ∃ k < keyWidth keys + 2, i = col * (keyWidth keys + 3) + (k + 1) ∧
        armsAt lead d.diagram (2 * row) i = (g.edge row col).arms := by
  obtain ⟨col, k, hk, rfl⟩ := exists_column (keyWidth keys + 3) i (Nat.succ_pos _)
  refine ⟨col, ?_⟩
  cases k with
  | zero => exact Or.inl ⟨rfl, armsAt_corner g keys lead d h row hline col⟩
  | succ k =>
    have hlt : k < keyWidth keys + 2 := by omega
    exact Or.inr ⟨k, hlt, rfl, armsAt_edge g keys lead d h row hline col k hlt⟩

theorem joined_across (row : Nat) (hline : 2 * row < d.diagram.length) (i : Nat) :
    (armsAt lead d.diagram (2 * row) i).right = (armsAt lead d.diagram (2 * row) (i + 1)).left := by
  obtain ⟨col, ⟨rfl, harms⟩ | ⟨k, hk, rfl, harms⟩⟩ := armsAt_border g keys lead d h row hline i
  · -- a corner and the edge on its right
    rw [harms, armsAt_edge g keys lead d h row hline col 0 (Nat.succ_pos _), g.arms_vertex,
      g.arms_edge]
  · by_cases hlast : k + 1 < keyWidth keys + 2
    · rw [harms, Nat.add_assoc _ (k + 1) 1, armsAt_edge g keys lead d h row hline col (k + 1) hlast,
        g.arms_edge]
    · -- the end of an edge and the corner on its right
      have hnext : col * (keyWidth keys + 3) + (k + 1) + 1 = (col + 1) * (keyWidth keys + 3) := by
        rw [Nat.succ_mul]
        omega
      rw [harms, hnext, armsAt_corner g keys lead d h row hline (col + 1), g.arms_vertex,
        g.arms_edge, show ((col + 1 : Nat) : Int) - 1 = col by omega]

theorem joined_down (line : Nat) (hline : line + 1 < d.diagram.length) (col : Nat) :
    (armsAt lead d.diagram line (col * (keyWidth keys + 3))).down =
      (armsAt lead d.diagram (line + 1) (col * (keyWidth keys + 3))).up := by
  rcases Nat.mod_two_eq_zero_or_one line with heven | hodd
  · obtain ⟨row, rfl⟩ : ∃ row, line = 2 * row := ⟨line / 2, by omega⟩
    rw [armsAt_corner g keys lead d h row (by omega), armsAt_separator g keys lead d h row hline,
      g.arms_vertex, g.arms_separator]
  · obtain ⟨row, rfl⟩ : ∃ row, line = 2 * row + 1 := ⟨line / 2, by omega⟩
    rw [armsAt_separator g keys lead d h row (by omega), show 2 * row + 1 + 1 = 2 * (row + 1) by omega,
      armsAt_corner g keys lead d h (row + 1) (by omega), g.arms_vertex, g.arms_separator,
      show ((row + 1 : Nat) : Int) - 1 = row by omega]

theorem open_top (i : Nat) : (armsAt lead d.diagram 0 i).up = false := by
  by_cases hempty : d.diagram.length = 0
  · rw [armsAt_outside lead _ 0 i (by omega)]
    rfl
  · obtain ⟨col, ⟨-, harms⟩ | ⟨k, -, -, harms⟩⟩ := armsAt_border g keys lead d h 0 (by omega) i
    · rw [harms, g.arms_vertex, g.occupied_of_neg _ _ (Or.inl (by omega)),
        g.occupied_of_neg _ _ (Or.inl (by omega))]
      rfl
    · rw [harms, g.arms_edge]

theorem open_bottom (i : Nat) :
    (armsAt lead d.diagram (d.diagram.length - 1) i).down = false := by
  have hlen := length_diagram g keys _ _ lead (draw_ok g keys lead d h).2.1
  by_cases hempty : d.diagram.length = 0
  · rw [armsAt_outside lead _ _ i (by omega)]
    rfl
  · have hlast : d.diagram.length - 1 = 2 * g.length := by
      split at hlen <;> omega
    have hbelow : ∀ col : Int, g.occupied g.length col = false := fun col =>
      g.occupied_outside _ col fun r c hr _ => by
        rw [g.rowAt_of_le r (by omega)]
        exact Nat.zero_le c
    rw [hlast]
    obtain ⟨col, ⟨-, harms⟩ | ⟨k, -, -, harms⟩⟩ :=
      armsAt_border g keys lead d h g.length (by omega) i
    · rw [harms, g.arms_vertex, hbelow, hbelow]
      rfl
    · rw [harms, g.arms_edge]

theorem open_left (line : Nat) : (armsAt lead d.diagram line 0).left = false := by
  have hzero : 0 = 0 * (keyWidth keys + 3) := (Nat.zero_mul _).symm
  have hbefore : ∀ row : Int, g.occupied row ((0 : Nat) - 1) = false := fun row =>
    g.occupied_of_neg row _ (Or.inr (by omega))
  by_cases hline : line < d.diagram.length
  · rw [hzero]
    rcases Nat.mod_two_eq_zero_or_one line with heven | hodd
    · obtain ⟨row, rfl⟩ : ∃ row, line = 2 * row := ⟨line / 2, by omega⟩
      rw [armsAt_corner g keys lead d h row hline, g.arms_vertex, hbefore, hbefore]
      rfl
    · obtain ⟨row, rfl⟩ : ∃ row, line = 2 * row + 1 := ⟨line / 2, by omega⟩
      rw [armsAt_separator g keys lead d h row hline, g.arms_separator]
  · rw [armsAt_outside lead _ line 0 (by omega)]
    rfl

end

/-! ## All borders -/

/-- In a diagram of keys that take `width` columns the lines join: across on border lines, and down in
the columns of the corners. None leaves the diagram. -/
structure BordersJoin (lead : Text) (ls : List Text) (width : Nat) : Prop where
  across : ∀ row col, 2 * row < ls.length →
    (armsAt lead ls (2 * row) col).right = (armsAt lead ls (2 * row) (col + 1)).left
  down : ∀ line col, line + 1 < ls.length →
    (armsAt lead ls line (col * (width + 3))).down =
      (armsAt lead ls (line + 1) (col * (width + 3))).up
  top : ∀ col, (armsAt lead ls 0 col).up = false
  bottom : ∀ col, (armsAt lead ls (ls.length - 1) col).down = false
  left : ∀ line, (armsAt lead ls line 0).left = false

/-- The place is framed: an edge runs on top of it and below it, and a separator stands on its left
and on its right. -/
def IsFramed (lead : Text) (ls : List Text) (width row col : Nat) : Prop :=
  (armsAt lead ls (2 * row) (col * (width + 3) + 1)).left = true ∧
    (armsAt lead ls (2 * (row + 1)) (col * (width + 3) + 1)).left = true ∧
    (armsAt lead ls (2 * row + 1) (col * (width + 3))).up = true ∧
    (armsAt lead ls (2 * row + 1) ((col + 1) * (width + 3))).up = true

theorem framed_of_occupied (g : Grid) (keys : List Text) (lead : Text) (d : Drawing)
    (h : draw g keys lead = .ok d) (row col : Nat) (hocc : g.occupied row col = true) :
    IsFramed lead d.diagram (keyWidth keys) row col := by
  have hrow := g.row_lt_of_occupied row col hocc
  have hlen := length_drawn g keys lead d h (by omega)
  have htop := armsAt_edge g keys lead d h row (by omega) col 0 (Nat.succ_pos _)
  have hbottom := armsAt_edge g keys lead d h (row + 1) (by omega) col 0 (Nat.succ_pos _)
  have hleft := armsAt_separator g keys lead d h row (by omega) col
  have hright := armsAt_separator g keys lead d h row (by omega) (col + 1)
  rw [g.arms_edge, hocc, Bool.or_true] at htop
  rw [g.arms_edge, show ((row + 1 : Nat) : Int) - 1 = row by omega, hocc, Bool.true_or] at hbottom
  rw [g.arms_separator, hocc, Bool.or_true] at hleft
  rw [g.arms_separator, show ((col + 1 : Nat) : Int) - 1 = col by omega, hocc, Bool.true_or] at hright
  exact ⟨by rw [htop], by rw [hbottom], by rw [hleft], by rw [hright]⟩

/-- A table with as many keys as the grid is drawn, the lines of its diagram join, and every key is
framed. -/
theorem borders_join (g : Grid) (keys : List Text) (lead : Text)
    (hcount : g.keyCount = keys.length) :
    ∃ d, draw g keys lead = .ok d ∧ BordersJoin lead d.diagram (keyWidth keys) ∧
      ∀ row col : Nat, g.occupied row col = true →
        IsFramed lead d.diagram (keyWidth keys) row col := by
  obtain ⟨d, hd⟩ := draw_of_count g keys lead hcount
  have hjoin : BordersJoin lead d.diagram (keyWidth keys) := {
    across := fun row col hline => joined_across g keys lead d hd row hline col
    down := fun line col hline => joined_down g keys lead d hd line hline col
    top := open_top g keys lead d hd
    bottom := open_bottom g keys lead d hd
    left := open_left g keys lead d hd }
  exact ⟨d, hd, hjoin, framed_of_occupied g keys lead d hd⟩

/-- Two keys that only touch across a corner. -/
theorem borders_join_diagonal : ∃ d,
    draw [[.blank, .key], [.key]] [['A'], ['─']] ['/', '/'] = .ok d ∧
      BordersJoin ['/', '/'] d.diagram 1 ∧ IsFramed ['/', '/'] d.diagram 1 0 1 ∧
      IsFramed ['/', '/'] d.diagram 1 1 0 := by
  obtain ⟨d, hd, hjoin, hframed⟩ :=
    borders_join [[.blank, .key], [.key]] [['A'], ['─']] ['/', '/'] (by decide)
  exact ⟨d, hd, hjoin, hframed 0 1 (by decide), hframed 1 0 (by decide)⟩

end KeyTables
