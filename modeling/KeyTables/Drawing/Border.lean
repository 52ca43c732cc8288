import KeyTables.Drawing.Glyph
import KeyTables.Grid.Basic

/-! Borders between the places of a grid. A border is drawn wherever at least one of the two places
beside it holds a key, so the glyph at a corner depends only on which of the four places around the
corner hold one. -/
namespace KeyTables
set_option autoImplicit false

/-- Which of the four places around a corner hold a key. -/
structure Quadrants where
  northWest : Bool
  northEast : Bool
  southWest : Bool
  southEast : Bool
  deriving DecidableEq

namespace Quadrants

/-- The glyph that joins the borders around the corner. Three keys, four keys or two keys across the
corner draw all four borders. -/
def glyph : Quadrants → Glyph
  | ⟨false, false, false, false⟩ => .blank
  | ⟨false, false, false, true⟩ => .topLeft
  | ⟨false, false, true, false⟩ => .topRight
  | ⟨false, false, true, true⟩ => .topTee
  | ⟨false, true, false, false⟩ => .bottomLeft
  | ⟨true, false, false, false⟩ => .bottomRight
  | ⟨true, true, false, false⟩ => .bottomTee
  | ⟨false, true, false, true⟩ => .leftTee
  | ⟨true, false, true, false⟩ => .rightTee
  | _ => .cross

/-- The quadrants as a number, one binary digit for each. -/
def mask (q : Quadrants) : Nat :=
  q.northWest.toNat + 2 * q.northEast.toNat + 4 * q.southWest.toNat + 8 * q.southEast.toNat

/-- The quadrants that a number from 0 to 15 stands for. -/
def ofMask? (n : Int) : Option Quadrants :=
  if 0 ≤ n ∧ n < 16 then
    some ⟨n.toNat.testBit 0, n.toNat.testBit 1, n.toNat.testBit 2, n.toNat.testBit 3⟩
  else none

theorem ofMask?_mask (q : Quadrants) : ofMask? q.mask = some q := by
  rcases q with ⟨_ | _, _ | _, _ | _, _ | _⟩ <;> decide

/-- The table of corner glyphs, by the number of the quadrants. -/
def glyphOfMask? (n : Int) : Option Glyph :=
  (ofMask? n).map glyph

end Quadrants

namespace Grid

/-- The places around the corner at the top left of a place. -/
def quadrants (g : Grid) (row col : Int) : Quadrants where
  northWest := g.occupied (row - 1) (col - 1)
  northEast := g.occupied (row - 1) col
  southWest := g.occupied row (col - 1)
  southEast := g.occupied row col

/-- The glyph at the top left corner of a place. -/
def vertex (g : Grid) (row col : Int) : Glyph :=
  (g.quadrants row col).glyph

/-- The number of the quadrants is always in the table, and leads to the glyph of the corner. -/
theorem vertex_eq_glyphOfMask (g : Grid) (row col : Int) :
    Quadrants.glyphOfMask? (g.quadrants row col).mask = some (g.vertex row col) := by
  rw [Quadrants.glyphOfMask?, Quadrants.ofMask?_mask]
  rfl

/-- The glyph of the border on the left of a place. -/
def separator (g : Grid) (row col : Int) : Glyph :=
  if g.occupied row (col - 1) || g.occupied row col then .vertical else .blank

/-- The glyph of the border on top of a place. -/
def edge (g : Grid) (row col : Int) : Glyph :=
  if g.occupied (row - 1) col || g.occupied row col then .horizontal else .blank

end Grid

end KeyTables
