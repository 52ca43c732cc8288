/-! The box-drawing glyphs and the arms that each of them reaches out. -/
namespace KeyTables
set_option autoImplicit false

inductive Glyph where
  | topLeft | topRight | bottomLeft | bottomRight
  | horizontal | vertical
  | topTee | bottomTee | leftTee | rightTee
  | cross
  | blank
  deriving DecidableEq

namespace Glyph

def char : Glyph → Char
  | .topLeft => '╭'
  | .topRight => '╮'
  | .bottomLeft => '╰'
  | .bottomRight => '╯'
  | .horizontal => '─'
  | .vertical => '│'
  | .topTee => '┬'
  | .bottomTee => '┴'
  | .leftTee => '├'
  | .rightTee => '┤'
  | .cross => '┼'
  | .blank => ' '

/-- The sides of its position that a glyph draws a line to. -/
structure Arms where
  up : Bool
  down : Bool
  left : Bool
  right : Bool
  deriving DecidableEq

def arms : Glyph → Arms
  | .topLeft => ⟨false, true, false, true⟩
  | .topRight => ⟨false, true, true, false⟩
  | .bottomLeft => ⟨true, false, false, true⟩
  | .bottomRight => ⟨true, false, true, false⟩
  | .horizontal => ⟨false, false, true, true⟩
  | .vertical => ⟨true, true, false, false⟩
  | .topTee => ⟨false, true, true, true⟩
  | .bottomTee => ⟨true, false, true, true⟩
  | .leftTee => ⟨true, true, false, true⟩
  | .rightTee => ⟨true, true, true, false⟩
  | .cross => ⟨true, true, true, true⟩
  | .blank => ⟨false, false, false, false⟩

end Glyph

end KeyTables
