import KeyTables.Text.Basic

/-! Lines of a text. A carriage return directly before a line feed makes one break with it; every
other break character makes a break of its own. The last line needs no break. -/
namespace KeyTables
set_option autoImplicit false

def breakRanges : List (Nat × Nat) :=
  [(0x000A, 0x000D), (0x001C, 0x001E), (0x0085, 0x0085), (0x2028, 0x2029)]

/-- Whether the character ends a line. -/
def isBreak (c : Char) : Bool :=
  inRanges breakRanges c.toNat

/-- A character in front of the first line. -/
def pushFirst (c : Char) : List Text → List Text
  | [] => [[c]]
  | line :: rest => (c :: line) :: rest

/-- The lines of a text, without their breaks. -/
def lines : Text → List Text
  | [] => []
  | '\r' :: '\n' :: t => [] :: lines t
  | c :: t => if isBreak c then [] :: lines t else pushFirst c (lines t)

/-- Every carriage return, with the line feed after it if there is one, becomes one line feed. -/
def unifyBreaks : Text → Text
  | [] => []
  | '\r' :: '\n' :: t => '\n' :: unifyBreaks t
  | '\r' :: t => '\n' :: unifyBreaks t
  | c :: t => c :: unifyBreaks t

/-- Whether a carriage return stands directly before a line feed somewhere. -/
def hasPairedBreak : Text → Bool
  | [] => false
  | '\r' :: '\n' :: _ => true
  | _ :: t => hasPairedBreak t

/-- The break that new lines of a text are given: the paired one as soon as it occurs. -/
def breakOf (t : Text) : Text :=
  if hasPairedBreak t then ['\r', '\n'] else ['\n']

example : lines ['a', '\r', '\n', '\n', 'b', '\x0c'] = [['a'], [], ['b']] := by decide

end KeyTables
