import KeyTables.Token.Lexer

/-! A cursor on the tokens of a source. It stands on a token and sees the next one; past the last
token it stands on the ending token for ever. -/
namespace KeyTables
set_option autoImplicit false

structure Cursor where
  /-- The tokens from the current one on, the ending one left out. -/
  ahead : List Token
  /-- The ending token. -/
  last : Token
  deriving DecidableEq

namespace Cursor

/-- On the first token of a source. -/
def start (source : Bytes) : Cursor :=
  ⟨tokensFrom 0 0 source, Token.ending source.length⟩

def curr (c : Cursor) : Token :=
  c.ahead.headD c.last

def next (c : Cursor) : Token :=
  c.ahead.tail.headD c.last

def advance (c : Cursor) : Cursor :=
  ⟨c.ahead.tail, c.last⟩

/-- On the ending token. -/
def exhausted (c : Cursor) : Cursor :=
  ⟨[], c.last⟩

/-- All tokens from the current one on, the ending one included. -/
def remaining (c : Cursor) : List Token :=
  c.ahead ++ [c.last]

theorem next_eq (c : Cursor) : c.next = c.advance.curr := rfl

end Cursor

end KeyTables
