import KeyTables.Text.Utf8

/-! Tokens of a keymap source. A token is known by its kind, the offset of its first byte and the
bytes it covers; its text is read off these bytes, so no offset depends on how they decode. -/
namespace KeyTables
set_option autoImplicit false

namespace Token

inductive Kind where
  | lparen | rparen | lbracket | rbracket | lbrace | rbrace | comma | equals
  /-- A word that is neither reserved nor made of underscores, or a byte that starts nothing else. -/
  | ident
  /-- A word of underscores only: the place of a key that is not assigned. -/
  | blank
  | layout | const | progmem
  /-- Two slashes and the rest of the line. -/
  | comment
  /-- The end of the source. -/
  | eof
  deriving DecidableEq

def Kind.all : List Kind :=
  [.lparen, .rparen, .lbracket, .rbracket, .lbrace, .rbrace, .comma, .equals, .ident, .blank,
   .layout, .const, .progmem, .comment, .eof]

/-- The name of a kind in messages. -/
def Kind.label : Kind → String
  | .lparen => "LPAREN"
  | .rparen => "RPAREN"
  | .lbracket => "LBRACKET"
  | .rbracket => "RBRACKET"
  | .lbrace => "LBRACE"
  | .rbrace => "RBRACE"
  | .comma => "COMMA"
  | .equals => "EQUALS"
  | .ident => "IDENT"
  | .blank => "BLANK"
  | .layout => "LAYOUT"
  | .const => "CONST"
  | .progmem => "PROGMEM"
  | .comment => "COMMENT"
  | .eof => "EOF"

end Token

structure Token where
  kind : Token.Kind
  offset : Nat
  lexeme : Bytes
  deriving DecidableEq

namespace Token

def text (t : Token) : Text :=
  decodeLossy t.lexeme

/-- The offset of the first byte after the token. -/
def stop (t : Token) : Nat :=
  t.offset + t.lexeme.length

/-- The token that ends a source of `size` bytes. -/
def ending (size : Nat) : Token :=
  ⟨.eof, size, []⟩

end Token

end KeyTables
