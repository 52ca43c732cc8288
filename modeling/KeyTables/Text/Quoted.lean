import KeyTables.Text.Printable

/-! Quoted texts, as messages show them. A text stands in single quotes, or in double quotes when it
holds a single quote and no double one. Backslashes, the quote in use, tabs and line breaks are
escaped by a letter, other characters that do not print by their hexadecimal code. -/
namespace KeyTables
set_option autoImplicit false

/-- The hexadecimal digits of `n`, with zeros in front up to `width` of them. -/
def hexDigits (width n : Nat) : Text :=
  let digits := Nat.toDigits 16 n
  List.replicate (width - digits.length) '0' ++ digits

/-- The code of a character, in the shortest of the three escape forms that holds it. -/
def escapeCode (c : Char) : Text :=
  let n := c.toNat
  if n ≤ 0xFF then '\\' :: 'x' :: hexDigits 2 n
  else if n ≤ 0xFFFF then '\\' :: 'u' :: hexDigits 4 n
  else '\\' :: 'U' :: hexDigits 8 n

/-- A character as it stands between quotes of the kind `quote`. -/
def escape (quote c : Char) : Text :=
  if c = '\\' ∨ c = quote then ['\\', c]
  else if c = '\t' then ['\\', 't']
  else if c = '\n' then ['\\', 'n']
  else if c = '\r' then ['\\', 'r']
  else if isPrintable c then [c]
  else escapeCode c

/-- Double quotes only where they spare an escape. -/
def quoteFor (t : Text) : Char :=
  if t.contains '\x27' && !t.contains '\x22' then '\x22' else '\x27'

def quoted (t : Text) : Text :=
  quoteFor t :: t.flatMap (escape (quoteFor t)) ++ [quoteFor t]

end KeyTables
