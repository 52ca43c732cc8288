import KeyTables.Token.Basic

/-! The keymaps block of a source and its key tables, with the byte offsets that patching needs. -/
namespace KeyTables
set_option autoImplicit false

/-- One entry `[NAME] = LAYOUT(...)`. It starts at its opening bracket and stops after its closing
parenthesis, or after the comma that follows it. -/
structure KeyTable where
  name : Token
  /-- The keys in order; an unassigned key is empty. -/
  keys : List Text
  start : Nat
  stop : Nat
  deriving DecidableEq

/-- The braces around all key tables: `start` is the offset of the opening one, `stop` that of the
closing one. -/
structure Block where
  start : Nat
  stop : Nat
  tables : List KeyTable
  /-- The number of bracketed entries that are no key tables. -/
  unparsed : Nat
  deriving DecidableEq

end KeyTables
