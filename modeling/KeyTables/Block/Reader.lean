import KeyTables.Note
import KeyTables.Token.Cursor

/-! Readers of token sequences. A reader takes a cursor wherever it stands and returns what it read,
the cursor after it and the notes taken on the way. The simplest one wants tokens of given kinds in a
row. -/
namespace KeyTables
set_option autoImplicit false

/-- What a reader returns. -/
structure Parsed (α : Type) where
  value : α
  cursor : Cursor
  notes : List Note
  deriving DecidableEq

namespace Cursor

/-- Moves over tokens of the given kinds, and stops in front of the first one that is of another
kind. -/
def expectAll : List Token.Kind → Cursor → Parsed Bool
  | [], c => ⟨true, c, []⟩
  | kind :: kinds, c =>
    if c.next.kind = kind then expectAll kinds c.advance
    else ⟨false, c, [.unexpected kind c.next]⟩

def expect (kind : Token.Kind) (c : Cursor) : Parsed Bool :=
  expectAll [kind] c

theorem length_expectAll_le (kinds : List Token.Kind) (c : Cursor) :
    (expectAll kinds c).cursor.ahead.length ≤ c.ahead.length := by
  induction kinds generalizing c with
  | nil => exact Nat.le_refl _
  | cons kind kinds ih =>
    rw [expectAll]
    split
    · have := ih c.advance
      simp only [advance, List.length_tail] at this
      simp only [advance]
      omega
    · exact Nat.le_refl _

end Cursor

end KeyTables
