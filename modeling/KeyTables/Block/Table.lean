import KeyTables.Block.Basic
import KeyTables.Block.Keys

/-! Reading one key table, from its opening bracket to its closing parenthesis and the comma that may
follow. -/
namespace KeyTables
set_option autoImplicit false

namespace Cursor

/-- Moves while the next token is a comment. -/
def pastComments : List Token → List Token
  | t :: u :: ts => if u.kind = .comment then pastComments (u :: ts) else t :: u :: ts
  | ts => ts

def skipComments (c : Cursor) : Cursor :=
  ⟨pastComments c.ahead, c.last⟩

/-- The kinds between the opening bracket of a table and its first key. -/
def tableHeader : List Token.Kind :=
  [.ident, .rbracket, .equals, .layout, .lparen]

/-- A table whose opening bracket is the current token. A comma after it, with comments in between,
belongs to it. -/
def keyTable (c : Cursor) : Parsed (Option KeyTable) :=
  let header := expectAll tableHeader c
  if header.value then
    let list := keyList header.cursor
    match list.value with
    | none => ⟨none, list.cursor, []⟩
    | some keys =>
      let closed := list.cursor.skipComments
      if closed.next.kind = .comma then
        ⟨some ⟨c.next, keys, c.curr.offset, closed.next.offset + 1⟩, closed.advance, []⟩
      else
        ⟨some ⟨c.next, keys, c.curr.offset, list.cursor.curr.offset + 1⟩, closed, []⟩
  else ⟨none, header.cursor, header.notes⟩

theorem length_pastComments_le (ts : List Token) : (pastComments ts).length ≤ ts.length := by
  fun_induction pastComments ts with
  | case1 t u ts _ ih =>
    simp only [List.length_cons] at ih ⊢
    omega
  | case2 => exact Nat.le_refl _
  | case3 => exact Nat.le_refl _

theorem length_keyTable_le (c : Cursor) : (keyTable c).cursor.ahead.length ≤ c.ahead.length := by
  have h1 := length_expectAll_le tableHeader c
  have h2 := length_keyList_le (expectAll tableHeader c).cursor
  have h3 := length_pastComments_le (keyList (expectAll tableHeader c).cursor).cursor.ahead
  simp only [keyTable]
  split
  · split
    · simp only
      omega
    · split
      · simp only [advance, skipComments, List.length_tail]
        omega
      · simp only [skipComments]
        omega
  · exact h1

end Cursor

end KeyTables
