import KeyTables.Block.Table

/-! Finding and reading the keymaps block of a source. A block has the form

    const TYPE PROGMEM NAME[][ROWS][COLS] = { [TABLE] = LAYOUT(KEY, KEY, ...), ... }

* `keymapsBlock`: a block whose first word is the current token.
* `findBlock`: the first block from the current token on.
* `parseBlock`: the first block of a source. -/
namespace KeyTables
set_option autoImplicit false

namespace Cursor

/-- The entries from the current token up to the closing brace, for a block that opens at `start`.
Tokens outside all entries are passed over. -/
def entries (start : Nat) (c : Cursor) : Parsed (Option Block) :=
  match _ahead : c.ahead with
  | [] => ⟨none, c, [.neverClosed start]⟩
  | t :: _ =>
    if t.kind = .rbrace then ⟨some ⟨start, t.offset, [], 0⟩, c, []⟩
    else if t.kind = .lbracket then
      let entry := keyTable c
      let rest := entries start entry.cursor.advance
      let block := match entry.value with
        | none => rest.value.map fun b => { b with unparsed := b.unparsed + 1 }
        | some table => rest.value.map fun b => { b with tables := table :: b.tables }
      ⟨block, rest.cursor, entry.notes ++ rest.notes⟩
    else entries start c.advance
termination_by c.ahead.length
decreasing_by
  · have := length_keyTable_le c
    simp only [advance, List.length_tail, _ahead, List.length_cons] at this ⊢
    omega
  · simp [advance, _ahead]

/-- The kinds after the first word of a block, up to its opening brace. -/
def blockHeader : List Token.Kind :=
  [.ident, .progmem, .ident, .lbracket, .rbracket, .lbracket, .ident, .rbracket, .lbracket,
   .ident, .rbracket, .equals, .lbrace]

/-- A block whose first word is the current token. The cursor ends on the closing brace. -/
def keymapsBlock (c : Cursor) : Parsed (Option Block) :=
  let header := expectAll blockHeader c
  if header.value then entries header.cursor.curr.offset header.cursor.advance
  else ⟨none, header.cursor, header.notes⟩

theorem length_entries_le (start : Nat) (c : Cursor) :
    (entries start c).cursor.ahead.length ≤ c.ahead.length := by
  fun_induction entries start c with
  | case1 => exact Nat.le_refl _
  | case2 => exact Nat.le_refl _
  | case3 c t ts h _ _ entry rest block ih =>
    have h1 : entry.cursor.ahead.length ≤ c.ahead.length := length_keyTable_le c
    have h2 : entry.cursor.advance.ahead.length ≤ entry.cursor.ahead.length := by
      simp [advance]
    exact Nat.le_trans ih (Nat.le_trans h2 h1)
  | case4 c t ts h _ _ ih =>
    simp only [advance, List.length_tail] at ih
    simp only [advance]
    omega

theorem length_keymapsBlock_le (c : Cursor) :
    (keymapsBlock c).cursor.ahead.length ≤ c.ahead.length := by
  have h1 := length_expectAll_le blockHeader c
  simp only [keymapsBlock]
  split
  · have h2 := length_entries_le (expectAll blockHeader c).cursor.curr.offset
      (expectAll blockHeader c).cursor.advance
    simp only [advance, List.length_tail] at h2
    simp only [advance]
    omega
  · exact h1

/-- The first block that starts at the current token or later. After a failed attempt the search goes
on behind the last token that the attempt moved over. -/
def findBlock (c : Cursor) : Parsed (Option Block) :=
  match _ahead : c.ahead with
  | [] => ⟨none, c, []⟩
  | t :: _ =>
    if t.kind = .const then
      let attempt := keymapsBlock c
      match attempt.value with
      | some block => ⟨some block, attempt.cursor, attempt.notes⟩
      | none =>
        let rest := findBlock attempt.cursor.advance
        ⟨rest.value, rest.cursor, attempt.notes ++ rest.notes⟩
    else findBlock c.advance
termination_by c.ahead.length
decreasing_by
  · have := length_keymapsBlock_le c
    simp only [advance, List.length_tail, _ahead, List.length_cons] at this ⊢
    omega
  · simp [advance, _ahead]

end Cursor

/-- The first keymaps block of a source. -/
def parseBlock (source : Bytes) : Parsed (Option Block) :=
  (Cursor.start source).findBlock

end KeyTables
