import KeyTables.Proofs.Block.Entries
import KeyTables.Proofs.Grammar.Elements
import KeyTables.Proofs.Token.Nesting

/-! The grammar of a keymaps block. A declaration is what the block says together with all white
space and comments that it is written with:

    const TYPE PROGMEM ARRAY[][ROWS][COLS] = { [NAME] = LAYOUT(KEY, KEY, ...), ... }

White space may stand between any two lexemes. Comments may stand around the entries, in key lists
and inside the parentheses of a compound key, but neither in the header of the block, nor in front
of the parenthesis of an entry, nor between the two parts of a compound key.

* `Declaration.bytes`: a declaration as it is written.
* `Declaration.block`: the block it stands for, with its offsets.
* `Declaration.tokensFrom_bytes`: a declaration is cut into the tokens of its lexemes and comments. -/
namespace KeyTables.Grammar
set_option autoImplicit false
open Cursor

/-! ## Gaps -/

/-- White space and comments. -/
abbrev Gap := List Trivium

/-- White space without comments. -/
abbrev Spaces := List Space

def Gap.elements (g : Gap) : List Element :=
  g.map Element.trivium

def Spaces.gap (s : Spaces) : Gap :=
  s.map Trivium.space

/-- White space that keeps two words apart. -/
structure Break where
  first : Space
  more : Spaces

def Break.spaces (b : Break) : Spaces :=
  b.first :: b.more

abbrev Element.sign (p : Punctuation) : Element :=
  .lexeme (.punctuation p)

theorem length_sign (p : Punctuation) : (Element.sign p).bytes.length = 1 := by
  cases p <;> rfl

/-- A lexeme with the white space in front of it. -/
structure Item where
  spaces : Spaces
  lexeme : Lexeme

def Item.elements (i : Item) : List Element :=
  i.spaces.gap.elements ++ [.lexeme i.lexeme]

/-- Values with commas between them, and perhaps one after the last. Each value and each comma has
a gap in front. -/
inductive Series (α : Type) where
  | nil
  | last (gap : Gap) (value : α)
  | more (gap : Gap) (value : α) (comma : Gap) (rest : Series α)

namespace Series
variable {α : Type}

def values : Series α → List α
  | nil => []
  | last _ value => [value]
  | more _ value _ rest => value :: rest.values

def elements (write : α → List Element) : Series α → List Element
  | nil => []
  | last gap value => gap.elements ++ write value
  | more gap value comma rest =>
    gap.elements ++ (write value ++ (comma.elements ++ .sign .comma :: rest.elements write))

end Series

/-! ## Keys, entries and declarations -/

/-- A word and its arguments. What stands inside the parentheses is any row of elements in which
words do not touch and parentheses are nested. -/
structure Compound where
  wrapper : Ident
  spaces : Spaces
  inside : List Element
  spaced : isSpaced false inside = true
  nested : isNested .lparen .rparen 0 (inside.filterMap Element.kind?) = true

inductive Key where
  /-- `more + 1` underscores. -/
  | blank (more : Nat)
  | plain (name : Ident)
  | compound (c : Compound)

namespace Key

def elements : Key → List Element
  | blank more => [.lexeme (.blank more)]
  | plain name => [.lexeme (.ident name)]
  | compound c => .lexeme (.ident c.wrapper) :: (c.spaces.gap.elements ++
      .sign .lparen :: (c.inside ++ [.sign .rparen]))

/-- A blank is empty, and a compound key is written without white space and comments. -/
def text : Key → Text
  | blank _ => []
  | plain name => name.text
  | compound c => c.wrapper.text ++ '(' :: (c.inside.flatMap Element.text ++ [')'])

end Key

/-- An entry `[NAME] = LAYOUT(KEY, ...)`. -/
structure Entry where
  name : Ident
  /-- The white space in front of the name and of the four lexemes up to the parenthesis. -/
  before : Fin 5 → Spaces
  keys : Series Key
  /-- What stands in front of the closing parenthesis. -/
  close : Gap

namespace Entry

def header (e : Entry) : List Item :=
  [⟨[], .punctuation .lbracket⟩, ⟨e.before 0, .ident e.name⟩, ⟨e.before 1, .punctuation .rbracket⟩,
   ⟨e.before 2, .punctuation .equals⟩, ⟨e.before 3, .keyword .layout⟩,
   ⟨e.before 4, .punctuation .lparen⟩]

/-- The key list. -/
def inner (e : Entry) : List Element :=
  e.keys.elements Key.elements ++ e.close.elements

def elements (e : Entry) : List Element :=
  e.header.flatMap Item.elements ++ (e.inner ++ [.sign .rparen])

def length (e : Entry) : Nat :=
  (printed e.elements).length

/-- The table of an entry whose bracket stands at `start`. -/
def table (e : Entry) (start stop : Nat) : KeyTable where
  name := Lexeme.token (start + 1 + (e.before 0).length) (.ident e.name)
  keys := e.keys.values.map Key.text
  start := start
  stop := stop

end Entry

/-- The tables of entries that are written at `o`. A comma belongs to the table in front of it. -/
def tablesAt : (o : Nat) → Series Entry → List KeyTable
  | _, .nil => []
  | o, .last gap e =>
    let start := o + (printed gap.elements).length
    [e.table start (start + e.length)]
  | o, .more gap e comma rest =>
    let start := o + (printed gap.elements).length
    let stop := start + e.length + (printed comma.elements).length + 1
    e.table start stop :: tablesAt stop rest

structure Declaration where
  type : Ident
  array : Ident
  rows : Ident
  cols : Ident
  /-- The white space between the four words in front. -/
  apart : Fin 3 → Break
  /-- The white space in front of the first word and of the lexemes after the fourth. -/
  before : Fin 11 → Spaces
  entries : Series Entry
  /-- What stands in front of the closing brace. -/
  close : Gap

namespace Declaration

/-- The lexemes up to the opening brace. -/
def header (d : Declaration) : List Item :=
  [⟨d.before 0, .keyword .const⟩, ⟨(d.apart 0).spaces, .ident d.type⟩,
   ⟨(d.apart 1).spaces, .keyword .progmem⟩, ⟨(d.apart 2).spaces, .ident d.array⟩,
   ⟨d.before 1, .punctuation .lbracket⟩, ⟨d.before 2, .punctuation .rbracket⟩,
   ⟨d.before 3, .punctuation .lbracket⟩, ⟨d.before 4, .ident d.rows⟩,
   ⟨d.before 5, .punctuation .rbracket⟩, ⟨d.before 6, .punctuation .lbracket⟩,
   ⟨d.before 7, .ident d.cols⟩, ⟨d.before 8, .punctuation .rbracket⟩,
   ⟨d.before 9, .punctuation .equals⟩]

/-- All that stands in front of the opening brace. -/
def front (d : Declaration) : List Element :=
  d.header.flatMap Item.elements ++ (d.before 10).gap.elements

/-- All that stands between the braces. -/
def body (d : Declaration) : List Element :=
  d.entries.elements Entry.elements ++ d.close.elements

def bytes (d : Declaration) : Bytes :=
  printed (d.front ++ .sign .lbrace :: (d.body ++ [.sign .rbrace]))

/-- The block that a declaration stands for. -/
def block (d : Declaration) : Block where
  start := (printed d.front).length
  stop := (printed d.front).length + 1 + (printed d.body).length
  tables := tablesAt ((printed d.front).length + 1) d.entries
  unparsed := 0

/-- The token of the opening brace. -/
def opening (d : Declaration) : Token :=
  Lexeme.token d.block.start (.punctuation .lbrace)

/-- The token of the closing brace. -/
def closing (d : Declaration) : Token :=
  Lexeme.token d.block.stop (.punctuation .rbrace)

/-- The names with their keys. -/
def contents (d : Declaration) : List (Text × List Text) :=
  d.entries.values.map fun e => (e.name.text, e.keys.values.map Key.text)

end Declaration

/-! ## Words do not touch -/

section
variable (word : Bool) (g : Gap) (p : Punctuation) (es fs : List Element)

@[simp] theorem isSpaced_sign : isSpaced word (.sign p :: es) = isSpaced false es := by
  simp [isSpaced, Element.isWord, Lexeme.isWord]

theorem isSpaced_append_sign :
    isSpaced word (es ++ .sign p :: fs) = (isSpaced word es && isSpaced false fs) := by
  induction es generalizing word with
  | nil => rw [List.nil_append, isSpaced_sign, isSpaced, Bool.true_and]
  | cons e es ih => rw [List.cons_append, isSpaced, isSpaced, ih, Bool.and_assoc]

@[simp] theorem isSpaced_gap : isSpaced false (g.elements ++ es) = isSpaced false es := by
  induction g with
  | nil => rfl
  | cons t g ih => exact ih

@[simp] theorem isSpaced_gap_sign :
    isSpaced word (g.elements ++ .sign p :: es) = isSpaced false es := by
  cases g with
  | nil => exact isSpaced_sign word p es
  | cons t g =>
    have hstep : isSpaced word (Gap.elements (t :: g) ++ .sign p :: es) =
        isSpaced false (Gap.elements g ++ .sign p :: es) := by
      simp [Gap.elements, isSpaced, Element.isWord]
    rw [hstep, isSpaced_gap, isSpaced_sign]

@[simp] theorem isSpaced_lexeme (l : Lexeme) :
    isSpaced false (.lexeme l :: es) = isSpaced l.isWord es := by
  rw [isSpaced, Element.isWord, Bool.false_and, Bool.not_false, Bool.true_and]

@[simp] theorem isSpaced_break (b : Break) :
    isSpaced word (b.spaces.gap.elements ++ es) = isSpaced false es := by
  have hstep : isSpaced word (b.spaces.gap.elements ++ es) =
      isSpaced false (b.more.gap.elements ++ es) := by
    simp [Break.spaces, Spaces.gap, Gap.elements, isSpaced, Element.isWord]
  rw [hstep, isSpaced_gap]

end

/-- Where each value may be written in front of a bracket or separator, a series may. -/
theorem isSpaced_series {α : Type} (write : α → List Element)
    (hwrite : ∀ a (g : Gap) p es,
      isSpaced false (write a ++ (g.elements ++ .sign p :: es)) = isSpaced false es)
    (s : Series α) (g : Gap) (p : Punctuation) (es : List Element) :
    isSpaced false (s.elements write ++ (g.elements ++ .sign p :: es)) = isSpaced false es := by
  induction s with
  | nil => exact isSpaced_gap_sign false g p es
  | last gap a => rw [Series.elements, List.append_assoc, isSpaced_gap, hwrite]
  | more gap a comma rest ih =>
    simp only [Series.elements, List.append_assoc, List.cons_append]
    rw [isSpaced_gap, hwrite, ih]

theorem isSpaced_key (k : Key) (g : Gap) (p : Punctuation) (es : List Element) :
    isSpaced false (k.elements ++ (g.elements ++ .sign p :: es)) = isSpaced false es := by
  cases k with
  | blank more => simp [Key.elements, Lexeme.isWord]
  | plain name => simp [Key.elements, Lexeme.isWord]
  | compound c =>
    have hinside := isSpaced_append_sign false .rparen c.inside (g.elements ++ .sign p :: es)
    simp [Key.elements, Lexeme.isWord, hinside, c.spaced]

theorem isSpaced_entry (e : Entry) (g : Gap) (p : Punctuation) (es : List Element) :
    isSpaced false (e.elements ++ (g.elements ++ .sign p :: es)) = isSpaced false es := by
  have hkeys := isSpaced_series Key.elements isSpaced_key e.keys e.close .rparen
    (g.elements ++ .sign p :: es)
  simp [Entry.elements, Entry.header, Entry.inner, Item.elements, Lexeme.isWord, hkeys]

theorem isSpaced_front (d : Declaration) (es : List Element) :
    isSpaced false (d.front ++ .sign .lbrace :: es) = isSpaced false es := by
  simp [Declaration.front, Declaration.header, Item.elements, Lexeme.isWord]

theorem Declaration.spaced (d : Declaration) :
    isSpaced false (d.front ++ .sign .lbrace :: d.body) = true := by
  have hbody : isSpaced false (d.body ++ [.sign .rbrace]) = true := by
    rw [body, List.append_assoc,
      isSpaced_series Entry.elements isSpaced_entry d.entries d.close .rbrace []]
    rfl
  rw [isSpaced_append_sign, Bool.and_eq_true] at hbody
  rw [isSpaced_front]
  exact hbody.1

/-- A declaration is cut into the tokens of its elements, whatever follows its closing brace. -/
theorem Declaration.tokensFrom_bytes (d : Declaration) (rest : Bytes) :
    tokensFrom 0 0 (d.bytes ++ rest) = placed 0 d.front ++ d.opening ::
      (placed (d.block.start + 1) d.body ++ d.closing ::
        tokensFrom (d.block.stop + 1) 0 rest) := by
  have hcut := tokensFrom_printed false 0 (d.front ++ .sign .lbrace :: d.body) (0x7D :: rest)
    d.spaced (by simpa using (by decide : isWordByte 0x7D = false))
  have hbrace : (Element.sign .rbrace).bytes = [0x7D] := rfl
  have hbytes : d.bytes ++ rest =
      printed (d.front ++ .sign .lbrace :: d.body) ++ 0x7D :: rest := by
    simp [bytes, hbrace]
  have hlen : 0 + (printed (d.front ++ .sign .lbrace :: d.body)).length = d.block.stop := by
    rw [printed_append, printed_cons, List.length_append, List.length_append, length_sign]
    show _ = (printed d.front).length + 1 + (printed d.body).length
    omega
  rw [hbytes, hcut, hlen, tokensFrom_mark _ 0x7D .rbrace rest rfl, placed_append, placed,
    length_sign, Nat.zero_add, List.append_assoc]
  rfl

end KeyTables.Grammar
