import KeyTables.Token.Basic

/-! Cutting a source into tokens. Space, tab, line feed and carriage return stand between tokens.
Each of the eight brackets and separators is a token, two slashes start a comment that runs up to the
next line feed, a word is a maximal run of letters, digits and underscores, and any other byte is a
token by itself. No input is refused. -/
namespace KeyTables
set_option autoImplicit false

/-! ## Classes of bytes -/

def isSpaceByte (b : UInt8) : Bool :=
  b == 0x20 || b == 0x09 || b == 0x0A || b == 0x0D

/-- Letters, digits and the underscore, in ASCII. -/
def isWordByte (b : UInt8) : Bool :=
  inRanges [(0x30, 0x39), (0x41, 0x5A), (0x61, 0x7A), (0x5F, 0x5F)] b.toNat

def isSlash (b : UInt8) : Bool :=
  b == 0x2F

def isLineFeed (b : UInt8) : Bool :=
  b == 0x0A

def punctuation? (b : UInt8) : Option Token.Kind :=
  if b = 0x28 then some .lparen
  else if b = 0x29 then some .rparen
  else if b = 0x5B then some .lbracket
  else if b = 0x5D then some .rbracket
  else if b = 0x7B then some .lbrace
  else if b = 0x7D then some .rbrace
  else if b = 0x2C then some .comma
  else if b = 0x3D then some .equals
  else none

/-! ## Words -/

/-- The reserved words with their kinds. -/
def reservedWords : List (Bytes × Token.Kind) :=
  [(encode ['L', 'A', 'Y', 'O', 'U', 'T'], .layout),
   (encode ['c', 'o', 'n', 's', 't'], .const),
   (encode ['P', 'R', 'O', 'G', 'M', 'E', 'M'], .progmem)]

def wordKind (w : Bytes) : Token.Kind :=
  match reservedWords.lookup w with
  | some kind => kind
  | none => if w.all (· == 0x5F) then .blank else .ident

/-! ## Tokens -/

/-- The kind of the token that starts with `b`, and its bytes after `b`. -/
def lexemeAt (b : UInt8) (bs : Bytes) : Token.Kind × Bytes :=
  match punctuation? b with
  | some kind => (kind, [])
  | none =>
    if isSlash b && bs.head?.any isSlash then
      (.comment, bs.takeWhile fun x => !isLineFeed x)
    else if isWordByte b then
      let more := bs.takeWhile isWordByte
      (wordKind (b :: more), more)
    else (.ident, [])

/-- The tokens of the bytes that stand at `offset`. The first `skip` bytes belong to the token before
and are passed over. -/
def tokensFrom (offset : Nat) : (skip : Nat) → Bytes → List Token
  | _, [] => []
  | skip + 1, _ :: bs => tokensFrom (offset + 1) skip bs
  | 0, b :: bs =>
    if isSpaceByte b then tokensFrom (offset + 1) 0 bs
    else
      let (kind, more) := lexemeAt b bs
      ⟨kind, offset, b :: more⟩ :: tokensFrom (offset + 1) more.length bs

/-- All tokens of a source, the ending one included. -/
def tokens (source : Bytes) : List Token :=
  tokensFrom 0 0 source ++ [Token.ending source.length]

/-! ## Passing over a token -/

theorem tokensFrom_skip (offset skip : Nat) (bs : Bytes) :
    tokensFrom offset skip bs = tokensFrom (offset + skip) 0 (bs.drop skip) := by
  induction bs generalizing offset skip with
  | nil => simp [tokensFrom]
  | cons b bs ih =>
    cases skip with
    | zero => rfl
    | succ skip =>
      have e : offset + 1 + skip = offset + (skip + 1) := by omega
      rw [tokensFrom, ih, e, List.drop_succ_cons]

end KeyTables
