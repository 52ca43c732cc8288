import KeyTables.Text.Quoted

/-! UTF-8. Decoding cuts the bytes into pieces: a whole character, or the longest run of bytes that
starts a character and cannot be continued to one. Strict decoding stops at the first such run and
says where it lies and what is wrong with it; lossy decoding puts one replacement character in place
of each.

* `encode`: the bytes of a text.
* `decode`: the text of some bytes, or the first fault.
* `decodeLossy`: the text of any bytes. -/
namespace KeyTables
set_option autoImplicit false

def encode (t : Text) : Bytes :=
  t.flatMap String.utf8EncodeChar

/-- Why a run of bytes is no character. -/
inductive Utf8Fault where
  /-- No character starts with this byte. -/
  | start
  /-- The byte after the run does not continue it. -/
  | continuation
  /-- The bytes end too early. -/
  | truncated
  deriving DecidableEq

/-- What the first byte of a character promises: the number of bytes to come, the bits it carries,
and the range of the byte that comes next. The range keeps out overlong forms, surrogates and codes
beyond the last plane. -/
structure LeadByte where
  more : Nat
  bits : Nat
  low : Nat
  high : Nat

def leadOf (b : UInt8) : Option LeadByte :=
  let n := b.toNat
  if n < 0x80 then some ⟨0, n, 0x80, 0xBF⟩
  else if n < 0xC2 then none
  else if n < 0xE0 then some ⟨1, n - 0xC0, 0x80, 0xBF⟩
  else if n < 0xF0 then
    some ⟨2, n - 0xE0, if n = 0xE0 then 0xA0 else 0x80, if n = 0xED then 0x9F else 0xBF⟩
  else if n < 0xF5 then
    some ⟨3, n - 0xF0, if n = 0xF0 then 0x90 else 0x80, if n = 0xF4 then 0x8F else 0xBF⟩
  else none

/-- A character or a fault, with the number of bytes after the first one that belong to it. -/
structure Piece where
  content : Except Utf8Fault Char
  more : Nat

/-- Collects the `owed` bytes of a character, of which `taken` are there already. -/
def pieceFrom (taken : Nat) : (owed bits low high : Nat) → Bytes → Piece
  | 0, bits, _, _, _ => ⟨.ok (Char.ofNat bits), taken⟩
  | _ + 1, _, _, _, [] => ⟨.error .truncated, taken⟩
  | owed + 1, bits, low, high, b :: bs =>
    if low ≤ b.toNat ∧ b.toNat ≤ high then
      pieceFrom (taken + 1) owed (bits * 64 + (b.toNat - 0x80)) 0x80 0xBF bs
    else ⟨.error .continuation, taken⟩

/-- The piece that starts with `b` and may go on in `bs`. -/
def pieceAt (b : UInt8) (bs : Bytes) : Piece :=
  match leadOf b with
  | none => ⟨.error .start, 0⟩
  | some lead => pieceFrom 0 lead.more lead.bits lead.low lead.high bs

/-- A fault, with the place of its run and the run's first byte. -/
structure DecodeError where
  position : Nat
  length : Nat
  first : UInt8
  fault : Utf8Fault
  deriving DecidableEq

/-- The first `skip` bytes belong to the piece before and are passed over. -/
def decodeFrom (position : Nat) : (skip : Nat) → Bytes → Except DecodeError Text
  | _, [] => .ok []
  | skip + 1, _ :: bs => decodeFrom (position + 1) skip bs
  | 0, b :: bs =>
    let piece := pieceAt b bs
    match piece.content with
    | .error fault => .error ⟨position, piece.more + 1, b, fault⟩
    | .ok c =>
      match decodeFrom (position + 1) piece.more bs with
      | .error e => .error e
      | .ok t => .ok (c :: t)

def decode (bs : Bytes) : Except DecodeError Text :=
  decodeFrom 0 0 bs

/-- The first `skip` bytes belong to the piece before and are passed over. -/
def decodeLossyFrom : (skip : Nat) → Bytes → Text
  | _, [] => []
  | skip + 1, _ :: bs => decodeLossyFrom skip bs
  | 0, b :: bs =>
    let piece := pieceAt b bs
    let c := match piece.content with
      | .ok c => c
      | .error _ => '\ufffd'
    c :: decodeLossyFrom piece.more bs

def decodeLossy (bs : Bytes) : Text :=
  decodeLossyFrom 0 bs

/-! ## Wording -/

def Utf8Fault.reason : Utf8Fault → String
  | .start => "invalid start byte"
  | .continuation => "invalid continuation byte"
  | .truncated => "unexpected end of data"

def DecodeError.message (e : DecodeError) : String :=
  let place :=
    if e.length = 1 then
      let byte := String.ofList (hexDigits 2 e.first.toNat)
      s!"byte 0x{byte} in position {e.position}"
    else
      let stop := e.position + e.length - 1
      s!"bytes in position {e.position}-{stop}"
  s!"'utf-8' codec can't decode {place}: {e.fault.reason}"

end KeyTables
