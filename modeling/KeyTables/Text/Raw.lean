import KeyTables.Text.Quoted

/-! Texts from outside: arguments, variables and names of files. They are bytes that ought to be UTF-8. A
byte that belongs to no character is kept as a stray byte, so that every name of a file can be said;
it shows by an escape, and a text that has to be UTF-8 again cannot hold it.

* `RawText.text?`: the text, if there is no stray byte in it.
* `RawText.lossy`: the text, with one replacement character for each stray byte.
* `RawText.encodeError?`: the first run of stray bytes.
* `RawText.shown`, `RawText.quoted`: as messages show it. -/
namespace KeyTables
set_option autoImplicit false

inductive Rune where
  | char (c : Char)
  | stray (b : UInt8)
  deriving DecidableEq

abbrev RawText := List Rune

def raw (t : Text) : RawText :=
  t.map .char

namespace Rune

def isStray : Rune → Bool
  | .char _ => false
  | .stray _ => true

def lossy : Rune → Char
  | .char c => c
  | .stray _ => '\ufffd'

/-- A stray byte is shown as the low surrogate that stands for it. -/
def strayCode (b : UInt8) : Text :=
  ['\\', 'u', 'd', 'c'] ++ hexDigits 2 b.toNat

def shown : Rune → Text
  | .char c => [c]
  | .stray b => strayCode b

/-- A rune as it stands between quotes of the kind `quote`. -/
def escape (quote : Char) : Rune → Text
  | .char c => KeyTables.escape quote c
  | .stray b => strayCode b

end Rune

/-- The place of a run of stray bytes, and the first of them. -/
structure EncodeError where
  position : Nat
  length : Nat
  first : UInt8
  deriving DecidableEq

def EncodeError.message (e : EncodeError) : String :=
  let place :=
    if e.length = 1 then
      let code := String.ofList (Rune.strayCode e.first)
      s!"character '{code}' in position {e.position}"
    else
      let stop := e.position + e.length - 1
      s!"characters in position {e.position}-{stop}"
  s!"'utf-8' codec can't encode {place}: surrogates not allowed"

namespace RawText

def text? : RawText → Option Text
  | [] => some []
  | .char c :: t => (text? t).map (c :: ·)
  | .stray _ :: _ => none

def lossy (t : RawText) : Text :=
  t.map Rune.lossy

def encodeErrorFrom (position : Nat) : RawText → Option EncodeError
  | [] => none
  | .char _ :: t => encodeErrorFrom (position + 1) t
  | .stray b :: t => some ⟨position, (t.takeWhile Rune.isStray).length + 1, b⟩

def encodeError? (t : RawText) : Option EncodeError :=
  encodeErrorFrom 0 t

def shown (t : RawText) : Text :=
  t.flatMap Rune.shown

def quoted (t : RawText) : Text :=
  let quote := quoteFor t.lossy
  quote :: t.flatMap (Rune.escape quote) ++ [quote]

/-! ## Texts without stray bytes -/

theorem encodeErrorFrom_raw (position : Nat) (u : Text) (t : RawText) :
    encodeErrorFrom position (raw u ++ t) = encodeErrorFrom (position + u.length) t := by
  induction u generalizing position with
  | nil => rfl
  | cons c u ih =>
    rw [raw, List.map_cons, List.cons_append, encodeErrorFrom, ← raw, ih, List.length_cons,
      Nat.add_assoc, Nat.add_comm 1]

theorem encodeErrorFrom_eq_none_iff (position : Nat) (t : RawText) :
    encodeErrorFrom position t = none ↔ ∃ u, t = raw u := by
  induction t generalizing position with
  | nil => exact iff_of_true rfl ⟨[], rfl⟩
  | cons r t ih =>
    cases r with
    | stray b =>
      refine iff_of_false (by simp [encodeErrorFrom]) ?_
      rintro ⟨_ | ⟨c, u⟩, hu⟩ <;> simp [raw] at hu
    | char c =>
      rw [encodeErrorFrom, ih]
      constructor
      · rintro ⟨u, rfl⟩
        exact ⟨c :: u, rfl⟩
      · rintro ⟨_ | ⟨d, u⟩, hu⟩
        · cases hu
        · simp only [raw, List.map_cons, List.cons.injEq] at hu
          exact ⟨u, hu.2⟩

end RawText

end KeyTables
