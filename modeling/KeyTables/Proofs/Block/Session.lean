import KeyTables.Proofs.Block.FirstHeader
import KeyTables.Proofs.Block.Pulling

/-! Sessions: readers called on one cursor, any of them, in any order and from anywhere.

* `Call`, `Answer`: what can be called, and what it answers.
* `Cursor.session`, `Window.session`: all answers of a session, each with what it left.
* `Call.Moves`: how far a call may move.
* `session_keeps_place`: every call of a session ends and asks no feed that has run out, and what is
  shown after it are two tokens in a row, never earlier ones than before. -/
namespace KeyTables
set_option autoImplicit false

/-! ## Calls -/

inductive Call where
  | advance
  | expect (kind : Token.Kind)
  | findBlock
  | keymapsBlock
  | keyTable
  | keyList
  | compoundKey
  deriving DecidableEq

inductive Answer where
  | moved
  | met (value : Bool)
  | block (value : Option Block)
  | table (value : Option KeyTable)
  | keys (value : Option (List Text))
  | key (value : Option Text)
  deriving DecidableEq

namespace Call

def onCursor (c : Cursor) : Call → Answer × Cursor
  | advance => (.moved, c.advance)
  | expect kind => (.met (c.expect kind).value, (c.expect kind).cursor)
  | findBlock => (.block c.findBlock.value, c.findBlock.cursor)
  | keymapsBlock => (.block c.keymapsBlock.value, c.keymapsBlock.cursor)
  | keyTable => (.table c.keyTable.value, c.keyTable.cursor)
  | keyList => (.keys c.keyList.value, c.keyList.cursor)
  | compoundKey => (.key c.compoundKey.value, c.compoundKey.cursor)

def onWindow (w : Window) : Call → Part (Answer × Window)
  | advance => w.advance.map fun w => (.moved, w)
  | expect kind => (w.expect kind).map fun r => (.met r.1, r.2)
  | findBlock => w.findBlock.map fun r => (.block r.1, r.2)
  | keymapsBlock => w.keymapsBlock.map fun r => (.block r.1, r.2)
  | keyTable => w.keyTable.map fun r => (.table r.1, r.2)
  | keyList => w.keyList.map fun r => (.keys r.1, r.2)
  | compoundKey => w.compoundKey.map fun r => (.key r.1, r.2)

end Call

def Cursor.session : List Call → Cursor → List (Answer × Cursor)
  | [], _ => []
  | call :: calls, c => call.onCursor c :: session calls (call.onCursor c).2

def Window.session : List Call → Window → Part (List (Answer × Window))
  | [], _ => .some []
  | call :: calls, w => do
    let r ← call.onWindow w
    return r :: (← session calls r.2)

namespace Cursor

/-! ## Sessions of windows -/

theorem follows_onCursor (call : Call) (c : Cursor) : Follows (call.onCursor c).2 c := by
  cases call with
  | advance => exact follows_advance c
  | expect kind => exact follows_expectAll [kind] c
  | findBlock => exact follows_findBlock c
  | keymapsBlock => exact follows_keymapsBlock c
  | keyTable => exact follows_keyTable c
  | keyList => exact follows_keyList c
  | compoundKey => exact follows_compoundKey c

/-- An answer, and the window of the cursor that was left. -/
def windowed (r : Answer × Cursor) : Answer × Window :=
  (r.1, r.2.window)

theorem onWindow_window (call : Call) (c : Cursor) (h : c.Proper) :
    call.onWindow c.window = .some (windowed (call.onCursor c)) := by
  cases call with
  | advance => simp only [Call.onWindow, advance_window c h, Part.map_some]; rfl
  | expect kind => simp only [Call.onWindow, expect_window kind c h, Part.map_some]; rfl
  | findBlock => simp only [Call.onWindow, findBlock_window c h, Part.map_some]; rfl
  | keymapsBlock => simp only [Call.onWindow, keymapsBlock_window c h, Part.map_some]; rfl
  | keyTable => simp only [Call.onWindow, keyTable_window c h, Part.map_some]; rfl
  | keyList => simp only [Call.onWindow, keyList_window c h, Part.map_some]; rfl
  | compoundKey => simp only [Call.onWindow, compoundKey_window c h, Part.map_some]; rfl

theorem session_window (calls : List Call) (c : Cursor) (h : c.Proper) :
    c.window.session calls = .some ((c.session calls).map windowed) := by
  induction calls generalizing c with
  | nil => rfl
  | cons call calls ih =>
    have hrest := ih (call.onCursor c).2 (h.of_follows (follows_onCursor call c))
    rw [Window.session, onWindow_window call c h]
    simp only [Part.bind_eq_bind, Part.bind_some, windowed] at hrest ⊢
    rw [hrest, Part.bind_some]
    rfl

theorem length_session (calls : List Call) (c : Cursor) :
    (c.session calls).length = calls.length := by
  induction calls generalizing c with
  | nil => rfl
  | cons call calls ih => rw [session, List.length_cons, ih, List.length_cons]

/-! ## Places -/

theorem onToken_of_follows (d : Bytes) (i : Nat) (c : Cursor) (h : Follows c (onToken d i)) :
    ∃ j, i ≤ j ∧ c = onToken d j := by
  obtain ⟨ahead, last⟩ := c
  obtain ⟨⟨moved, hmoved⟩, rfl⟩ := h
  refine ⟨i + moved.length, Nat.le_add_right _ _, ?_⟩
  have hdrop : (tokensFrom 0 0 d).drop (i + moved.length) = ahead := by
    have hahead : moved ++ ahead = (tokensFrom 0 0 d).drop i := hmoved
    rw [← List.drop_drop, ← hahead, List.drop_left]
  show Cursor.mk ahead (.ending d.length) = ⟨(tokensFrom 0 0 d).drop (i + moved.length), _⟩
  rw [hdrop]

theorem advance_onToken (d : Bytes) (i : Nat) : (onToken d i).advance = onToken d (i + 1) := by
  simp only [advance, onToken, List.tail_drop]

end Cursor

/-- How a call that gives an answer may move from token `i` to token `j`. -/
def Call.Moves (answer : Answer) (i j : Nat) : Call → Prop
  | .advance => j = i + 1
  | .expect _ => answer = .met true ∧ j = i + 1 ∨ answer = .met false ∧ j = i
  | _ => i ≤ j

theorem Call.Moves.le {call : Call} {answer : Answer} {i j : Nat} (h : call.Moves answer i j) :
    i ≤ j := by
  cases call with
  | advance => exact Nat.le_of_lt (Nat.lt_of_lt_of_eq (Nat.lt_succ_self i) h.symm)
  | expect kind =>
    obtain ⟨-, hj⟩ | ⟨-, hj⟩ := h <;> omega
  | findBlock | keymapsBlock | keyTable | keyList | compoundKey => exact h

namespace Cursor

theorem moves_onCursor (d : Bytes) (i : Nat) (call : Call) :
    ∃ j, (call.onCursor (onToken d i)).2 = onToken d j ∧
      call.Moves (call.onCursor (onToken d i)).1 i j := by
  have hfollows := follows_onCursor call (onToken d i)
  cases call with
  | advance => exact ⟨i + 1, advance_onToken d i, rfl⟩
  | expect kind =>
    by_cases hk : (onToken d i).next.kind = kind
    · simp only [Call.onCursor, expect_met kind _ hk]
      exact ⟨i + 1, advance_onToken d i, Or.inl ⟨rfl, rfl⟩⟩
    · simp only [Call.onCursor, expect_unmet kind _ hk]
      exact ⟨i, rfl, Or.inr ⟨rfl, rfl⟩⟩
  | findBlock | keymapsBlock | keyTable | keyList | compoundKey =>
    obtain ⟨j, hle, hj⟩ := onToken_of_follows d i _ hfollows
    exact ⟨j, hj, hle⟩

/-- The places where the calls of a session leave the cursor. -/
theorem session_onToken (d : Bytes) (calls : List Call) (i : Nat) :
    ∃ index : Nat → Nat, index 0 = i ∧ (∀ k, index k ≤ index (k + 1)) ∧
      ∀ k call answer c, calls[k]? = some call →
        ((onToken d i).session calls)[k]? = some (answer, c) →
        c = onToken d (index (k + 1)) ∧ call.Moves answer (index k) (index (k + 1)) := by
  induction calls generalizing i with
  | nil => exact ⟨fun _ => i, rfl, fun _ => Nat.le_refl i, by simp⟩
  | cons call calls ih =>
    obtain ⟨j, hcursor, hmoves⟩ := moves_onCursor d i call
    obtain ⟨index, hzero, hle, hindex⟩ := ih j
    refine ⟨fun | 0 => i | k + 1 => index k, rfl, ?_, ?_⟩
    · intro k
      cases k with
      | zero => exact Nat.le_trans hmoves.le (Nat.le_of_eq hzero.symm)
      | succ k => exact hle k
    · intro k call' answer c hcall hanswer
      cases k with
      | zero =>
        obtain rfl := Option.some.inj hcall
        have hfirst := Option.some.inj hanswer
        rw [hfirst] at hcursor hmoves
        subst hzero
        exact ⟨hcursor, hmoves⟩
      | succ k =>
        rw [session, hcursor] at hanswer
        exact hindex k call' answer c hcall hanswer

end Cursor

/-! ## Tokens in a row -/

/-- Token `i` of a source. Behind the last one the ending token is repeated for ever. -/
def tokenAt (d : Bytes) (i : Nat) : Token :=
  (tokens d).getD i (.ending d.length)

open Cursor

theorem curr_onToken (d : Bytes) (i : Nat) : (onToken d i).curr = tokenAt d i := by
  rw [curr, onToken, tokenAt, tokens, List.headD_eq_head?_getD, List.head?_drop,
    List.getD_eq_getElem?_getD]
  by_cases hi : i < (tokensFrom 0 0 d).length
  · rw [List.getElem?_append_left hi]
  · have hlast : ([Token.ending d.length])[i - (tokensFrom 0 0 d).length]?.getD (.ending d.length) =
        .ending d.length := by
      cases i - (tokensFrom 0 0 d).length <;> rfl
    rw [List.getElem?_append_right (by omega), hlast, List.getElem?_eq_none (by omega)]
    rfl

theorem next_onToken (d : Bytes) (i : Nat) : (onToken d i).next = tokenAt d (i + 1) := by
  rw [next_eq, advance_onToken, curr_onToken]

/-- Whatever is called on a source, every call ends, and no feed is asked that has run out. Before and
after each call the window shows token `i` and token `i + 1` for some index `i`, which starts at zero
and never decreases; an expectation that is not met keeps it. -/
theorem session_keeps_place (d : Bytes) (calls : List Call) :
    ∃ (w : Window) (seen : List (Answer × Window)) (index : Nat → Nat),
      Window.onto (tokens d) = .some w ∧ w.session calls = .some seen ∧
      seen = ((start d).session calls).map windowed ∧ seen.length = calls.length ∧
      w.curr = tokenAt d 0 ∧ w.next = tokenAt d 1 ∧
      index 0 = 0 ∧ (∀ k, index k ≤ index (k + 1)) ∧
      ∀ k call answer w', calls[k]? = some call → seen[k]? = some (answer, w') →
        w'.curr = tokenAt d (index (k + 1)) ∧ w'.next = tokenAt d (index (k + 1) + 1) ∧
        call.Moves answer (index k) (index (k + 1)) := by
  have hproper := proper_start d
  obtain ⟨index, hzero, hle, hindex⟩ := session_onToken d calls 0
  refine ⟨(start d).window, ((start d).session calls).map windowed, index, onto_remaining _ hproper,
    session_window calls _ hproper, rfl, ?_, curr_onToken d 0, next_onToken d 0, hzero, hle, ?_⟩
  · rw [List.length_map, length_session]
  · intro k call answer w' hcall hseen
    rw [List.getElem?_map, Option.map_eq_some_iff] at hseen
    obtain ⟨⟨answer', c⟩, hsession, hshown⟩ := hseen
    obtain ⟨rfl, rfl⟩ := Prod.mk.inj hshown
    obtain ⟨rfl, hmoves⟩ := hindex k call answer' c hcall hsession
    exact ⟨curr_onToken d _, next_onToken d _, hmoves⟩

end KeyTables
