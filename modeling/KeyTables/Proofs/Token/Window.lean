import Mathlib.Data.Part
import KeyTables.Proofs.Token.Code
import KeyTables.Token.Cursor

/-! A cursor that is handed its tokens one at a time. The feed hands out each token once, the ending one
last, and breaks down if it is asked again after that; so the ending token is kept as soon as it has
come, and handed out from there.

* `Feed.pull`: the next token. It is undefined only if a feed is asked that has run out.
* `Window`: the two tokens that a cursor shows, and the feed behind them.
* `Cursor.window`: the window that shows what a cursor shows.
* `onto_remaining`, `advance_window`: such a window never asks a feed that has run out. -/
namespace KeyTables
set_option autoImplicit false

/-! ## Feeds -/

structure Feed where
  /-- The tokens still to be handed out, the ending one last. -/
  coming : List Token
  /-- The ending token, once it has been handed out. -/
  ended : Option Token

def Feed.pull : Feed → Part (Token × Feed)
  | ⟨coming, some t⟩ => .some (t, ⟨coming, some t⟩)
  | ⟨[], none⟩ => .none
  | ⟨t :: coming, none⟩ => .some (t, ⟨coming, if t.kind = .eof then some t else none⟩)

theorem Feed.pull_token (t : Token) (coming : List Token) (h : t.kind ≠ .eof) :
    Feed.pull ⟨t :: coming, none⟩ = .some (t, ⟨coming, none⟩) := by
  rw [pull, if_neg h]

theorem Feed.pull_ending (t : Token) (h : t.kind = .eof) :
    Feed.pull ⟨[t], none⟩ = .some (t, ⟨[], some t⟩) := by
  rw [pull, if_pos h]

theorem Feed.pull_ended (t : Token) : Feed.pull ⟨[], some t⟩ = .some (t, ⟨[], some t⟩) := rfl

/-! ## Windows -/

structure Window where
  curr : Token
  next : Token
  feed : Feed

namespace Window

/-- On the first of some tokens. -/
def onto (ts : List Token) : Part Window := do
  let (curr, feed) ← Feed.pull ⟨ts, none⟩
  let (next, feed) ← feed.pull
  return ⟨curr, next, feed⟩

def advance (w : Window) : Part Window := do
  let (t, feed) ← w.feed.pull
  return ⟨w.next, t, feed⟩

end Window

/-! ## Windows of cursors -/

namespace Cursor

/-- What is left to hand out when the cursor shows its two tokens. -/
def feed (c : Cursor) : Feed :=
  match c.ahead with
  | _ :: _ :: ts => ⟨ts ++ [c.last], none⟩
  | _ => ⟨[], some c.last⟩

def window (c : Cursor) : Window :=
  ⟨c.curr, c.next, c.feed⟩

@[simp] theorem window_curr (c : Cursor) : c.window.curr = c.curr := rfl

@[simp] theorem window_next (c : Cursor) : c.window.next = c.next := rfl

theorem curr_of_ahead (c : Cursor) (t : Token) (ts : List Token) (h : c.ahead = t :: ts) :
    c.curr = t := by
  rw [curr, h]
  rfl

/-- The last token is the only ending one. -/
structure Proper (c : Cursor) : Prop where
  ending : c.last.kind = .eof
  ahead : ∀ t ∈ c.ahead, t.kind ≠ .eof

theorem proper_start (d : Bytes) : (start d).Proper :=
  ⟨rfl, fun t ht => spelled_ne_eof _ _ (spelled_of_mem 0 d t ht)⟩

theorem curr_eof_iff (c : Cursor) (h : c.Proper) : c.curr.kind = .eof ↔ c.ahead = [] := by
  obtain ⟨ahead, last⟩ := c
  cases ahead with
  | nil => exact ⟨fun _ => rfl, fun _ => h.ending⟩
  | cons t ts =>
    have ht := h.ahead t List.mem_cons_self
    exact ⟨fun hk => absurd hk ht, fun hnil => by simp at hnil⟩

theorem onto_remaining (c : Cursor) (h : c.Proper) : Window.onto c.remaining = .some c.window := by
  obtain ⟨ahead, last⟩ := c
  have hlast : last.kind = .eof := h.ending
  rcases ahead with _ | ⟨t, _ | ⟨u, ts⟩⟩
  · unfold Window.onto
    rw [remaining, List.nil_append, Feed.pull_ending last hlast]
    simp only [Part.bind_eq_bind, Part.bind_some, Feed.pull_ended]
    rfl
  · have ht : t.kind ≠ .eof := h.ahead t (by simp)
    unfold Window.onto
    rw [remaining, List.cons_append, List.nil_append, Feed.pull_token t _ ht]
    simp only [Part.bind_eq_bind, Part.bind_some, Feed.pull_ending last hlast]
    rfl
  · have ht : t.kind ≠ .eof := h.ahead t (by simp)
    have hu : u.kind ≠ .eof := h.ahead u (by simp)
    unfold Window.onto
    rw [remaining, List.cons_append, List.cons_append, Feed.pull_token t _ ht]
    simp only [Part.bind_eq_bind, Part.bind_some, Feed.pull_token u _ hu]
    rfl

theorem pull_feed (c : Cursor) (h : c.Proper) :
    c.feed.pull = .some (c.advance.next, c.advance.feed) := by
  obtain ⟨ahead, last⟩ := c
  -- the feed is asked only if two tokens are shown in front of the ending one
  rcases ahead with _ | ⟨t, _ | ⟨u, _ | ⟨v, ts⟩⟩⟩
  · exact Feed.pull_ended last
  · exact Feed.pull_ended last
  · exact Feed.pull_ending last h.ending
  · exact Feed.pull_token v _ (h.ahead v (by simp))

theorem advance_window (c : Cursor) (h : c.Proper) :
    c.window.advance = .some c.advance.window := by
  unfold Window.advance
  rw [window, pull_feed c h, Part.bind_eq_bind, Part.bind_some]
  rfl

end Cursor

end KeyTables
