import Mathlib.Data.PFun
import KeyTables.Proofs.Block.Scan
import KeyTables.Proofs.Token.Window

/-! The readers of a block, as loops over a window. Such a loop has no counter: nothing in it says that
it ends, or that the feed still has a token when it is asked for one. Both are settled here, for a
loop that never ends, or asks a feed that has run out, is undefined.

* `Window.compoundTurn`, …, `Window.findTurn`: what one turn of each loop comes to.
* `Window.expectAll`, …, `Window.findBlock`: the readers.
* `findBlock_window` and the equations before it: on the window of a cursor each reader returns what
  the reader of the same name returns on the cursor, and leaves the window of the cursor that it
  leaves. -/
namespace KeyTables
set_option autoImplicit false

/-! ## Loops over a window -/

namespace Window

def expect (kind : Token.Kind) (w : Window) : Part (Bool × Window) := do
  if w.next.kind = kind then return (true, ← w.advance)
  else return (false, w)

def expectAll : List Token.Kind → Window → Part (Bool × Window)
  | [], w => .some (true, w)
  | kind :: kinds, w => do
    let (met, w) ← w.expect kind
    if met then expectAll kinds w else return (false, w)

-- a turn gives the result of its loop on the left, and on the right where the next turn starts

def compoundTurn : Text × Int × Window →. (Option Text × Window) ⊕ (Text × Int × Window) :=
  fun (parts, depth, w) => do
    let w ← w.advance
    if w.curr.kind = .eof then return .inl (none, w)
    else if w.curr.kind = .comment then return .inr (parts, depth, w)
    else
      let depth := depth + Cursor.parenStep w.curr.kind
      if w.curr.kind = .rparen ∧ depth = 0 then return .inl (some (parts ++ w.curr.text), w)
      else return .inr (parts ++ w.curr.text, depth, w)

def compoundKey (w : Window) : Part (Option Text × Window) :=
  compoundTurn.fix (w.curr.text, 0, w)

def keysTurn : List Text × Window →. (Option (List Text) × Window) ⊕ (List Text × Window) :=
  fun (keys, w) => do
    if w.curr.kind = .rparen then return .inl (some keys, w)
    else if w.curr.kind = .eof then return .inl (none, w)
    else if w.curr.kind = .blank then return .inr (keys ++ [[]], ← w.advance)
    else if w.curr.kind = .ident then
      if w.next.kind = .lparen then
        let (key, w) ← w.compoundKey
        match key with
        | none => return .inl (none, w)
        | some key => return .inr (keys ++ [key], ← w.advance)
      else return .inr (keys ++ [w.curr.text], ← w.advance)
    else return .inr (keys, ← w.advance)

def keyList (w : Window) : Part (Option (List Text) × Window) := do
  keysTurn.fix ([], ← w.advance)

def skipTurn : Window →. Window ⊕ Window := fun w => do
  if w.next.kind = .comment then return .inr (← w.advance)
  else return .inl w

def keyTable (w : Window) : Part (Option KeyTable × Window) := do
  let start := w.curr.offset
  let (named, w) ← w.expect .ident
  if named then
    let name := w.curr
    let (opened, w) ← w.expectAll [.rbracket, .equals, .layout, .lparen]
    if opened then
      let (keys, w) ← w.keyList
      match keys with
      | none => return (none, w)
      | some keys =>
        let stop := w.curr.offset + 1
        let w ← skipTurn.fix w
        if w.next.kind = .comma then
          let w ← w.advance
          return (some ⟨name, keys, start, w.curr.offset + 1⟩, w)
        else return (some ⟨name, keys, start, stop⟩, w)
    else return (none, w)
  else return (none, w)

def entriesTurn (start : Nat) : List KeyTable × Nat × Window →.
    (Option Block × Window) ⊕ (List KeyTable × Nat × Window) :=
  fun (tables, unparsed, w) => do
    let w ← w.advance
    if w.curr.kind = .rbrace then
      return .inl (some ⟨start, w.curr.offset, tables, unparsed⟩, w)
    else if w.curr.kind = .eof then return .inl (none, w)
    else if w.curr.kind = .lbracket then
      let (table, w) ← w.keyTable
      match table with
      | none => return .inr (tables, unparsed + 1, w)
      | some table => return .inr (tables ++ [table], unparsed, w)
    else return .inr (tables, unparsed, w)

def keymapsBlock (w : Window) : Part (Option Block × Window) := do
  let (opened, w) ← w.expectAll Cursor.blockHeader
  if opened then (entriesTurn w.curr.offset).fix ([], 0, w) else return (none, w)

def findTurn : Window →. (Option Block × Window) ⊕ Window := fun w => do
  if w.curr.kind = .eof then return .inl (none, w)
  else if w.curr.kind = .const then
    let (block, w) ← w.keymapsBlock
    match block with
    | none => return .inr (← w.advance)
    | some block => return .inl (some block, w)
  else return .inr (← w.advance)

def findBlock (w : Window) : Part (Option Block × Window) :=
  findTurn.fix w

end Window

section
variable {α β : Type} (turn : α →. β ⊕ α) (a : α)

theorem fix_of_inl (b : β) (h : turn a = .some (.inl b)) : turn.fix a = .some b := by
  refine Part.eq_some_iff.mpr (PFun.fix_stop ?_)
  rw [h]
  exact Part.mem_some _

theorem fix_of_inr (a' : α) (h : turn a = .some (.inr a')) : turn.fix a = turn.fix a' := by
  refine PFun.fix_fwd_eq ?_
  rw [h]
  exact Part.mem_some _

end

/-! ## What a reader shows -/

/-- What a reader returned, and the window of the cursor that it left. -/
def Parsed.seen {α : Type} (r : Parsed α) : α × Window :=
  (r.value, r.cursor.window)

namespace Cursor

theorem Proper.of_follows {c c' : Cursor} (h : c.Proper) (hc : Follows c' c) : c'.Proper := by
  refine ⟨hc.2 ▸ h.ending, ?_⟩
  intro t ht
  exact h.ahead t (hc.1.subset ht)

theorem Proper.advance {c : Cursor} (h : c.Proper) : c.advance.Proper :=
  h.of_follows (follows_advance c)

theorem next_kind_iff (c : Cursor) (h : c.Proper) (kind : Token.Kind) (hk : kind ≠ .eof) :
    c.next.kind = kind ↔ (c.ahead.tail.head?.map Token.kind) = some kind := by
  unfold next
  cases c.ahead.tail with
  | nil =>
    have hne : c.last.kind ≠ kind := h.ending ▸ hk.symm
    simp [hne]
  | cons t ts => simp

theorem expect_met (kind : Token.Kind) (c : Cursor) (h : c.next.kind = kind) :
    c.expect kind = ⟨true, c.advance, []⟩ := by
  unfold expect expectAll
  rw [if_pos h]
  rfl

theorem expect_unmet (kind : Token.Kind) (c : Cursor) (h : c.next.kind ≠ kind) :
    c.expect kind = ⟨false, c, [.unexpected kind c.next]⟩ := by
  unfold expect expectAll
  rw [if_neg h]

theorem expect_window (kind : Token.Kind) (c : Cursor) (h : c.Proper) :
    c.window.expect kind = .some (c.expect kind).seen := by
  unfold Window.expect
  by_cases hk : c.next.kind = kind
  · rw [expect_met kind c hk]
    simp only [window_next, hk, if_true, advance_window c h, Part.bind_eq_bind, Part.bind_some]
    rfl
  · rw [expect_unmet kind c hk]
    simp only [window_next, hk, if_false]
    rfl

theorem expectAll_window (kinds : List Token.Kind) (c : Cursor) (h : c.Proper) :
    c.window.expectAll kinds = .some (c.expectAll kinds).seen := by
  induction kinds generalizing c with
  | nil => rfl
  | cons kind kinds ih =>
    rw [Window.expectAll, expect_window kind c h, expectAll, Part.bind_eq_bind, Part.bind_some]
    by_cases hk : c.next.kind = kind
    · rw [expect_met kind c hk, if_pos hk]
      exact ih c.advance h.advance
    · rw [expect_unmet kind c hk, if_neg hk]
      rfl

/-! ## Keys -/

/-- What a reader of keys returns when they are read from a list of tokens in front of the ending
token `last`. -/
def settled {α : Type} (last : Token) : Option (α × List Token) → Parsed (Option α)
  | none => ⟨none, ⟨[], last⟩, []⟩
  | some (a, rest) => ⟨some a, ⟨rest, last⟩, []⟩

theorem compoundKey_eq (c : Cursor) :
    c.compoundKey =
      settled c.last ((compoundFrom 0 c.ahead.tail).map fun r => (c.curr.text ++ r.1, r.2)) := by
  unfold compoundKey
  cases compoundFrom 0 c.ahead.tail <;> rfl

theorem keyList_eq (c : Cursor) : c.keyList = settled c.last (keysFrom c.ahead.tail) := by
  unfold keyList
  cases keysFrom c.ahead.tail <;> rfl

theorem compoundTurn_window (parts : Text) (depth : Int) (ts : List Token) (c : Cursor)
    (h : c.Proper) (hts : c.ahead.tail = ts) :
    Window.compoundTurn.fix (parts, depth, c.window) =
      .some (settled c.last ((compoundFrom depth ts).map fun r => (parts ++ r.1, r.2))).seen := by
  have hc : c.advance = ⟨ts, c.last⟩ := by rw [advance, hts]
  induction ts generalizing c parts depth with
  | nil =>
    have hkind : c.advance.curr.kind = .eof := by rw [hc]; exact h.ending
    refine fix_of_inl _ _ _ ?_
    simp only [Window.compoundTurn, advance_window c h, Part.bind_eq_bind, Part.bind_some,
      window_curr, hkind, if_true]
    rw [hc]
    rfl
  | cons t ts ih =>
    have hne : t.kind ≠ .eof := h.advance.ahead t (by rw [hc]; exact List.mem_cons_self)
    have hrest := fun parts depth => ih parts depth c.advance h.advance (by rw [hc]; rfl)
      (by rw [hc]; rfl)
    have hcurr : c.advance.curr = t := by rw [hc]; rfl
    have hturn : Window.compoundTurn (parts, depth, c.window) =
        if t.kind = .comment then .some (.inr (parts, depth, c.advance.window))
        else if t.kind = .rparen ∧ depth + parenStep t.kind = 0 then
          .some (.inl (some (parts ++ t.text), c.advance.window))
        else .some (.inr (parts ++ t.text, depth + parenStep t.kind, c.advance.window)) := by
      simp only [Window.compoundTurn, advance_window c h, Part.bind_eq_bind, Part.bind_some,
        window_curr, hcurr, hne, if_false, Part.pure_eq_some]
    by_cases hcomment : t.kind = .comment
    · rw [if_pos hcomment] at hturn
      rw [fix_of_inr _ _ _ hturn, hrest, compoundFrom_comment depth t ts hcomment]
      rfl
    rw [if_neg hcomment] at hturn
    by_cases hend : t.kind = .rparen ∧ depth + parenStep t.kind = 0
    · rw [if_pos hend] at hturn
      rw [fix_of_inl _ _ _ hturn, compoundFrom_close depth t ts hend, hc]
      rfl
    · rw [if_neg hend] at hturn
      rw [fix_of_inr _ _ _ hturn, hrest, compoundFrom_step depth t ts hcomment hend]
      simp only [Option.map_map, Function.comp_def, List.append_assoc]
      rfl

theorem compoundKey_window (c : Cursor) (h : c.Proper) :
    c.window.compoundKey = .some c.compoundKey.seen := by
  rw [Window.compoundKey, compoundTurn_window _ _ _ c h rfl, compoundKey_eq]
  rfl

theorem follows_compoundKey (c : Cursor) : Follows c.compoundKey.cursor c := by
  unfold compoundKey
  split
  · exact ⟨List.nil_suffix, rfl⟩
  · next s rest hs =>
    obtain ⟨inner, close, after, htail, rfl, -⟩ := compoundFrom_local 0 _ s rest hs
    have hsuffix : close :: after <:+ c.ahead.tail := ⟨inner, htail.symm⟩
    exact ⟨hsuffix.trans (List.tail_suffix _), rfl⟩

theorem keysTurn_window (keys : List Text) (c : Cursor) (h : c.Proper) :
    Window.keysTurn.fix (keys, c.window) =
      .some (settled c.last ((keysFrom c.ahead).map fun r => (keys ++ r.1, r.2))).seen := by
  obtain ⟨ts, last⟩ := c
  induction ts using keysInduction generalizing keys with
  | nil =>
    have hkind : (Cursor.mk [] last).curr.kind = .eof := h.ending
    refine fix_of_inl _ _ _ ?_
    rw [keysFrom]
    simp only [Window.keysTurn, window_curr, hkind, if_true]
    rfl
  | rparen t ts h1 =>
    have hkind : (Cursor.mk (t :: ts) last).curr.kind = .rparen := h1
    refine fix_of_inl _ _ _ ?_
    rw [keysFrom_rparen t ts h1]
    simp only [Window.keysTurn, window_curr, hkind, if_true, Option.map_some, List.append_nil]
    rfl
  | blank t ts h2 ih =>
    have hkind : (Cursor.mk (t :: ts) last).curr.kind = .blank := h2
    have hturn : Window.keysTurn (keys, (Cursor.mk (t :: ts) last).window) =
        .some (.inr (keys ++ [[]], (Cursor.mk ts last).window)) := by
      simp only [Window.keysTurn, window_curr, hkind, if_true, advance_window _ h,
        Part.bind_eq_bind, Part.bind_some]
      rfl
    rw [fix_of_inr _ _ _ hturn, ih (keys ++ [[]]) h.advance, keysFrom_blank t ts h2]
    simp [Option.map_map, Function.comp_def]
  | plain t ts h3 hp ih =>
    have hkind : (Cursor.mk (t :: ts) last).curr.kind = .ident := h3
    have hnext : (Cursor.mk (t :: ts) last).next.kind ≠ .lparen := by
      rw [ne_eq, next_kind_iff _ h _ (by decide)]
      exact hp
    have hturn : Window.keysTurn (keys, (Cursor.mk (t :: ts) last).window) =
        .some (.inr (keys ++ [t.text], (Cursor.mk ts last).window)) := by
      simp only [Window.keysTurn, window_curr, window_next, hkind, if_true, hnext, if_false,
        advance_window _ h, Part.bind_eq_bind, Part.bind_some]
      rfl
    rw [fix_of_inr _ _ _ hturn, ih (keys ++ [t.text]) h.advance, keysFrom_plain t ts h3 hp]
    simp [Option.map_map, Function.comp_def]
  | compound t ts h3 hp ih =>
    have hkind : (Cursor.mk (t :: ts) last).curr.kind = .ident := h3
    have hnext : (Cursor.mk (t :: ts) last).next.kind = .lparen := by
      rw [next_kind_iff _ h _ (by decide)]
      exact hp
    have hkey := compoundKey_window _ h
    have hafter := h.of_follows (follows_compoundKey _)
    simp only [compoundKey_eq, List.tail_cons] at hkey hafter
    rw [keysFrom_compound t ts h3 hp]
    cases hc : compoundFrom 0 ts with
    | none =>
      rw [hc] at hkey
      refine fix_of_inl _ _ _ ?_
      simp only [Window.keysTurn, window_curr, window_next, hkind, if_true, hnext, hkey,
        Part.bind_eq_bind, Part.bind_some]
      rfl
    | some r =>
      rw [hc] at hkey hafter
      have hclosing : (Cursor.mk r.2 last).Proper := hafter
      have hturn : Window.keysTurn (keys, (Cursor.mk (t :: ts) last).window) =
          .some (.inr (keys ++ [t.text ++ r.1], (Cursor.mk r.2 last).advance.window)) := by
        simp only [Window.keysTurn, window_curr, window_next, hkind, if_true, hnext, hkey,
          Part.bind_eq_bind, Part.bind_some, Option.map_some, settled, Parsed.seen,
          advance_window _ hclosing]
        rfl
      rw [fix_of_inr _ _ _ hturn]
      refine (ih r hc (keys ++ [t.text ++ r.1]) hclosing.advance).trans ?_
      simp [Option.map_map, Function.comp_def, settled, Parsed.seen]
  | other t ts h1 h2 h3 ih =>
    have hcurr : (Cursor.mk (t :: ts) last).curr = t := rfl
    have hne : t.kind ≠ .eof := h.ahead t List.mem_cons_self
    have hturn : Window.keysTurn (keys, (Cursor.mk (t :: ts) last).window) =
        .some (.inr (keys, (Cursor.mk ts last).window)) := by
      simp only [Window.keysTurn, window_curr, hcurr, h1, h2, h3, hne, if_false,
        advance_window _ h, Part.bind_eq_bind, Part.bind_some]
      rfl
    rw [fix_of_inr _ _ _ hturn, ih keys h.advance, keysFrom_other t ts h1 h2 h3]

theorem keyList_window (c : Cursor) (h : c.Proper) : c.window.keyList = .some c.keyList.seen := by
  have hloop := keysTurn_window [] c.advance h.advance
  simp only [List.nil_append, Option.map_id'] at hloop
  rw [Window.keyList, advance_window c h, keyList_eq, Part.bind_eq_bind, Part.bind_some]
  exact hloop

/-! ## Tables -/

theorem skipTurn_window (c : Cursor) (h : c.Proper) :
    Window.skipTurn.fix c.window = .some c.skipComments.window := by
  obtain ⟨ts, last⟩ := c
  -- the list is split twice, for what counts is the token behind the current one
  induction ts with
  | nil =>
    have hkind : (Cursor.mk [] last).next.kind = .eof := h.ending
    refine fix_of_inl _ _ _ ?_
    simp only [Window.skipTurn, window_next, hkind]
    rfl
  | cons t ts ih =>
    cases ts with
    | nil =>
      have hkind : (Cursor.mk [t] last).next.kind = .eof := h.ending
      refine fix_of_inl _ _ _ ?_
      simp only [Window.skipTurn, window_next, hkind]
      rfl
    | cons u ts =>
      by_cases hu : u.kind = .comment
      · have hkind : (Cursor.mk (t :: u :: ts) last).next.kind = .comment := hu
        have hturn : Window.skipTurn (Cursor.mk (t :: u :: ts) last).window =
            .some (.inr (Cursor.mk (u :: ts) last).window) := by
          simp only [Window.skipTurn, window_next, hkind, if_true, advance_window _ h,
            Part.bind_eq_bind, Part.bind_some]
          rfl
        rw [fix_of_inr _ _ _ hturn, ih h.advance]
        simp only [skipComments, pastComments, hu, if_true]
      · have hkind : (Cursor.mk (t :: u :: ts) last).next.kind ≠ .comment := hu
        refine fix_of_inl _ _ _ ?_
        simp only [Window.skipTurn, window_next, hkind, if_false, skipComments, pastComments, hu]
        rfl

theorem keyTable_window (c : Cursor) (h : c.Proper) : c.window.keyTable = .some c.keyTable.seen := by
  rw [Window.keyTable, expect_window _ c h, keyTable, tableHeader, expectAll, Part.bind_eq_bind,
    Part.bind_some]
  by_cases hident : c.next.kind = .ident
  · have hopened := expectAll_window [.rbracket, .equals, .layout, .lparen] c.advance h.advance
    have hheader := h.advance.of_follows
      (follows_expectAll [.rbracket, .equals, .layout, .lparen] c.advance)
    rw [expect_met _ c hident, if_pos hident]
    generalize expectAll _ c.advance = header at hopened hheader ⊢
    obtain ⟨value, c', notes⟩ := header
    simp only [Parsed.seen, Part.bind_eq_bind, Part.bind_some, if_true, hopened] at hheader ⊢
    cases value with
    | false => rfl
    | true =>
      have hclose := hheader.of_follows (follows_keyList c')
      simp only [if_true, keyList_window c' hheader, Part.bind_some]
      generalize c'.keyList = list at hclose ⊢
      obtain ⟨keys, close, notes'⟩ := list
      cases keys with
      | none => rfl
      | some keys =>
        have hpast : close.skipComments.Proper := hclose.of_follows (follows_skipComments close)
        simp only [Parsed.seen, skipTurn_window close hclose, Part.bind_some, window_next]
        by_cases hcomma : close.skipComments.next.kind = .comma
        · simp only [hcomma, if_true, advance_window _ hpast, Part.bind_some]
          rfl
        · simp only [hcomma, if_false]
          rfl
  · rw [expect_unmet _ c hident, if_neg hident]
    rfl

/-! ## Blocks -/

theorem follows_entries (start : Nat) (c : Cursor) : Follows (entries start c).cursor c := by
  fun_induction entries start c with
  | case1 | case2 => exact ⟨List.suffix_refl _, rfl⟩
  | case3 c t ts hts hbrace hbracket entry rest block ih =>
    exact ih.trans ((follows_advance _).trans (follows_keyTable c))
  | case4 c t ts hts hbrace hbracket ih => exact ih.trans (follows_advance c)

/-- A block with more tables in front, and more entries that are none. -/
def prepended (tables : List KeyTable) (unparsed : Nat) (b : Block) : Block :=
  { b with tables := tables ++ b.tables, unparsed := unparsed + b.unparsed }

theorem entriesTurn_window (start : Nat) (tables : List KeyTable) (unparsed : Nat) (c c' : Cursor)
    (h : c.Proper) (hc : c.advance = c') :
    (Window.entriesTurn start).fix (tables, unparsed, c.window) =
      .some ((entries start c').value.map (prepended tables unparsed),
        (entries start c').cursor.window) := by
  have hproper : c'.Proper := hc ▸ h.advance
  have hmove : c.window.advance = .some c'.window := by rw [advance_window c h, hc]
  fun_induction entries start c' generalizing c tables unparsed with
  | case1 c' hnil =>
    have hkind : c'.curr.kind = .eof := (curr_eof_iff c' hproper).mpr hnil
    refine fix_of_inl _ _ _ ?_
    simp only [Window.entriesTurn, hmove, Part.bind_eq_bind, Part.bind_some, window_curr, hkind,
      if_true]
    rfl
  | case2 c' t ts hts hbrace =>
    have hcurr := curr_of_ahead c' t ts hts
    refine fix_of_inl _ _ _ ?_
    simp only [Window.entriesTurn, hmove, Part.bind_eq_bind, Part.bind_some, window_curr, hcurr,
      hbrace, if_true]
    simp [prepended]
  | case3 c' t ts hts hbrace hbracket entry rest block ih =>
    have hcurr := curr_of_ahead c' t ts hts
    have htable : c'.window.keyTable = .some (entry.value, entry.cursor.window) :=
      keyTable_window c' hproper
    have hafter : entry.cursor.Proper := hproper.of_follows (follows_keyTable c')
    have hturn : Window.entriesTurn start (tables, unparsed, c.window) =
        match entry.value with
        | none => .some (.inr (tables, unparsed + 1, entry.cursor.window))
        | some table => .some (.inr (tables ++ [table], unparsed, entry.cursor.window)) := by
      simp only [Window.entriesTurn, hmove, Part.bind_eq_bind, Part.bind_some, window_curr, hcurr,
        hbracket, if_true, if_false, reduceCtorEq, htable]
      rfl
    have hnext := fun tables unparsed => ih tables unparsed entry.cursor hafter rfl hafter.advance
      (advance_window _ hafter)
    cases hvalue : entry.value with
    | none =>
      rw [hvalue] at hturn
      rw [fix_of_inr _ _ _ hturn, hnext]
      simp only [block, rest, hvalue, Option.map_map]
      congr 3
      funext b
      simp only [prepended, Function.comp_apply]
      congr 1
      omega
    | some table =>
      rw [hvalue] at hturn
      rw [fix_of_inr _ _ _ hturn, hnext]
      simp only [block, rest, hvalue, Option.map_map]
      congr 3
      funext b
      simp [prepended]
  | case4 c' t ts hts hbrace hbracket ih =>
    have hcurr := curr_of_ahead c' t ts hts
    have hne : t.kind ≠ .eof := hproper.ahead t (hts ▸ List.mem_cons_self)
    have hturn : Window.entriesTurn start (tables, unparsed, c.window) =
        .some (.inr (tables, unparsed, c'.window)) := by
      simp only [Window.entriesTurn, hmove, Part.bind_eq_bind, Part.bind_some, window_curr, hcurr,
        hbrace, hbracket, hne, if_false]
      rfl
    rw [fix_of_inr _ _ _ hturn]
    exact ih tables unparsed c' hproper rfl hproper.advance (advance_window _ hproper)

theorem follows_keymapsBlock (c : Cursor) : Follows (keymapsBlock c).cursor c := by
  unfold keymapsBlock
  dsimp only
  split
  · exact (follows_entries _ _).trans ((follows_advance _).trans (follows_expectAll _ c))
  · exact follows_expectAll _ c

theorem keymapsBlock_window (c : Cursor) (h : c.Proper) :
    c.window.keymapsBlock = .some c.keymapsBlock.seen := by
  have hheader := h.of_follows (follows_expectAll blockHeader c)
  rw [Window.keymapsBlock, expectAll_window blockHeader c h, keymapsBlock, Part.bind_eq_bind,
    Part.bind_some]
  generalize expectAll blockHeader c = header at hheader ⊢
  obtain ⟨value, brace, notes⟩ := header
  cases value with
  | false => rfl
  | true =>
    have hloop := entriesTurn_window brace.curr.offset [] 0 brace _ hheader rfl
    have hsame : prepended [] 0 = id := by
      funext b
      simp [prepended]
    rw [hsame, Option.map_id] at hloop
    exact hloop

theorem follows_findBlock (c : Cursor) : Follows (findBlock c).cursor c := by
  fun_induction findBlock c with
  | case1 => exact ⟨List.suffix_refl _, rfl⟩
  | case2 c t ts hts hconst attempt block hvalue => exact follows_keymapsBlock c
  | case3 c t ts hts hconst attempt hvalue rest ih =>
    exact ih.trans ((follows_advance _).trans (follows_keymapsBlock c))
  | case4 c t ts hts hconst ih => exact ih.trans (follows_advance c)

theorem findBlock_window (c : Cursor) (h : c.Proper) :
    c.window.findBlock = .some c.findBlock.seen := by
  unfold Window.findBlock
  fun_induction findBlock c with
  | case1 c hnil =>
    have hkind : c.curr.kind = .eof := (curr_eof_iff c h).mpr hnil
    refine fix_of_inl _ _ _ ?_
    simp only [Window.findTurn, window_curr, hkind, if_true]
    rfl
  | case2 c t ts hts hconst attempt block hvalue =>
    have hkind : c.curr.kind = .const := curr_of_ahead c t ts hts ▸ hconst
    have hattempt : c.window.keymapsBlock = .some (attempt.value, attempt.cursor.window) :=
      keymapsBlock_window c h
    rw [hvalue] at hattempt
    refine fix_of_inl _ _ _ ?_
    simp only [Window.findTurn, window_curr, hkind, if_true, if_false, reduceCtorEq, hattempt,
      Part.bind_eq_bind, Part.bind_some]
    rfl
  | case3 c t ts hts hconst attempt hvalue rest ih =>
    have hkind : c.curr.kind = .const := curr_of_ahead c t ts hts ▸ hconst
    have hattempt : c.window.keymapsBlock = .some (attempt.value, attempt.cursor.window) :=
      keymapsBlock_window c h
    have hafter : attempt.cursor.Proper := h.of_follows (follows_keymapsBlock c)
    rw [hvalue] at hattempt
    have hturn : Window.findTurn c.window = .some (.inr attempt.cursor.advance.window) := by
      simp only [Window.findTurn, window_curr, hkind, if_true, if_false, reduceCtorEq, hattempt,
        Part.bind_eq_bind, Part.bind_some, advance_window _ hafter]
      rfl
    rw [fix_of_inr _ _ _ hturn]
    exact ih hafter.advance
  | case4 c t ts hts hconst ih =>
    have hcurr := curr_of_ahead c t ts hts
    have hne : t.kind ≠ .eof := h.ahead t (hts ▸ List.mem_cons_self)
    have hturn : Window.findTurn c.window = .some (.inr c.advance.window) := by
      simp only [Window.findTurn, window_curr, hcurr, hconst, hne, if_false, advance_window c h,
        Part.bind_eq_bind, Part.bind_some]
      rfl
    rw [fix_of_inr _ _ _ hturn]
    exact ih h.advance

end Cursor
end KeyTables
