import Mathlib.Logic.Relation
import KeyTables.Proofs.Block.Pulling

/-! A compound key is the shortest balanced piece of the tokens.

* `openCount`: how many more parentheses some tokens open than they close.
* `ClosesAt`: a closing parenthesis leaves none open.
* `closesAt_of_compoundFrom`, `compoundFrom_none_iff`: a compound key is read up to the first such
  parenthesis, and not at all if there is none.
* `open_before_close`: before it some parenthesis is always open.
* `KeyTurn`, `keysFrom_of_run`: one turn of the loop over a list of keys, and many.
* `compoundKey_shortest`: what is read, where the cursor is left, and what becomes of the list and the
  table around a key that is never closed. -/
namespace KeyTables.Cursor
set_option autoImplicit false

/-! ## Parentheses -/

def openCount (ts : List Token) : Int :=
  (ts.countP (·.kind = .lparen) : Int) - (ts.countP (·.kind = .rparen) : Int)

/-- With `depth` parentheses open in front of the tokens, the one at `j` closes the last of them. -/
def ClosesAt (depth : Int) (ts : List Token) (j : Nat) : Prop :=
  ts[j]?.map Token.kind = some .rparen ∧ depth + openCount (ts.take (j + 1)) = 0

/-- The texts of the tokens, comments left out. -/
def gluedText (ts : List Token) : Text :=
  (ts.filter fun t => t.kind ≠ .comment).flatMap Token.text

theorem openCount_append (ts us : List Token) :
    openCount (ts ++ us) = openCount ts + openCount us := by
  simp only [openCount, List.countP_append, Int.natCast_add]
  omega

theorem openCount_singleton (t : Token) : openCount [t] = parenStep t.kind := by
  rw [openCount, List.countP_singleton, List.countP_singleton]
  cases t.kind with
  | _ => rfl

theorem openCount_cons (t : Token) (ts : List Token) :
    openCount (t :: ts) = parenStep t.kind + openCount ts := by
  rw [← List.singleton_append, openCount_append, openCount_singleton]

theorem gluedText_nil : gluedText [] = [] := rfl

theorem gluedText_cons (t : Token) (ts : List Token) :
    gluedText (t :: ts) = (if t.kind = .comment then [] else t.text) ++ gluedText ts := by
  unfold gluedText
  by_cases h : t.kind = .comment
  · rw [List.filter_cons_of_neg (by simp [h]), if_pos h, List.nil_append]
  · rw [List.filter_cons_of_pos (by simp [h]), if_neg h, List.flatMap_cons]

theorem cons_of_head (kind : Token.Kind) (ts : List Token) (h : ts.head?.map Token.kind = some kind) :
    ∃ t us, ts = t :: us ∧ t.kind = kind := by
  obtain ⟨t, hhead, ht⟩ := Option.map_eq_some_iff.mp h
  obtain ⟨us, rfl⟩ := List.head?_eq_some_iff.mp hhead
  exact ⟨t, us, rfl, ht⟩

theorem closesAt_zero (depth : Int) (t : Token) (ts : List Token) :
    ClosesAt depth (t :: ts) 0 ↔ t.kind = .rparen ∧ depth + parenStep t.kind = 0 := by
  rw [ClosesAt, List.take_succ_cons, List.take_zero, openCount_singleton]
  simp

theorem closesAt_succ (depth : Int) (t : Token) (ts : List Token) (j : Nat) :
    ClosesAt depth (t :: ts) (j + 1) ↔ ClosesAt (depth + parenStep t.kind) ts j := by
  rw [ClosesAt, ClosesAt, List.take_succ_cons, openCount_cons, Int.add_assoc, List.getElem?_cons_succ]

/-! ## Reading -/

/-- A token that does not close all is passed over, with its text if it is no comment. -/
theorem compoundFrom_behind (depth : Int) (t : Token) (ts : List Token)
    (h : ¬ (t.kind = .rparen ∧ depth + parenStep t.kind = 0)) :
    compoundFrom depth (t :: ts) = (compoundFrom (depth + parenStep t.kind) ts).map fun r =>
      ((if t.kind = .comment then [] else t.text) ++ r.1, r.2) := by
  by_cases hcomment : t.kind = .comment
  · have hstep : depth + parenStep t.kind = depth := by
      rw [hcomment]
      exact Int.add_zero depth
    simp only [compoundFrom_comment depth t ts hcomment, hstep, if_pos hcomment, List.nil_append,
      Option.map_id']
  · simp only [compoundFrom_step depth t ts hcomment h, if_neg hcomment]

theorem closesAt_of_compoundFrom (depth : Int) (ts : List Token) (s : Text) (rest : List Token)
    (h : compoundFrom depth ts = some (s, rest)) :
    ∃ j, ClosesAt depth ts j ∧ (∀ i < j, ¬ ClosesAt depth ts i) ∧ s = gluedText (ts.take (j + 1)) ∧
      rest = ts.drop j := by
  induction ts generalizing depth s with
  | nil => simp [compoundFrom] at h
  | cons t ts ih =>
    by_cases hend : t.kind = .rparen ∧ depth + parenStep t.kind = 0
    · rw [compoundFrom_close depth t ts hend, Option.some.injEq, Prod.mk.injEq] at h
      obtain ⟨rfl, rfl⟩ := h
      refine ⟨0, (closesAt_zero depth t ts).mpr hend, by simp, ?_, rfl⟩
      rw [List.take_succ_cons, List.take_zero, gluedText_cons, if_neg (by simp [hend.1]),
        gluedText_nil, List.append_nil]
    · rw [compoundFrom_behind depth t ts hend, Option.map_eq_some_iff] at h
      obtain ⟨⟨s', rest'⟩, hs, he⟩ := h
      obtain ⟨rfl, rfl⟩ := Prod.mk.inj he
      obtain ⟨j, hat, hfirst, htext, hrest⟩ := ih _ s' hs
      refine ⟨j + 1, (closesAt_succ depth t ts j).mpr hat, ?_, ?_, hrest⟩
      · intro i hi
        cases i with
        | zero => exact fun hzero => hend ((closesAt_zero depth t ts).mp hzero)
        | succ i =>
          rw [closesAt_succ]
          exact hfirst i (by omega)
      · rw [List.take_succ_cons, gluedText_cons, htext]

theorem compoundFrom_none_iff (depth : Int) (ts : List Token) :
    compoundFrom depth ts = none ↔ ∀ j, ¬ ClosesAt depth ts j := by
  constructor
  · intro h j
    induction ts generalizing depth j with
    | nil => simp [ClosesAt]
    | cons t ts ih =>
      by_cases hend : t.kind = .rparen ∧ depth + parenStep t.kind = 0
      · rw [compoundFrom_close depth t ts hend] at h
        exact absurd h (by simp)
      rw [compoundFrom_behind depth t ts hend, Option.map_eq_none_iff] at h
      cases j with
      | zero => exact fun hzero => hend ((closesAt_zero depth t ts).mp hzero)
      | succ j =>
        rw [closesAt_succ]
        exact ih _ h j
  · intro h
    rw [Option.eq_none_iff_forall_ne_some]
    rintro ⟨s, rest⟩ hs
    obtain ⟨j, hat, -⟩ := closesAt_of_compoundFrom depth ts s rest hs
    exact h j hat

/-- The number of open parentheses falls by one at most, and only at one that closes. -/
theorem open_before_close (ts : List Token) (hopen : ts.head?.map Token.kind = some .lparen)
    (j : Nat) (hfirst : ∀ i < j, ¬ ClosesAt 0 ts i) (i : Nat) (hi : i < j) (hlen : i < ts.length) :
    0 < openCount (ts.take (i + 1)) := by
  induction i with
  | zero =>
    obtain ⟨t, us, rfl, ht⟩ := cons_of_head .lparen ts hopen
    rw [List.take_succ_cons, List.take_zero, openCount_singleton, ht]
    decide
  | succ i ih =>
    have hbefore := ih (by omega) (by omega)
    have hnot := hfirst (i + 1) hi
    have hat : ts[i + 1]? = some ts[i + 1] := List.getElem?_eq_getElem hlen
    have hstep : openCount (ts.take (i + 1 + 1)) =
        openCount (ts.take (i + 1)) + parenStep ts[i + 1].kind := by
      rw [List.take_add_one (i := i + 1), hat, openCount_append, Option.toList_some,
        openCount_singleton]
    rw [ClosesAt, hat, Option.map_some, Option.some.injEq, Int.zero_add, hstep] at hnot
    rw [hstep]
    cases hkind : ts[i + 1].kind with
    | rparen =>
      rw [hkind] at hnot
      have hne : openCount (ts.take (i + 1)) + parenStep .rparen ≠ 0 := fun h => hnot ⟨rfl, h⟩
      simp only [parenStep] at hne ⊢
      omega
    | _ =>
      simp only [parenStep]
      omega

/-! ## Lists and tables around a key -/

/-- One turn of the loop over a list of keys that goes on with the next. -/
inductive KeyTurn : Cursor → Cursor → Prop
  | single (c : Cursor) (h1 : c.curr.kind ≠ .rparen) (h2 : c.curr.kind ≠ .eof)
    (h3 : ¬ (c.curr.kind = .ident ∧ c.next.kind = .lparen)) : KeyTurn c c.advance
  | compound (c : Cursor) (key : Text) (h1 : c.curr.kind = .ident) (h2 : c.next.kind = .lparen)
    (h3 : c.compoundKey.value = some key) : KeyTurn c c.compoundKey.cursor.advance

theorem keysFrom_nil : keysFrom [] = none := by rw [keysFrom]

theorem keysFrom_on_compound (c : Cursor) (hcurr : c.curr.kind = .ident)
    (hnext : c.next.kind = .lparen) :
    keysFrom c.ahead = (compoundFrom 0 c.ahead.tail).bind fun key =>
      (keysFrom key.2.tail).map fun r => ((c.curr.text ++ key.1) :: r.1, r.2) := by
  obtain ⟨ahead, last⟩ := c
  rcases ahead with _ | ⟨t, _ | ⟨u, ts⟩⟩
  · exact keysFrom_nil
  · -- the parenthesis would be the ending token
    rw [keysFrom_plain t [] hcurr (by simp), keysFrom_nil]
    rfl
  · exact keysFrom_compound t (u :: ts) hcurr (congrArg some hnext)

/-- A turn adds some keys in front of those that are still to come. -/
theorem KeyTurn.keysFrom_eq {c c' : Cursor} (h : KeyTurn c c') : ∃ keys : List Text,
    keysFrom c.ahead = (keysFrom c'.ahead).map fun r => (keys ++ r.1, r.2) := by
  cases h with
  | single h1 h2 h3 =>
    obtain ⟨ahead, last⟩ := c
    cases ahead with
    | nil => exact ⟨[], by simp only [advance, List.tail_nil, keysFrom_nil, Option.map_none]⟩
    | cons t ts =>
      by_cases hblank : t.kind = .blank
      · exact ⟨[[]], keysFrom_blank t ts hblank⟩
      by_cases hident : t.kind = .ident
      · have hplain : ts.head?.map Token.kind ≠ some .lparen := by
          intro hopen
          obtain ⟨u, us, rfl, hu⟩ := cons_of_head .lparen ts hopen
          exact h3 ⟨hident, hu⟩
        exact ⟨[t.text], keysFrom_plain t ts hident hplain⟩
      · exact ⟨[], (keysFrom_other t ts h1 hblank hident).trans Option.map_id'.symm⟩
  | compound key h1 h2 h3 =>
    rw [keysFrom_on_compound c h1 h2, compoundKey_eq]
    cases hkey : compoundFrom 0 c.ahead.tail with
    | none =>
      rw [compoundKey_eq, hkey] at h3
      exact absurd h3 (by simp [settled])
    | some r => exact ⟨[c.curr.text ++ r.1], rfl⟩

theorem keysFrom_of_run {c c' : Cursor} (h : Relation.ReflTransGen KeyTurn c c') :
    ∃ keys : List Text, keysFrom c.ahead = (keysFrom c'.ahead).map fun r => (keys ++ r.1, r.2) := by
  induction h using Relation.ReflTransGen.head_induction_on with
  | refl => exact ⟨[], Option.map_id'.symm⟩
  | head hturn _ ih =>
    obtain ⟨key, hkey⟩ := hturn.keysFrom_eq
    obtain ⟨keys, hkeys⟩ := ih
    refine ⟨key ++ keys, ?_⟩
    rw [hkey, hkeys, Option.map_map]
    simp only [Function.comp_def, List.append_assoc]

theorem keyList_none (a : Cursor) (h : keysFrom a.advance.ahead = none) :
    a.keyList = ⟨none, a.exhausted, []⟩ := by
  have htail : keysFrom a.ahead.tail = none := h
  rw [keyList_eq, htail]
  rfl

theorem keyTable_none (a : Cursor) (h : (expectAll tableHeader a).cursor.keyList.value = none) :
    a.keyTable.value = none := by
  unfold keyTable
  simp only [h]
  split <;> rfl

/-- A compound key is read if and only if a parenthesis closes the one behind its name. It is made of
the tokens up to the first that does, without the comments, and the cursor is left there; before it
some parenthesis is open all along. Otherwise the cursor is left on the ending token, and no list and
no table that comes to this key is read. -/
theorem compoundKey_shortest (c : Cursor) (h : c.Proper) (hcurr : c.curr.kind = .ident)
    (hnext : c.next.kind = .lparen) :
    ((∃ s, c.compoundKey.value = some s) ↔ ∃ j, ClosesAt 0 c.ahead.tail j) ∧
    (∀ s, c.compoundKey.value = some s → ∃ j, ClosesAt 0 c.ahead.tail j ∧
      s = gluedText (c.curr :: c.ahead.tail.take (j + 1)) ∧
      c.compoundKey.cursor = ⟨c.ahead.tail.drop j, c.last⟩ ∧
      ∀ i < j, 0 < openCount (c.ahead.tail.take (i + 1))) ∧
    (c.compoundKey.value = none → c.compoundKey.cursor.curr.kind = .eof ∧
      (∀ a : Cursor, Relation.ReflTransGen KeyTurn a.advance c → a.keyList.value = none) ∧
      ∀ a : Cursor, Relation.ReflTransGen KeyTurn (expectAll tableHeader a).cursor.advance c →
        a.keyTable.value = none) := by
  have hopen := (next_kind_iff c h .lparen (by decide)).mp hnext
  rw [compoundKey_eq]
  cases hc : compoundFrom 0 c.ahead.tail with
  | none =>
    have hlist : ∀ a : Cursor, Relation.ReflTransGen KeyTurn a.advance c → a.keyList.value = none := by
      intro a hrun
      obtain ⟨keys, hkeys⟩ := keysFrom_of_run hrun
      rw [keysFrom_on_compound c hcurr hnext, hc, Option.bind_none, Option.map_none] at hkeys
      rw [keyList_none a hkeys]
    refine ⟨?_, ?_, fun _ => ⟨h.ending, hlist, fun a hrun => keyTable_none a (hlist _ hrun)⟩⟩
    · refine iff_of_false (by simp [settled]) ?_
      rintro ⟨j, hat⟩
      exact (compoundFrom_none_iff 0 _).mp hc j hat
    · intro s hs
      simp [settled] at hs
  | some r =>
    obtain ⟨s, rest⟩ := r
    obtain ⟨j, hat, hfirst, rfl, rfl⟩ := closesAt_of_compoundFrom 0 _ s rest hc
    refine ⟨iff_of_true ⟨_, rfl⟩ ⟨j, hat⟩, ?_, fun hnone => by simp [settled] at hnone⟩
    intro s' hs
    refine ⟨j, hat, ?_, rfl, ?_⟩
    · rw [gluedText_cons, if_neg (by rw [hcurr]; decide)]
      exact (Option.some.inj hs).symm
    · intro i hi
      have hj : j < c.ahead.tail.length := by
        obtain ⟨t, ht, -⟩ := Option.map_eq_some_iff.mp hat.1
        exact (List.getElem?_eq_some_iff.mp ht).1
      exact open_before_close _ hopen j hfirst i hi (by omega)

/-- A keyword and a comment with a parenthesis between the ones that count. -/
def nestedKey : Cursor :=
  start (encode "MO(L1 // )\n (const _)) )".toList)

def unclosedTable : Cursor :=
  start (encode "[A] = LAYOUT(B, MO(L1".toList)

/-- The first key of the table. Its second key is never closed. -/
def firstKey : Cursor :=
  (expectAll tableHeader unclosedTable).cursor.advance

def unclosedKey : Cursor :=
  firstKey.advance.advance

theorem compoundKey_shortest_nested :
    (∃ j, ClosesAt 0 nestedKey.ahead.tail j ∧
      "MO(L1(const_))".toList = gluedText (nestedKey.curr :: nestedKey.ahead.tail.take (j + 1)) ∧
      nestedKey.compoundKey.cursor = ⟨nestedKey.ahead.tail.drop j, nestedKey.last⟩ ∧
      ∀ i < j, 0 < openCount (nestedKey.ahead.tail.take (i + 1))) ∧
    (¬ ∃ j, ClosesAt 0 unclosedKey.ahead.tail j) ∧
    unclosedKey.compoundKey.cursor.curr.kind = .eof ∧ unclosedTable.keyTable.value = none := by
  have hheader : (expectAll tableHeader unclosedTable).cursor.Proper :=
    (proper_start _).of_follows (follows_expectAll tableHeader _)
  have hproper : unclosedKey.Proper := hheader.advance.advance.advance
  obtain ⟨-, hread, -⟩ := compoundKey_shortest nestedKey (proper_start _) (by decide +kernel)
    (by decide +kernel)
  obtain ⟨hiff, -, hunread⟩ := compoundKey_shortest unclosedKey hproper (by decide +kernel)
    (by decide +kernel)
  have hnone : unclosedKey.compoundKey.value = none := by decide +kernel
  obtain ⟨hend, -, htable⟩ := hunread hnone
  refine ⟨hread _ (by decide +kernel), ?_, hend, ?_⟩
  · intro hcloses
    obtain ⟨s, hs⟩ := hiff.mpr hcloses
    rw [hnone] at hs
    exact absurd hs (by simp)
  · have hfirst : KeyTurn firstKey firstKey.advance :=
      .single _ (by decide +kernel) (by decide +kernel) (by decide +kernel)
    have hcomma : KeyTurn firstKey.advance unclosedKey :=
      .single _ (by decide +kernel) (by decide +kernel) (by decide +kernel)
    exact htable _ ((Relation.ReflTransGen.single hfirst).tail hcomma)

end KeyTables.Cursor
