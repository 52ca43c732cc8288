import KeyTables.Block.Parser

/-! Finding the opening brace of a block. The search settles on the first header, and what follows
the brace has no part in it.

* `Opens`: tokens that lead to a block, whatever follows them.
* `opens_of_findBlock`: a block that was found starts with such tokens. -/
namespace KeyTables.Cursor
set_option autoImplicit false

/-! ## Tokens of given kinds -/

theorem expectAll_match (us rest : List Token) (t last : Token) :
    expectAll (us.map Token.kind) ⟨t :: (us ++ rest), last⟩ =
      ⟨true, ⟨us.getLastD t :: rest, last⟩, []⟩ := by
  induction us generalizing t with
  | nil => rfl
  | cons u us ih =>
    have hnext : next ⟨t :: (u :: us ++ rest), last⟩ = u := rfl
    rw [List.map_cons, expectAll, if_pos (by rw [hnext]), List.getLastD_cons]
    exact ih u

theorem expectAll_mismatch (us rest : List Token) (k : Token.Kind) (ks : List Token.Kind)
    (t x last : Token) (hx : x.kind ≠ k) :
    expectAll (us.map Token.kind ++ k :: ks) ⟨t :: (us ++ x :: rest), last⟩ =
      ⟨false, ⟨us.getLastD t :: x :: rest, last⟩, [.unexpected k x]⟩ := by
  induction us generalizing t with
  | nil =>
    have hnext : next ⟨t :: x :: rest, last⟩ = x := rfl
    rw [List.map_nil, List.nil_append, List.nil_append, expectAll, hnext, if_neg hx]
    rfl
  | cons u us ih =>
    have hnext : next ⟨t :: (u :: us ++ x :: rest), last⟩ = u := rfl
    rw [List.map_cons, List.cons_append, expectAll, if_pos (by rw [hnext]), List.getLastD_cons]
    exact ih u

theorem expectAll_short (us : List Token) (k : Token.Kind) (ks : List Token.Kind)
    (t last : Token) (hlast : last.kind ≠ k) :
    expectAll (us.map Token.kind ++ k :: ks) ⟨t :: us, last⟩ =
      ⟨false, ⟨[us.getLastD t], last⟩, [.unexpected k last]⟩ := by
  induction us generalizing t with
  | nil =>
    have hnext : next ⟨[t], last⟩ = last := rfl
    rw [List.map_nil, List.nil_append, expectAll, hnext, if_neg hlast]
    rfl
  | cons u us ih =>
    have hnext : next ⟨t :: u :: us, last⟩ = u := rfl
    rw [List.map_cons, List.cons_append, expectAll, if_pos (by rw [hnext]), List.getLastD_cons]
    exact ih u

/-- Tokens that end before all kinds are there. -/
theorem expectAll_ending (us : List Token) (kinds : List Token.Kind) (k : Token.Kind)
    (ks : List Token.Kind) (t : Token) (n : Nat) (hk : kinds = us.map Token.kind ++ k :: ks)
    (heof : .eof ∉ kinds) :
    expectAll kinds ⟨t :: us, .ending n⟩ =
      ⟨false, ⟨[us.getLastD t], .ending n⟩, [.unexpected k (.ending n)]⟩ := by
  rw [hk]
  refine expectAll_short us k ks t (.ending n) ?_
  intro he
  apply heof
  rw [hk]
  exact List.mem_append_right _ (he ▸ List.mem_cons_self)

/-- Tokens start with the given kinds, or differ from them somewhere, or are too few. -/
theorem kinds_cases (kinds : List Token.Kind) (ts : List Token) :
    (∃ us rest, ts = us ++ rest ∧ us.map Token.kind = kinds) ∨
    (∃ us k ks x rest, kinds = us.map Token.kind ++ k :: ks ∧ ts = us ++ x :: rest ∧ x.kind ≠ k) ∨
    ∃ k ks, kinds = ts.map Token.kind ++ k :: ks := by
  induction kinds generalizing ts with
  | nil => exact Or.inl ⟨[], ts, rfl, rfl⟩
  | cons k kinds ih =>
    cases ts with
    | nil => exact Or.inr (Or.inr ⟨k, kinds, rfl⟩)
    | cons t ts =>
      by_cases ht : t.kind = k
      · subst ht
        rcases ih ts with ⟨us, rest, rfl, rfl⟩ | ⟨us, k, ks, x, rest, rfl, rfl, hx⟩ | ⟨k, ks, rfl⟩
        · exact Or.inl ⟨t :: us, rest, rfl, rfl⟩
        · exact Or.inr (Or.inl ⟨t :: us, k, ks, x, rest, rfl, rfl, hx⟩)
        · exact Or.inr (Or.inr ⟨k, ks, rfl⟩)
      · exact Or.inr (Or.inl ⟨[], k, kinds, t, ts, rfl, rfl, ht⟩)

/-! ## The search -/

theorem entries_start (start : Nat) (c : Cursor) (b : Block)
    (h : (entries start c).value = some b) : b.start = start := by
  fun_induction entries start c generalizing b with
  | case1 => simp at h
  | case2 =>
    simp only [Option.some.injEq] at h
    rw [← h]
  | case3 c t ts _ _ _ entry rest block ih =>
    simp only [block] at h
    split at h
    · obtain ⟨b', hb', rfl⟩ := Option.map_eq_some_iff.mp h
      exact ih b' hb'
    · obtain ⟨b', hb', rfl⟩ := Option.map_eq_some_iff.mp h
      exact ih b' hb'
  | case4 c t ts _ _ _ ih => exact ih b h

/-- A block that is never closed takes all tokens. -/
theorem ahead_of_entries_none (start : Nat) (c : Cursor) (h : (entries start c).value = none) :
    (entries start c).cursor.ahead = [] := by
  fun_induction entries start c with
  | case1 c hc => exact hc
  | case2 => simp at h
  | case3 c t ts _ _ _ entry rest block ih =>
    refine ih ?_
    simp only [block] at h
    split at h <;> simpa using h
  | case4 c t ts _ _ _ ih => exact ih h

theorem findBlock_skip (t last : Token) (ts : List Token) (h : t.kind ≠ .const) :
    findBlock ⟨t :: ts, last⟩ = findBlock ⟨ts, last⟩ := by
  rw [findBlock]
  simp only [h, if_false]
  rfl

theorem findBlock_const (t last : Token) (ts : List Token) (h : t.kind = .const) :
    (findBlock ⟨t :: ts, last⟩).value = (keymapsBlock ⟨t :: ts, last⟩).value.or
      (findBlock (keymapsBlock ⟨t :: ts, last⟩).cursor.advance).value := by
  rw [findBlock]
  simp only [h, if_true]
  cases hb : (keymapsBlock ⟨t :: ts, last⟩).value with
  | none => rfl
  | some b => rfl

theorem findBlock_nil (last : Token) : (findBlock ⟨[], last⟩).value = none := by
  rw [findBlock]

theorem keymapsBlock_header (t : Token) (us after : List Token) (n : Nat)
    (hus : us.map Token.kind = blockHeader) :
    keymapsBlock ⟨t :: (us ++ after), .ending n⟩ =
      entries (us.getLastD t).offset ⟨after, .ending n⟩ := by
  have hheader := expectAll_match us after t (.ending n)
  rw [hus] at hheader
  rw [keymapsBlock, hheader]
  rfl

/-- A block behind its header is found as it is read. -/
theorem findBlock_header (t : Token) (us after : List Token) (n : Nat) (b : Block)
    (ht : t.kind = .const) (hus : us.map Token.kind = blockHeader)
    (h : (entries (us.getLastD t).offset ⟨after, .ending n⟩).value = some b) :
    findBlock ⟨t :: (us ++ after), .ending n⟩ =
      entries (us.getLastD t).offset ⟨after, .ending n⟩ := by
  rw [findBlock]
  simp only [ht, if_true, keymapsBlock_header t us after n hus, h]
  rw [← h]

/-- The tokens lead to a block that opens at `start`, whatever follows them. -/
def Opens (before : List Token) (start : Nat) : Prop :=
  ∀ after n, (findBlock ⟨before ++ after, .ending n⟩).value =
    (entries start ⟨after, .ending n⟩).value

theorem Opens.skip {before : List Token} {start : Nat} (h : Opens before start) (t : Token)
    (ht : t.kind ≠ .const) : Opens (t :: before) start := by
  intro after n
  rw [List.cons_append, findBlock_skip t _ _ ht]
  exact h after n

theorem opens_header (t : Token) (us : List Token) (ht : t.kind = .const)
    (hus : us.map Token.kind = blockHeader) : Opens (t :: us) (us.getLastD t).offset := by
  intro after n
  rw [List.cons_append, findBlock_const t _ _ ht, keymapsBlock_header t us after n hus]
  cases hb : (entries (us.getLastD t).offset ⟨after, .ending n⟩).value with
  | some b => rfl
  | none =>
    have hend := ahead_of_entries_none _ _ hb
    rw [Option.none_or, advance, hend, List.tail_nil, findBlock_nil]

/-- A first word whose header breaks off at `x` is passed over, with the tokens up to `x`. -/
theorem Opens.mismatch {before : List Token} {start : Nat} (x : Token)
    (h : Opens (x :: before) start) (t : Token) (us : List Token) (ht : t.kind = .const)
    (k : Token.Kind) (ks : List Token.Kind) (hk : blockHeader = us.map Token.kind ++ k :: ks)
    (hx : x.kind ≠ k) : Opens (t :: (us ++ x :: before)) start := by
  intro after n
  have hheader := expectAll_mismatch us (before ++ after) k ks t x (.ending n) hx
  rw [← hk] at hheader
  have happ : t :: (us ++ x :: before) ++ after = t :: (us ++ x :: (before ++ after)) := by simp
  rw [happ, findBlock_const t _ _ ht, keymapsBlock, hheader]
  exact h after n

theorem opens_of_findBlock (ts : List Token) (n : Nat) (b : Block)
    (h : (findBlock ⟨ts, .ending n⟩).value = some b) :
    ∃ before brace after, ts = before ++ brace :: after ∧ brace.kind = .lbrace ∧
      brace.offset = b.start ∧ Opens (before ++ [brace]) b.start ∧
      (entries b.start ⟨after, .ending n⟩).value = some b := by
  induction hn : ts.length using Nat.strongRecOn generalizing ts with
  | ind m ih =>
    cases ts with
    | nil =>
      rw [findBlock_nil] at h
      simp at h
    | cons t ts =>
      rw [List.length_cons] at hn
      by_cases ht : t.kind = .const
      · rcases kinds_cases blockHeader ts with ⟨us, rest, rfl, hus⟩ |
          ⟨us, k, ks, x, rest, hk, rfl, hx⟩ | ⟨k, ks, hk⟩
        · have hopens := opens_header t us ht hus
          have hentries := (hopens rest n).symm.trans h
          have hstart := entries_start _ _ _ hentries
          obtain ⟨us', brace, rfl⟩ : ∃ us' brace, us = us' ++ [brace] := by
            rcases List.eq_nil_or_concat us with rfl | ⟨us', brace, rfl⟩
            · simp [blockHeader] at hus
            · exact ⟨us', brace, by simp⟩
          have hbrace : brace.kind = .lbrace := by
            have := congrArg List.getLast? hus
            simpa [blockHeader] using this
          simp only [List.getLastD_concat] at hopens hentries hstart
          rw [← hstart] at hopens hentries
          exact ⟨t :: us', brace, rest, by simp, hbrace, hstart.symm, hopens, hentries⟩
        · have hheader := expectAll_mismatch us rest k ks t x (.ending n) hx
          rw [← hk] at hheader
          rw [findBlock_const t _ _ ht, keymapsBlock, hheader] at h
          rw [List.length_append, List.length_cons] at hn
          obtain ⟨before, brace, after, hts, hbrace, hoff, hopens, hentries⟩ :=
            ih (x :: rest).length (by rw [List.length_cons]; omega) (x :: rest) h rfl
          refine ⟨t :: (us ++ before), brace, after, by simp [hts], hbrace, hoff, ?_, hentries⟩
          cases before with
          | nil =>
            obtain ⟨rfl, rfl⟩ := List.cons.inj hts
            have := Opens.mismatch x hopens t us ht k ks hk hx
            simpa using this
          | cons y before =>
            obtain ⟨rfl, rfl⟩ := List.cons.inj hts
            have := Opens.mismatch x hopens t us ht k ks hk hx
            simpa using this
        · rw [findBlock_const t _ _ ht, keymapsBlock,
            expectAll_ending ts blockHeader k ks t n hk (by decide)] at h
          simp only [Bool.false_eq_true, if_false, Option.none_or, advance, List.tail_cons,
            findBlock_nil] at h
          simp at h
      · rw [findBlock_skip t _ _ ht] at h
        obtain ⟨before, brace, after, rfl, hbrace, hoff, hopens, hentries⟩ :=
          ih ts.length (by omega) ts h rfl
        exact ⟨t :: before, brace, after, rfl, hbrace, hoff, hopens.skip t ht, hentries⟩

end KeyTables.Cursor
