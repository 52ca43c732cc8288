import KeyTables.Proofs.Block.Header
import KeyTables.Proofs.Block.KeyReading

/-! The entries of a block, one after the other.

* `PieceTokens`: the tokens of one table with what stands in front of it, up to its closing
  parenthesis or the comma that belongs to it.
* `entries_piece`: such tokens put their table in front of the tables that follow.
* `entries_cases`: the entries of a block without faults are a closing brace, or such tokens and
  the entries after them. -/
namespace KeyTables.Cursor
set_option autoImplicit false

/-! ## Gaps and commas -/

/-- Tokens that are passed over between entries. -/
def IsGap (ts : List Token) : Prop :=
  ∀ t ∈ ts, t.kind ≠ .lbracket ∧ t.kind ≠ .rbrace

def isComment (t : Token) : Bool :=
  t.kind == .comment

/-- Whether the first token that is no comment is a comma. -/
def startsComma : List Token → Bool
  | [] => false
  | t :: ts => if isComment t then startsComma ts else t.kind == .comma

theorem entries_skip (start : Nat) (t last : Token) (ts : List Token) (h1 : t.kind ≠ .lbracket)
    (h2 : t.kind ≠ .rbrace) : entries start ⟨t :: ts, last⟩ = entries start ⟨ts, last⟩ := by
  rw [entries]
  simp only [h1, h2, if_false]
  rfl

theorem entries_gap (start : Nat) (last : Token) (gap ts : List Token) (h : IsGap gap) :
    entries start ⟨gap ++ ts, last⟩ = entries start ⟨ts, last⟩ := by
  induction gap with
  | nil => rfl
  | cons t gap ih =>
    obtain ⟨h1, h2⟩ := h t List.mem_cons_self
    rw [List.cons_append, entries_skip start t last _ h1 h2,
      ih (fun x hx => h x (List.mem_cons_of_mem t hx))]

theorem isGap_comments (ts : List Token) (h : ∀ t ∈ ts, isComment t = true) : IsGap ts := by
  intro t ht
  have hk : t.kind = .comment := by simpa [isComment] using h t ht
  rw [hk]
  exact ⟨by simp, by simp⟩

theorem startsComma_eq (ts : List Token) :
    startsComma ts = ((ts.dropWhile isComment).head?.map Token.kind == some .comma) := by
  induction ts with
  | nil => rfl
  | cons t ts ih =>
    rw [startsComma, List.dropWhile_cons]
    split
    · exact ih
    · simp

theorem startsComma_comments (cs ts : List Token) (h : ∀ t ∈ cs, isComment t = true) :
    startsComma (cs ++ ts) = startsComma ts := by
  induction cs with
  | nil => rfl
  | cons t cs ih =>
    rw [List.cons_append, startsComma, if_pos (h t List.mem_cons_self),
      ih (fun x hx => h x (List.mem_cons_of_mem t hx))]

/-- Whether a comma comes first is decided by the tokens up to one that is no comment. -/
theorem startsComma_append (ts us : List Token) (h : ∃ t ∈ ts, isComment t = false) :
    startsComma (ts ++ us) = startsComma ts := by
  induction ts with
  | nil => simp at h
  | cons t ts ih =>
    rw [List.cons_append, startsComma, startsComma]
    split
    · next hc =>
      refine ih ?_
      obtain ⟨x, hx, hxc⟩ := h
      rcases List.mem_cons.mp hx with rfl | hx
      · rw [hc] at hxc
        simp at hxc
      · exact ⟨x, hx, hxc⟩
    · rfl

theorem tail_pastComments (t : Token) (ts : List Token) :
    (pastComments (t :: ts)).tail = ts.dropWhile isComment := by
  induction ts generalizing t with
  | nil => rfl
  | cons u ts ih =>
    rw [pastComments, List.dropWhile_cons]
    by_cases hu : u.kind = .comment
    · rw [if_pos hu, ih, if_pos (by simpa [isComment] using hu)]
    · rw [if_neg hu, if_neg (by simpa [isComment] using hu)]
      rfl

/-! ## One table -/

/-- The tokens of a table from its opening bracket to its closing parenthesis. -/
def TableTokens (ts : List Token) (first name close : Token) (keys : List Text) : Prop :=
  ∃ middle inner, ts = first :: name :: (middle ++ (inner ++ [close])) ∧ first.kind = .lbracket ∧
    (name :: middle).map Token.kind = tableHeader ∧ close.kind = .rparen ∧
    ∀ after, keysFrom (inner ++ close :: after) = some (keys, close :: after)

theorem keyTable_table (ts : List Token) (first name close : Token) (keys : List Text)
    (h : TableTokens ts first name close keys) (after : List Token) (n : Nat) :
    let past := after.dropWhile isComment
    keyTable ⟨ts ++ after, .ending n⟩ =
      if startsComma after then
        ⟨some ⟨name, keys, first.offset, (past.headD (.ending n)).offset + 1⟩,
          ⟨past, .ending n⟩, []⟩
      else
        ⟨some ⟨name, keys, first.offset, close.offset + 1⟩,
          ⟨pastComments (close :: after), .ending n⟩, []⟩ := by
  obtain ⟨middle, inner, rfl, hfirst, hheader, hclose, hkeys⟩ := h
  have happ : first :: name :: (middle ++ (inner ++ [close])) ++ after =
      first :: ((name :: middle) ++ (inner ++ close :: after)) := by simp
  have hexp := expectAll_match (name :: middle) (inner ++ close :: after) first (.ending n)
  rw [hheader] at hexp
  have hlist : keyList ⟨(name :: middle).getLastD first :: (inner ++ close :: after), .ending n⟩ =
      ⟨some keys, ⟨close :: after, .ending n⟩, []⟩ := by
    rw [keyList, List.tail_cons, hkeys after]
  have hnext : next ⟨pastComments (close :: after), .ending n⟩ =
      (after.dropWhile isComment).headD (.ending n) := by
    rw [next, tail_pastComments]
  have hcomma : ((after.dropWhile isComment).headD (.ending n)).kind = .comma ↔
      startsComma after = true := by
    rw [startsComma_eq]
    cases after.dropWhile isComment with
    | nil => simp [Token.ending]
    | cons c rest => simp
  rw [happ, keyTable]
  simp only [hexp, if_true, hlist, skipComments, hnext, hcomma, advance, tail_pastComments]
  rfl

theorem tableTokens_of_keyTable (first : Token) (ts : List Token) (n : Nat) (table : KeyTable)
    (hfirst : first.kind = .lbracket)
    (h : (keyTable ⟨first :: ts, .ending n⟩).value = some table) :
    ∃ body after name close keys, first :: ts = body ++ after ∧
      TableTokens body first name close keys := by
  rcases kinds_cases tableHeader ts with ⟨us, rest, rfl, hus⟩ |
    ⟨us, k, ks, x, rest, hk, rfl, hx⟩ | ⟨k, ks, hk⟩
  · have hexp := expectAll_match us rest first (.ending n)
    rw [hus] at hexp
    rw [keyTable] at h
    simp only [hexp, if_true, keyList, List.tail_cons] at h
    cases hkeys : keysFrom rest with
    | none => simp [hkeys] at h
    | some r =>
      obtain ⟨inner, close, after, rfl, -, hclose, hall⟩ := keysFrom_local rest r.1 r.2 hkeys
      cases us with
      | nil => simp [tableHeader] at hus
      | cons name middle =>
        refine ⟨first :: name :: (middle ++ (inner ++ [close])), after, name, close, r.1, ?_, ?_⟩
        · simp
        · exact ⟨middle, inner, rfl, hfirst, hus, hclose, hall⟩
  · have hexp := expectAll_mismatch us rest k ks first x (.ending n) hx
    rw [← hk] at hexp
    rw [keyTable, hexp] at h
    simp at h
  · rw [keyTable, expectAll_ending ts tableHeader k ks first n hk (by decide)] at h
    simp at h

def withTable (table : KeyTable) (b : Block) : Block :=
  { b with tables := table :: b.tables }

theorem entries_of_keyTable (start : Nat) (t last : Token) (ts : List Token) (table : KeyTable)
    (h : t.kind = .lbracket) (htable : (keyTable ⟨t :: ts, last⟩).value = some table) :
    (entries start ⟨t :: ts, last⟩).value =
      (entries start (keyTable ⟨t :: ts, last⟩).cursor.advance).value.map (withTable table) := by
  rw [entries]
  simp only [h, htable]
  rfl

theorem entries_of_keyTable_none (start : Nat) (t last : Token) (ts : List Token)
    (h : t.kind = .lbracket) (htable : (keyTable ⟨t :: ts, last⟩).value = none) :
    (entries start ⟨t :: ts, last⟩).value =
      (entries start (keyTable ⟨t :: ts, last⟩).cursor.advance).value.map
        fun b => { b with unparsed := b.unparsed + 1 } := by
  rw [entries]
  simp only [h, htable]
  rfl

theorem entries_rbrace (start : Nat) (t last : Token) (ts : List Token) (h : t.kind = .rbrace) :
    (entries start ⟨t :: ts, last⟩).value = some ⟨start, t.offset, [], 0⟩ := by
  rw [entries]
  simp only [h, if_true]

theorem TableTokens.ne_nil {ts : List Token} {first name close : Token} {keys : List Text}
    (h : TableTokens ts first name close keys) :
    ∃ tail, ts = first :: tail ∧ first.kind = .lbracket := by
  obtain ⟨middle, inner, rfl, hfirst, -⟩ := h
  exact ⟨_, rfl, hfirst⟩

theorem entries_table_plain (start : Nat) (ts : List Token) (first name close : Token)
    (keys : List Text) (h : TableTokens ts first name close keys) (after : List Token) (n : Nat)
    (hafter : startsComma after = false) :
    (entries start ⟨ts ++ after, .ending n⟩).value =
      (entries start ⟨after, .ending n⟩).value.map
        (withTable ⟨name, keys, first.offset, close.offset + 1⟩) := by
  have htable := keyTable_table ts first name close keys h after n
  simp only [hafter, Bool.false_eq_true, if_false] at htable
  obtain ⟨tail, rfl, hfirst⟩ := h.ne_nil
  rw [List.cons_append] at htable ⊢
  rw [entries_of_keyTable start first _ _ _ hfirst (by rw [htable]), htable]
  simp only [advance, tail_pastComments]
  -- the comments that the table moved over are passed over between entries anyway
  have hgap := entries_gap start (.ending n) (after.takeWhile isComment) (after.dropWhile isComment)
    (isGap_comments _ (fun t ht => List.all_eq_true.mp List.all_takeWhile t ht))
  rw [List.takeWhile_append_dropWhile] at hgap
  rw [hgap]

theorem entries_table_comma (start : Nat) (ts : List Token) (first name close : Token)
    (keys : List Text) (h : TableTokens ts first name close keys) (comments : List Token)
    (comma : Token) (after : List Token) (n : Nat) (hc : ∀ t ∈ comments, isComment t = true)
    (hcomma : comma.kind = .comma) :
    (entries start ⟨ts ++ (comments ++ comma :: after), .ending n⟩).value =
      (entries start ⟨after, .ending n⟩).value.map
        (withTable ⟨name, keys, first.offset, comma.offset + 1⟩) := by
  have hfalse : isComment comma = false := by simp [isComment, hcomma]
  have hstarts : startsComma (comments ++ comma :: after) = true := by
    rw [startsComma_comments comments _ hc, startsComma, hfalse, hcomma]
    rfl
  have hpast : (comments ++ comma :: after).dropWhile isComment = comma :: after := by
    rw [List.dropWhile_append_of_pos hc, List.dropWhile_cons, hfalse]
    rfl
  have htable := keyTable_table ts first name close keys h (comments ++ comma :: after) n
  simp only [hstarts, if_true, hpast, List.headD_cons] at htable
  obtain ⟨tail, rfl, hfirst⟩ := h.ne_nil
  rw [List.cons_append] at htable ⊢
  rw [entries_of_keyTable start first _ _ _ hfirst (by rw [htable]), htable]
  rfl

/-- Behind a table header nothing but a key list makes an entry, and its keys are those of the
table. -/
theorem entries_header (start n : Nat) (first name : Token) (middle inner : List Token) (b : Block)
    (hfirst : first.kind = .lbracket) (hheader : (name :: middle).map Token.kind = tableHeader)
    (h : (entries start ⟨first :: name :: (middle ++ inner), .ending n⟩).value = some b) :
    ∃ keys rest table b', keysFrom inner = some (keys, rest) ∧ table.keys = keys ∧
      b = withTable table b' := by
  cases hkeys : keysFrom inner with
  | none =>
    have hexp := expectAll_match (name :: middle) inner first (.ending n)
    rw [hheader] at hexp
    have htable : keyTable ⟨first :: (name :: middle ++ inner), .ending n⟩ =
        ⟨none, ⟨[], .ending n⟩, []⟩ := by
      rw [keyTable, hexp]
      simp only [if_true, keyList, List.tail_cons, hkeys]
      rfl
    rw [List.cons_append] at htable
    rw [entries_of_keyTable_none start first _ _ hfirst (by rw [htable]), htable, advance,
      List.tail_nil, entries] at h
    simp at h
  | some r =>
    obtain ⟨list, close, after, rfl, -, hclose, hall⟩ := keysFrom_local inner r.1 r.2 hkeys
    have hbody : TableTokens (first :: name :: (middle ++ (list ++ [close]))) first name close r.1 :=
      ⟨middle, list, rfl, hfirst, hheader, hclose, hall⟩
    have happ : first :: name :: (middle ++ (list ++ close :: after)) =
        first :: name :: (middle ++ (list ++ [close])) ++ after := by simp
    have htable := keyTable_table _ first name close r.1 hbody after n
    obtain ⟨table, htk, hvalue⟩ : ∃ table : KeyTable, table.keys = r.1 ∧
        (keyTable ⟨first :: name :: (middle ++ (list ++ close :: after)), .ending n⟩).value =
          some table := by
      rw [happ, htable]
      split
      · exact ⟨_, rfl, rfl⟩
      · exact ⟨_, rfl, rfl⟩
    rw [entries_of_keyTable start first _ _ table hfirst hvalue, Option.map_eq_some_iff] at h
    obtain ⟨b', -, rfl⟩ := h
    exact ⟨r.1, r.2, table, b', rfl, htk, rfl⟩

/-! ## Notes -/

theorem notes_of_keyTable (c : Cursor) (table : KeyTable) (h : (keyTable c).value = some table) :
    (keyTable c).notes = [] := by
  simp only [keyTable] at h ⊢
  split at h
  · next hheader =>
    rw [if_pos hheader]
    split
    · rfl
    · split <;> rfl
  · simp at h

/-- A note is taken only where an entry is left out. -/
theorem notes_of_entries (start : Nat) (c : Cursor) (b : Block)
    (h : (entries start c).value = some b) (hu : b.unparsed = 0) : (entries start c).notes = [] := by
  fun_induction entries start c generalizing b with
  | case1 => simp at h
  | case2 => rfl
  | case3 c t ts _ _ _ entry rest block ih =>
    simp only [block] at h
    split at h
    · obtain ⟨b', -, rfl⟩ := Option.map_eq_some_iff.mp h
      simp at hu
    · next table htable =>
      obtain ⟨b', hb', rfl⟩ := Option.map_eq_some_iff.mp h
      have hentry : entry.notes = [] := notes_of_keyTable c table htable
      show entry.notes ++ rest.notes = []
      rw [hentry, ih b' hb' hu, List.append_nil]
  | case4 c t ts _ _ _ ih => exact ih b h hu

/-! ## Pieces -/

/-- The tokens of a table with what stands in front of it. The flag tells whether a comma belongs
to the table. -/
inductive PieceTokens : List Token → KeyTable → Bool → Prop
  | plain (gap body : List Token) (first name close : Token) (keys : List Text) (hgap : IsGap gap)
      (hbody : TableTokens body first name close keys) :
      PieceTokens (gap ++ body) ⟨name, keys, first.offset, close.offset + 1⟩ false
  | comma (gap body comments : List Token) (first name close comma : Token) (keys : List Text)
      (hgap : IsGap gap) (hbody : TableTokens body first name close keys)
      (hcomments : ∀ t ∈ comments, isComment t = true) (hcomma : comma.kind = .comma) :
      PieceTokens (gap ++ (body ++ (comments ++ [comma])))
        ⟨name, keys, first.offset, comma.offset + 1⟩ true

theorem entries_piece (start : Nat) (ts : List Token) (table : KeyTable) (comma : Bool)
    (h : PieceTokens ts table comma) (after : List Token) (n : Nat)
    (hafter : comma = false → startsComma after = false) :
    (entries start ⟨ts ++ after, .ending n⟩).value =
      (entries start ⟨after, .ending n⟩).value.map (withTable table) := by
  cases h with
  | plain gap body first name close keys hgap hbody =>
    rw [List.append_assoc, entries_gap start _ gap _ hgap,
      entries_table_plain start body first name close keys hbody after n (hafter rfl)]
  | comma gap body comments first name close comma keys hgap hbody hcomments hcomma =>
    have happ : gap ++ (body ++ (comments ++ [comma])) ++ after =
        gap ++ (body ++ (comments ++ comma :: after)) := by simp
    rw [happ, entries_gap start _ gap _ hgap,
      entries_table_comma start body first name close keys hbody comments comma after n hcomments
        hcomma]

theorem gap_split (ts : List Token) : ∃ gap rest, ts = gap ++ rest ∧ IsGap gap ∧
    ∀ t ∈ rest.head?, t.kind = .lbracket ∨ t.kind = .rbrace := by
  induction ts with
  | nil => exact ⟨[], [], rfl, by simp [IsGap], by simp⟩
  | cons t ts ih =>
    by_cases ht : t.kind = .lbracket ∨ t.kind = .rbrace
    · exact ⟨[], t :: ts, rfl, by simp [IsGap], by simpa using ht⟩
    · obtain ⟨gap, rest, rfl, hgap, hrest⟩ := ih
      refine ⟨t :: gap, rest, rfl, ?_, hrest⟩
      intro x hx
      rcases List.mem_cons.mp hx with rfl | hx
      · exact ⟨fun h => ht (Or.inl h), fun h => ht (Or.inr h)⟩
      · exact hgap x hx

theorem PieceTokens.prepend {ts : List Token} {table : KeyTable} {comma : Bool}
    (h : PieceTokens ts table comma) (gap : List Token) (hgap : IsGap gap) :
    PieceTokens (gap ++ ts) table comma := by
  have both : ∀ gap' : List Token, IsGap gap' → IsGap (gap ++ gap') := by
    intro gap' hgap' t ht
    obtain ht | ht := List.mem_append.mp ht
    · exact hgap t ht
    · exact hgap' t ht
  cases h with
  | plain gap' body first name close keys hgap' hbody =>
    rw [← List.append_assoc]
    exact .plain _ _ _ _ _ keys (both gap' hgap') hbody
  | comma gap' body comments first name close comma keys hgap' hbody hcomments hcomma =>
    rw [← List.append_assoc]
    exact .comma _ _ _ _ _ _ _ keys (both gap' hgap') hbody hcomments hcomma

/-- A table that is read takes the tokens of a piece. -/
theorem piece_of_keyTable (first : Token) (ts : List Token) (n : Nat) (table : KeyTable)
    (hfirst : first.kind = .lbracket)
    (h : (keyTable ⟨first :: ts, .ending n⟩).value = some table) :
    ∃ piece after table' comma, first :: ts = piece ++ after ∧ PieceTokens piece table' comma ∧
      (comma = false → startsComma after = false) := by
  obtain ⟨body, after, name, close, keys, hts, hbody⟩ :=
    tableTokens_of_keyTable first ts n table hfirst h
  have hnone : IsGap [] := by simp [IsGap]
  rw [hts]
  by_cases hafter : startsComma after = true
  · rw [startsComma_eq] at hafter
    cases hdrop : after.dropWhile isComment with
    | nil => simp [hdrop] at hafter
    | cons comma after' =>
      have hcomments : ∀ x ∈ after.takeWhile isComment, isComment x = true :=
        fun x hx => List.all_eq_true.mp List.all_takeWhile x hx
      refine ⟨body ++ (after.takeWhile isComment ++ [comma]), after', _, true, ?_,
        .comma [] body _ first name close comma keys hnone hbody hcomments
          (by simpa [hdrop] using hafter), by simp⟩
      have hsplit := List.takeWhile_append_dropWhile (p := isComment) (l := after)
      rw [hdrop] at hsplit
      simp [hsplit]
  · exact ⟨body, after, _, false, rfl, .plain [] body first name close keys hnone hbody,
      fun _ => by simpa using hafter⟩

theorem entries_cases (start : Nat) (ts : List Token) (n : Nat) (b : Block)
    (h : (entries start ⟨ts, .ending n⟩).value = some b) (hu : b.unparsed = 0) :
    (∃ gap close after, ts = gap ++ close :: after ∧ IsGap gap ∧ close.kind = .rbrace ∧
      b = ⟨start, close.offset, [], 0⟩) ∨
    ∃ piece after table comma b', ts = piece ++ after ∧ PieceTokens piece table comma ∧
      (comma = false → startsComma after = false) ∧
      (entries start ⟨after, .ending n⟩).value = some b' ∧ b'.unparsed = 0 ∧
      b = withTable table b' := by
  obtain ⟨gap, rest, rfl, hgap, hhead⟩ := gap_split ts
  rw [entries_gap start _ gap rest hgap] at h
  cases rest with
  | nil =>
    rw [entries] at h
    simp at h
  | cons t ts =>
    rcases hhead t rfl with ht | ht
    · refine Or.inr ?_
      cases htable : (keyTable ⟨t :: ts, .ending n⟩).value with
      | none =>
        rw [entries_of_keyTable_none start t _ ts ht htable, Option.map_eq_some_iff] at h
        obtain ⟨b', -, rfl⟩ := h
        simp at hu
      | some table =>
        obtain ⟨piece, after, table', comma, hts, hpiece, hcomma⟩ :=
          piece_of_keyTable t ts n table ht htable
        rw [hts, entries_piece start piece table' comma hpiece after n hcomma,
          Option.map_eq_some_iff] at h
        obtain ⟨b', hb', rfl⟩ := h
        exact ⟨gap ++ piece, after, table', comma, b', by rw [hts, List.append_assoc],
          hpiece.prepend gap hgap, hcomma, hb', hu, rfl⟩
    · rw [entries_rbrace start t _ ts ht, Option.some.injEq] at h
      exact Or.inl ⟨gap, t, ts, rfl, hgap, ht, h.symm⟩

end KeyTables.Cursor
