import KeyTables.Proofs.Grammar.Declaration

/-! Reading declarations. Each part of the grammar is read as what it stands for, whatever follows
it, up to the whole: every declaration is read as its block, and no note is taken.

* `compoundFrom_inside`: the inside of a compound key is read as its text.
* `keysFrom_series`: a key list is read as its keys.
* `entries_series`: the entries are read as their tables. -/
namespace KeyTables.Grammar
set_option autoImplicit false
open Cursor

/-! ## Gaps -/

theorem isComment_gap (o : Nat) (g : Gap) : ∀ t ∈ placed o g.elements, isComment t = true := by
  induction g generalizing o with
  | nil => simp [Gap.elements, placed]
  | cons x g ih =>
    intro t ht
    rcases List.mem_append.mp ht with ht | ht
    · cases x with
      | space s => simp [Element.tokens] at ht
      | comment c =>
        obtain rfl := List.mem_singleton.mp ht
        rfl
    · exact ih _ t ht

theorem placed_spaces (o : Nat) (s : Spaces) : placed o s.gap.elements = [] := by
  induction s generalizing o with
  | nil => rfl
  | cons x s ih => exact ih (o + 1)

theorem length_spaces (s : Spaces) : (printed s.gap.elements).length = s.length := by
  induction s with
  | nil => rfl
  | cons x s ih => exact congrArg (· + 1) ih

/-! ## Items -/

theorem placed_item (o : Nat) (i : Item) (es : List Element) :
    placed o (i.elements ++ es) = i.lexeme.token (o + i.spaces.length) ::
      placed (o + i.spaces.length + (encode i.lexeme.text).length) es := by
  rw [Item.elements, List.append_assoc, placed_append, placed_spaces, length_spaces]
  rfl

theorem kinds_items (o : Nat) (items : List Item) :
    (placed o (items.flatMap Item.elements)).map Token.kind =
      items.map fun i => i.lexeme.kind := by
  induction items generalizing o with
  | nil => rfl
  | cons i items ih =>
    rw [List.flatMap_cons, placed_item, List.map_cons, List.map_cons, ih]
    rfl

/-! ## Keys -/

/-- Nested parentheses leave no fewer than none open. -/
theorem isNested_step (depth : Nat) (k : Token.Kind) (ks : List Token.Kind)
    (h : isNested .lparen .rparen depth (k :: ks) = true) :
    ∃ depth' : Nat, isNested .lparen .rparen depth' ks = true ∧ depth + parenStep k = depth' := by
  rw [isNested] at h
  split at h
  · next ho =>
    refine ⟨depth + 1, h, ?_⟩
    rw [ho]
    rfl
  · next ho =>
    split at h
    · next hc =>
      rw [Bool.and_eq_true, bne_iff_ne] at h
      refine ⟨depth - 1, h.2, ?_⟩
      rw [hc, parenStep]
      omega
    · next hc =>
      have hflat : parenStep k = 0 := by
        unfold parenStep
        split
        · exact absurd rfl ho
        · exact absurd rfl hc
        · rfl
      refine ⟨depth, h, ?_⟩
      omega

/-- Nested elements are passed over up to the parenthesis that closes the first one. -/
theorem compoundFrom_inside (o depth : Nat) (es : List Element) (close : Token) (after : List Token)
    (h : isNested .lparen .rparen depth (es.filterMap Element.kind?) = true)
    (hclose : close.kind = .rparen) :
    compoundFrom (depth + 1) (placed o es ++ close :: after) =
      some (es.flatMap Element.text ++ close.text, close :: after) := by
  -- `depth` counts the parentheses opened by the elements, the first one not among them
  induction es generalizing o depth with
  | nil =>
    have hzero : depth = 0 := by simpa [isNested] using h
    subst hzero
    exact compoundFrom_close _ close after ⟨hclose, by rw [hclose]; rfl⟩
  | cons e es ih =>
    cases e with
    | trivium t =>
      cases t with
      | space s => exact ih _ depth h
      | comment c =>
        rw [placed, Element.tokens, List.singleton_append, List.cons_append,
          compoundFrom_comment _ _ _ rfl]
        exact ih _ depth h
    | lexeme l =>
      obtain ⟨depth', htail, hdepth⟩ := isNested_step depth l.kind _ h
      have hnext : (depth : Int) + 1 + parenStep (l.token o).kind = depth' + 1 := by
        show (depth : Int) + 1 + parenStep l.kind = depth' + 1
        omega
      rw [placed, Element.tokens, List.singleton_append, List.cons_append,
        compoundFrom_step _ _ _ l.kind_ne_comment (by rw [hnext]; omega), hnext, ih _ depth' htail,
        l.token_text, List.flatMap_cons, List.append_assoc]
      rfl

theorem keysFrom_comments (cs ts : List Token) (h : ∀ t ∈ cs, isComment t = true) :
    keysFrom (cs ++ ts) = keysFrom ts := by
  induction cs with
  | nil => rfl
  | cons t cs ih =>
    have hk : t.kind = .comment := by simpa [isComment] using h t List.mem_cons_self
    rw [List.cons_append, keysFrom_other t _ (by simp [hk]) (by simp [hk]) (by simp [hk]),
      ih (fun x hx => h x (List.mem_cons_of_mem t hx))]

/-- A gap and a token that is no opening parenthesis do not start arguments. -/
theorem head_gap (o : Nat) (g : Gap) (t : Token) (ts : List Token) (ht : t.kind ≠ .lparen) :
    ((placed o g.elements ++ t :: ts).head?.map Token.kind) ≠ some .lparen := by
  have hcomments := isComment_gap o g
  cases hg : placed o g.elements with
  | nil => simpa using ht
  | cons c cs =>
    have hk : c.kind = .comment := by
      simpa [isComment] using hcomments c (hg ▸ List.mem_cons_self)
    simp [hk]

theorem placed_compound (o : Nat) (c : Compound) : ∃ o₁ o₂ o₃,
    placed o (Key.compound c).elements = Lexeme.token o (.ident c.wrapper) ::
      Lexeme.token o₁ (.punctuation .lparen) ::
        (placed o₂ c.inside ++ [Lexeme.token o₃ (.punctuation .rparen)]) := by
  rw [Key.elements, placed, placed_append, placed_spaces, List.nil_append, placed, placed_append]
  exact ⟨_, _, _, rfl⟩

/-- A key is read as its text where no parenthesis follows. -/
theorem keysFrom_key (o : Nat) (k : Key) (ts : List Token)
    (hts : (ts.head?.map Token.kind) ≠ some .lparen) :
    keysFrom (placed o k.elements ++ ts) = (keysFrom ts).map fun r => (k.text :: r.1, r.2) := by
  cases k with
  | blank more => exact keysFrom_blank _ ts rfl
  | plain name =>
    have hkey := keysFrom_plain (Lexeme.token o (.ident name)) ts rfl hts
    rw [Lexeme.token_text] at hkey
    exact hkey
  | compound c =>
    obtain ⟨o₁, o₂, o₃, hplaced⟩ := placed_compound o c
    have hinside := compoundFrom_inside o₂ 0 c.inside (Lexeme.token o₃ (.punctuation .rparen)) ts
      c.nested rfl
    rw [Lexeme.token_text] at hinside
    have hscan : compoundFrom 0 (Lexeme.token o₁ (.punctuation .lparen) ::
        (placed o₂ c.inside ++ Lexeme.token o₃ (.punctuation .rparen) :: ts)) =
        some ('(' :: (c.inside.flatMap Element.text ++ [')']),
          Lexeme.token o₃ (.punctuation .rparen) :: ts) := by
      rw [compoundFrom_step 0 _ _ (by simp [Punctuation.kind]) (by simp [Punctuation.kind]),
        Lexeme.token_text]
      exact congrArg (Option.map _) hinside
    rw [hplaced, List.cons_append, List.cons_append, List.append_assoc, List.singleton_append,
      keysFrom_compound _ _ rfl rfl, hscan, Lexeme.token_text]
    rfl

/-- A key list is read as its keys, up to the closing parenthesis. -/
theorem keysFrom_series (o o' : Nat) (keys : Series Key) (g : Gap) (close : Token)
    (after : List Token) (hclose : close.kind = .rparen) :
    keysFrom (placed o (keys.elements Key.elements) ++ (placed o' g.elements ++ close :: after)) =
      some (keys.values.map Key.text, close :: after) := by
  have hend : keysFrom (placed o' g.elements ++ close :: after) = some ([], close :: after) := by
    rw [keysFrom_comments _ _ (isComment_gap o' g), keysFrom_rparen close after hclose]
  induction keys generalizing o with
  | nil => exact hend
  | last gap k =>
    rw [Series.elements, placed_append, List.append_assoc,
      keysFrom_comments _ _ (isComment_gap o gap),
      keysFrom_key _ k _ (head_gap o' g close after (by simp [hclose])), hend]
    rfl
  | more gap k comma rest ih =>
    rw [Series.elements, placed_append, placed_append, placed_append, placed]
    simp only [List.append_assoc, Element.tokens, List.cons_append, List.nil_append]
    -- the comma is passed over like any other token that is no key
    rw [keysFrom_comments _ _ (isComment_gap o gap),
      keysFrom_key _ k _ (head_gap _ comma _ _ (by simp [Punctuation.kind])),
      keysFrom_comments _ _ (isComment_gap _ comma),
      keysFrom_other _ _ (by simp [Punctuation.kind]) (by simp [Punctuation.kind])
        (by simp [Punctuation.kind]), ih]
    rfl

/-! ## Entries -/

/-- The closing parenthesis of an entry at `o`. -/
def Entry.closing (e : Entry) (o : Nat) : Token :=
  Lexeme.token (o + (printed (e.header.flatMap Item.elements ++ e.inner)).length)
    (.punctuation .rparen)

theorem stop_closing (e : Entry) (o : Nat) : (e.closing o).offset + 1 = o + e.length := by
  have hlen : e.length = (printed (e.header.flatMap Item.elements ++ e.inner)).length + 1 := by
    rw [Entry.length, Entry.elements, ← List.append_assoc, printed_append, List.length_append,
      printed_cons, printed_nil, List.append_nil, length_sign]
  rw [hlen]
  rfl

theorem header_entry (e : Entry) (o : Nat) :
    ∃ middle, placed o (e.header.flatMap Item.elements) =
        Lexeme.token o (.punctuation .lbracket) ::
          Lexeme.token (o + 1 + (e.before 0).length) (.ident e.name) :: middle ∧
      .ident :: middle.map Token.kind = tableHeader := by
  have hfirst := placed_item o ⟨[], .punctuation .lbracket⟩ (e.header.tail.flatMap Item.elements)
  have hname := placed_item (o + 1) ⟨e.before 0, .ident e.name⟩
    (e.header.tail.tail.flatMap Item.elements)
  refine ⟨_, hfirst.trans (congrArg (_ :: ·) hname), ?_⟩
  rw [kinds_items]
  rfl

theorem tableTokens_entry (e : Entry) (o : Nat) :
    TableTokens (placed o e.elements) (Lexeme.token o (.punctuation .lbracket))
      (Lexeme.token (o + 1 + (e.before 0).length) (.ident e.name)) (e.closing o)
      (e.keys.values.map Key.text) := by
  obtain ⟨middle, hheader, hkinds⟩ := header_entry e o
  refine ⟨middle, placed (o + (printed (e.header.flatMap Item.elements)).length) e.inner, ?_, rfl,
    hkinds, rfl, ?_⟩
  · rw [Entry.elements, ← List.append_assoc, placed_append, placed_append, hheader]
    simp only [List.cons_append, List.append_assoc]
    rfl
  · intro after
    rw [Entry.inner, placed_append, List.append_assoc]
    exact keysFrom_series _ _ e.keys e.close (e.closing o) after rfl

/-- Entries are read as their tables, up to the closing brace. -/
theorem entries_series (start n o o' : Nat) (s : Series Entry) (g : Gap) (brace : Token)
    (after : List Token) (hbrace : brace.kind = .rbrace) :
    (entries start ⟨placed o (s.elements Entry.elements) ++ (placed o' g.elements ++
      brace :: after), .ending n⟩).value = some ⟨start, brace.offset, tablesAt o s, 0⟩ := by
  have hcomments := isComment_gap o' g
  have hend : (entries start ⟨placed o' g.elements ++ brace :: after, .ending n⟩).value =
      some ⟨start, brace.offset, [], 0⟩ := by
    rw [entries_gap start _ _ _ (isGap_comments _ hcomments),
      entries_rbrace start brace _ after hbrace]
  induction s generalizing o with
  | nil => exact hend
  | last gap e =>
    -- without a comma the table stops at its parenthesis
    have hstarts : startsComma (placed o' g.elements ++ brace :: after) = false := by
      rw [startsComma_comments _ _ hcomments]
      simp [startsComma, isComment, hbrace]
    have htable := tableTokens_entry e (o + (printed gap.elements).length)
    rw [Series.elements, placed_append, List.append_assoc,
      entries_gap start _ _ _ (isGap_comments _ (isComment_gap o gap)),
      entries_table_plain start _ _ _ _ _ htable _ n hstarts, hend, stop_closing]
    rfl
  | more gap e comma rest ih =>
    have htable := tableTokens_entry e (o + (printed gap.elements).length)
    rw [Series.elements, placed_append, placed_append, placed_append, placed]
    simp only [List.append_assoc, Element.tokens, List.cons_append, List.nil_append]
    rw [entries_gap start _ _ _ (isGap_comments _ (isComment_gap o gap)),
      entries_table_comma start _ _ _ _ _ htable _ _ _ n (isComment_gap _ comma) rfl, ih]
    rfl

/-! ## Declarations -/

theorem contents_tablesAt (o : Nat) (s : Series Entry) :
    (tablesAt o s).map (fun t => (t.name.text, t.keys)) =
      s.values.map fun e => (e.name.text, e.keys.values.map Key.text) := by
  have hentry : ∀ (e : Entry) (start stop : Nat),
      ((e.table start stop).name.text, (e.table start stop).keys) =
        (e.name.text, e.keys.values.map Key.text) := by
    intro e start stop
    exact congrArg (·, _) (Lexeme.token_text _ _)
  induction s generalizing o with
  | nil => rfl
  | last gap e =>
    rw [tablesAt, List.map_singleton, hentry]
    rfl
  | more gap e comma rest ih =>
    rw [tablesAt, List.map_cons, hentry, ih]
    rfl

/-- The tokens up to the opening brace are those of a header. -/
theorem front_declaration (d : Declaration) : ∃ t us, placed 0 d.front = t :: us ∧
    t.kind = .const ∧ (us ++ [d.opening]).map Token.kind = blockHeader := by
  have hfront : placed 0 d.front = placed 0 (d.header.flatMap Item.elements) := by
    rw [Declaration.front, placed_append, placed_spaces, List.append_nil]
  have hplaced := placed_item 0 ⟨d.before 0, .keyword .const⟩ (d.header.tail.flatMap Item.elements)
  refine ⟨_, _, hfront.trans hplaced, rfl, ?_⟩
  rw [List.map_append, kinds_items]
  rfl

theorem entries_declaration (d : Declaration) (after : List Token) (n : Nat) :
    (entries d.block.start ⟨placed (d.block.start + 1) d.body ++ d.closing :: after,
      .ending n⟩).value = some d.block := by
  rw [Declaration.body, placed_append, List.append_assoc]
  exact entries_series d.block.start n _ _ d.entries d.close d.closing after rfl

/-- Every declaration is read as its block, whatever follows it, and no note is taken. -/
theorem parseBlock_declaration (d : Declaration) (rest : Bytes) :
    (parseBlock (d.bytes ++ rest)).value = some d.block ∧
      (parseBlock (d.bytes ++ rest)).notes = [] ∧
      d.block.tables.map (fun t => (t.name.text, t.keys)) = d.contents := by
  obtain ⟨t, us, hfront, ht, hus⟩ := front_declaration d
  have hvalue := entries_declaration d (tokensFrom (d.block.stop + 1) 0 rest)
    (d.bytes ++ rest).length
  have hlast : ((us ++ [d.opening]).getLastD t).offset = d.block.start := by
    rw [List.getLastD_concat]
    rfl
  have hfind := findBlock_header t (us ++ [d.opening]) _ _ d.block ht hus
    (by rw [hlast]; exact hvalue)
  -- the search settles on the header that the source starts with
  have hparse : parseBlock (d.bytes ++ rest) = entries d.block.start ⟨placed (d.block.start + 1)
      d.body ++ d.closing :: tokensFrom (d.block.stop + 1) 0 rest,
        .ending (d.bytes ++ rest).length⟩ := by
    rw [hlast, List.append_assoc, List.singleton_append] at hfind
    rw [parseBlock, Cursor.start, d.tokensFrom_bytes, hfront]
    exact hfind
  rw [hparse]
  exact ⟨hvalue, notes_of_entries _ _ d.block hvalue rfl, contents_tablesAt _ d.entries⟩

/-- A declaration of one table, with comments and a compound key. -/
def commentedTable : Declaration where
  type := ⟨['T'], rfl, by decide, rfl⟩
  array := ⟨['K'], rfl, by decide, rfl⟩
  rows := ⟨['R'], rfl, by decide, rfl⟩
  cols := ⟨['C'], rfl, by decide, rfl⟩
  apart _ := ⟨.blank, []⟩
  before i := if 9 ≤ i.val then [.blank] else []
  entries := .more [.space .lineFeed, .comment ⟨encode [' ', 'a'], by decide⟩]
    { name := ⟨['A'], rfl, by decide, rfl⟩
      before := fun i => if i.val = 2 ∨ i.val = 3 then [.blank] else []
      keys := .more [] (.plain ⟨['X'], rfl, by decide, rfl⟩) []
        (.more [.space .blank] (.blank 1) []
          (.last [.comment ⟨encode [' ', 'b'], by decide⟩] (.compound
            { wrapper := ⟨['F'], rfl, by decide, rfl⟩
              spaces := [.tab]
              inside := [.lexeme (.ident ⟨['Y'], rfl, by decide, rfl⟩), .trivium (.space .blank),
                .lexeme (.keyword .const), .sign .comma, .sign .lparen, .lexeme (.blank 0),
                .trivium (.comment ⟨encode [' ', ')'], by decide⟩), .sign .rparen]
              spaced := rfl
              nested := rfl })))
      close := [.space .lineFeed] } [] .nil
  close := [.space .carriageReturn, .space .lineFeed]

theorem parseBlock_commentedTable :
    commentedTable.bytes = encode ("const T PROGMEM K[][R][C] = \x7b\n// a\n" ++
      "[A] = LAYOUT(X, __,// b\nF\t(Y const,(_// )\n))\n),\r\n\x7d").toList ∧
    commentedTable.contents = [(['A'], [['X'], [], "F(Yconst,(_))".toList])] ∧
    (parseBlock (commentedTable.bytes ++ [0x3B])).value = some commentedTable.block :=
  ⟨by decide +kernel, by decide +kernel, (parseBlock_declaration commentedTable [0x3B]).1⟩

end KeyTables.Grammar
