import KeyTables.Proofs.Block.Body
import KeyTables.Proofs.Token.Extent

/-! The tokens that the scan of a block takes, entries that are no tables included. Such an entry
takes tokens of a table header only, so it moves over no bracket and no brace.

* `Follows`: a cursor has moved on from another one. Every reader leaves such a cursor.
* `Scanned`: the tokens behind the opening brace, cut as the scan takes them.
* `scanned_of_parseBlock`: the entries of a block are read from such tokens.
* `Scanned.bracket_or_brace`: where brackets and closing braces can stand among them.
* `Scanned.countP_loose`: every bracket outside all tables starts an entry. -/
namespace KeyTables
set_option autoImplicit false

/-- The offset lies inside a table, behind its opening bracket. -/
def KeyTable.spans (t : KeyTable) (offset : Nat) : Bool :=
  decide (t.start < offset) && decide (offset < t.stop)

theorem KeyTable.spans_eq_true (t : KeyTable) (offset : Nat) :
    t.spans offset = true ↔ t.start < offset ∧ offset < t.stop := by
  simp [spans]

theorem KeyTable.spans_eq_false (t : KeyTable) (offset : Nat) :
    t.spans offset = false ↔ offset ≤ t.start ∨ t.stop ≤ offset := by
  rw [← Bool.not_eq_true, spans_eq_true]
  omega

namespace Cursor

/-! ## Moving on -/

/-- The cursor stands where `c` did, or has moved on from there. -/
def Follows (c' c : Cursor) : Prop :=
  c'.ahead <:+ c.ahead ∧ c'.last = c.last

theorem Follows.trans {c₁ c₂ c₃ : Cursor} (h : Follows c₃ c₂) (h' : Follows c₂ c₁) :
    Follows c₃ c₁ :=
  ⟨h.1.trans h'.1, h.2.trans h'.2⟩

theorem follows_advance (c : Cursor) : Follows c.advance c :=
  ⟨List.tail_suffix _, rfl⟩

theorem follows_expectAll (kinds : List Token.Kind) (c : Cursor) :
    Follows (expectAll kinds c).cursor c := by
  induction kinds generalizing c with
  | nil => exact ⟨List.suffix_refl _, rfl⟩
  | cons kind kinds ih =>
    rw [expectAll]
    split
    · exact (ih c.advance).trans (follows_advance c)
    · exact ⟨List.suffix_refl _, rfl⟩

theorem follows_keyList (c : Cursor) : Follows (keyList c).cursor c := by
  unfold keyList
  split
  · exact ⟨List.nil_suffix, rfl⟩
  · next keys rest hkeys =>
    obtain ⟨inner, close, after, htail, rfl, -⟩ := keysFrom_local _ keys rest hkeys
    have hsuffix : close :: after <:+ c.ahead.tail := ⟨inner, htail.symm⟩
    exact ⟨hsuffix.trans (List.tail_suffix _), rfl⟩

theorem follows_skipComments (c : Cursor) : Follows c.skipComments c := by
  refine ⟨?_, rfl⟩
  show pastComments c.ahead <:+ c.ahead
  fun_induction pastComments c.ahead with
  | case1 t u ts hu ih => exact ih.trans (List.suffix_cons t _)
  | case2 => exact List.suffix_refl _
  | case3 => exact List.suffix_refl _

theorem follows_keyTable (c : Cursor) : Follows (keyTable c).cursor c := by
  have hheader := follows_expectAll tableHeader c
  have hlist := (follows_keyList (expectAll tableHeader c).cursor).trans hheader
  have hclosed := (follows_skipComments (keyList (expectAll tableHeader c).cursor).cursor).trans
    hlist
  unfold keyTable
  dsimp only
  split
  · split
    · exact hlist
    · split
      · exact (follows_advance _).trans hclosed
      · exact hclosed
  · exact hheader

/-! ## All entries -/

/-- The tokens behind an opening brace as the scan takes them: single tokens, entries that are no
tables, and tables, up to the closing brace. -/
inductive Scanned (close : Token) (after : List Token) :
    List Token → List KeyTable → Nat → Prop
  | brace (hclose : close.kind = .rbrace) : Scanned close after (close :: after) [] 0
  | pass (t : Token) (ts : List Token) (tables : List KeyTable) (n : Nat)
      (h1 : t.kind ≠ .lbracket) (h2 : t.kind ≠ .rbrace) (hrest : Scanned close after ts tables n) :
      Scanned close after (t :: ts) tables n
  | fault (first : Token) (header ts : List Token) (tables : List KeyTable) (n : Nat)
      (hfirst : first.kind = .lbracket) (hheader : ∀ t ∈ header, t.kind ∈ tableHeader)
      (hrest : Scanned close after ts tables n) :
      Scanned close after (first :: (header ++ ts)) tables (n + 1)
  | table (first name last : Token) (middle ts : List Token) (keys : List Text)
      (tables : List KeyTable) (n : Nat) (hfirst : first.kind = .lbracket)
      (hname : name.kind = .ident) (hlast : last.kind = .rparen ∨ last.kind = .comma)
      (hrest : Scanned close after ts tables n) :
      Scanned close after (first :: name :: (middle ++ last :: ts))
        (⟨name, keys, first.offset, last.offset + 1⟩ :: tables) n

theorem Scanned.gap {close : Token} {after ts : List Token} {tables : List KeyTable} {n : Nat}
    (h : Scanned close after ts tables n) (gap : List Token) (hgap : IsGap gap) :
    Scanned close after (gap ++ ts) tables n := by
  induction gap with
  | nil => exact h
  | cons t gap ih =>
    obtain ⟨h1, h2⟩ := hgap t List.mem_cons_self
    exact .pass t _ tables n h1 h2 (ih (fun x hx => hgap x (List.mem_cons_of_mem t hx)))

/-- A table stands between an opening bracket with its name behind it, and a parenthesis or a
comma. -/
theorem PieceTokens.span (ts : List Token) (table : KeyTable) (comma : Bool)
    (h : PieceTokens ts table comma) :
    ∃ gap first name middle last, ts = gap ++ first :: name :: (middle ++ [last]) ∧ IsGap gap ∧
      first.kind = .lbracket ∧ name.kind = .ident ∧ (last.kind = .rparen ∨ last.kind = .comma) ∧
      table = ⟨name, table.keys, first.offset, last.offset + 1⟩ := by
  cases h with
  | plain gap body first name close keys hgap hbody =>
    obtain ⟨middle, inner, rfl, hfirst, hheader, hclose, -⟩ := hbody
    exact ⟨gap, first, name, middle ++ inner, close, by simp, hgap, hfirst,
      (List.cons.inj hheader).1, Or.inl hclose, rfl⟩
  | comma gap body comments first name close comma keys hgap hbody hcomments hcomma =>
    obtain ⟨middle, inner, rfl, hfirst, hheader, -, -⟩ := hbody
    exact ⟨gap, first, name, middle ++ (inner ++ close :: comments), comma, by simp, hgap, hfirst,
      (List.cons.inj hheader).1, Or.inr hcomma, rfl⟩

theorem Body.scanned {close : Token} {ts : List Token} {tables : List KeyTable} {n : Nat}
    (h : Body close ts tables n) (after : List Token) :
    Scanned close after (ts ++ after) tables n := by
  induction h with
  | brace hclose => exact .brace hclose
  | pass t ts tables n h1 h2 hrest ih => exact .pass t _ tables n h1 h2 ih
  | fault first x header ts k ks tables n hfirst hk hx hrest ih =>
    have happ : first :: (header ++ x :: ts) ++ after = first :: (header ++ (x :: ts ++ after)) := by
      simp
    rw [happ]
    refine .fault first header _ tables n hfirst ?_ ih
    intro t ht
    rw [hk]
    exact List.mem_append_left _ (List.mem_map_of_mem ht)
  | table piece ts table tables comma n hpiece hcomma hrest ih =>
    obtain ⟨gap, first, name, middle, last, rfl, hgap, hfirst, hname, hlast, htable⟩ :=
      PieceTokens.span piece table comma hpiece
    have happ : gap ++ first :: name :: (middle ++ [last]) ++ ts ++ after =
        gap ++ first :: name :: (middle ++ last :: (ts ++ after)) := by simp
    rw [happ, htable]
    exact Scanned.gap (.table first name last middle _ _ tables n hfirst hname hlast ih) gap hgap

/-! ## What the scan passes over -/

section
variable {close : Token} {after ts : List Token} {tables : List KeyTable} {n : Nat}

/-- Behind the closing brace nothing is taken. -/
theorem Scanned.split (h : Scanned close after ts tables n) :
    ∃ inside, ts = inside ++ close :: after ∧ close.kind = .rbrace := by
  induction h with
  | brace hclose => exact ⟨[], rfl, hclose⟩
  | pass t ts tables n h1 h2 hrest ih =>
    obtain ⟨inside, rfl, hclose⟩ := ih
    exact ⟨t :: inside, rfl, hclose⟩
  | fault first header ts tables n hfirst hheader hrest ih =>
    obtain ⟨inside, rfl, hclose⟩ := ih
    exact ⟨first :: (header ++ inside), by simp, hclose⟩
  | table first name last middle ts keys tables n hfirst hname hlast hrest ih =>
    obtain ⟨inside, rfl, hclose⟩ := ih
    exact ⟨first :: name :: (middle ++ last :: inside), by simp, hclose⟩

theorem Scanned.mem_close (h : Scanned close after ts tables n) : close ∈ ts := by
  obtain ⟨inside, rfl, -⟩ := h.split
  exact List.mem_append_right _ List.mem_cons_self

theorem Scanned.mem_start (h : Scanned close after ts tables n) :
    ∀ u ∈ tables, ∃ x ∈ ts, x.offset = u.start := by
  induction h with
  | brace hclose => simp
  | pass t ts tables n h1 h2 hrest ih =>
    intro u hu
    obtain ⟨x, hx, hstart⟩ := ih u hu
    exact ⟨x, List.mem_cons_of_mem t hx, hstart⟩
  | fault first header ts tables n hfirst hheader hrest ih =>
    intro u hu
    obtain ⟨x, hx, hstart⟩ := ih u hu
    exact ⟨x, List.mem_cons_of_mem first (List.mem_append_right header hx), hstart⟩
  | table first name last middle ts keys tables n hfirst hname hlast hrest ih =>
    intro u hu
    cases hu with
    | head => exact ⟨first, List.mem_cons_self, rfl⟩
    | tail _ hu =>
      obtain ⟨x, hx, hstart⟩ := ih u hu
      exact ⟨x, by simp [hx], hstart⟩

/-- A closing brace in front of the last one lies inside a table. So does an opening bracket, unless
it starts a table or an entry that is none. -/
theorem Scanned.bracket_or_brace (h : Scanned close after ts tables n)
    (hs : ts.Pairwise fun t u => t.offset < u.offset) (x : Token) (hx : x ∈ ts)
    (hk : x.kind = .lbracket ∨ x.kind = .rbrace) (ho : x.offset < close.offset) :
    (∃ u ∈ tables, u.spans x.offset = true) ∨
      x.kind = .lbracket ∧ ((∃ u ∈ tables, u.start = x.offset) ∨ 0 < n) := by
  induction h with
  | brace hclose =>
    have hlast := (List.pairwise_cons.mp hs).1
    exfalso
    cases hx with
    | head => omega
    | tail _ hx =>
      have := hlast x hx
      omega
  | pass t ts tables n h1 h2 hrest ih =>
    cases hx with
    | head => exact absurd hk (not_or.mpr ⟨h1, h2⟩)
    | tail _ hx => exact ih (List.pairwise_cons.mp hs).2 hx
  | fault first header ts tables n hfirst hheader hrest ih =>
    cases hx with
    | head => exact Or.inr ⟨hfirst, Or.inr (Nat.succ_pos n)⟩
    | tail _ hx =>
      obtain hx | hx := List.mem_append.mp hx
      · have hkinds : ∀ k ∈ tableHeader, ¬ (k = .lbracket ∨ k = .rbrace) := by decide
        exact absurd hk (hkinds _ (hheader x hx))
      · have hsrest := (List.pairwise_append.mp (List.pairwise_cons.mp hs).2).2.1
        obtain hin | ⟨hbracket, -⟩ := ih hsrest hx
        · exact Or.inl hin
        · exact Or.inr ⟨hbracket, Or.inr (Nat.succ_pos n)⟩
  | table first name last middle ts keys tables n hfirst hname hlast hrest ih =>
    obtain ⟨hfirstlt, hs'⟩ := List.pairwise_cons.mp hs
    obtain ⟨hmiddle, hsrest, hlt⟩ := List.pairwise_append.mp (List.pairwise_cons.mp hs').2
    cases hx with
    | head => exact Or.inr ⟨hfirst, Or.inl ⟨_, List.mem_cons_self, rfl⟩⟩
    | tail _ hx =>
      have hgt := hfirstlt x hx
      obtain rfl | hx := List.mem_cons.mp hx
      · rw [hname] at hk
        simp at hk
      obtain hx | hx := List.mem_append.mp hx
      · have hbefore := hlt x hx last List.mem_cons_self
        refine Or.inl ⟨_, List.mem_cons_self, ?_⟩
        rw [KeyTable.spans_eq_true]
        exact ⟨hgt, Nat.lt_succ_of_lt hbefore⟩
      obtain rfl | hx := List.mem_cons.mp hx
      · obtain hl | hl := hlast <;> rw [hl] at hk <;> simp at hk
      · obtain ⟨u, hu, hin⟩ | ⟨hbracket, ⟨u, hu, hstart⟩ | hpos⟩ :=
          ih (List.pairwise_cons.mp hsrest).2 hx
        · exact Or.inl ⟨u, List.mem_cons_of_mem _ hu, hin⟩
        · exact Or.inr ⟨hbracket, Or.inl ⟨u, List.mem_cons_of_mem _ hu, hstart⟩⟩
        · exact Or.inr ⟨hbracket, Or.inr hpos⟩

end

/-! ## Counting entries -/

/-- An opening bracket between two offsets that lies inside none of the tables. -/
def isLoose (start stop : Nat) (tables : List KeyTable) (t : Token) : Bool :=
  t.kind == .lbracket && decide (start < t.offset) && decide (t.offset < stop) &&
    tables.all fun u => !u.spans t.offset

theorem isLoose_iff (start stop : Nat) (tables : List KeyTable) (t : Token) :
    isLoose start stop tables t = true ↔ t.kind = .lbracket ∧ start < t.offset ∧ t.offset < stop ∧
      ∀ u ∈ tables, u.spans t.offset = false := by
  simp [isLoose, and_assoc]

/-- No table that is still to come lies around a bracket. -/
theorem isLoose_first (start stop : Nat) (tables : List KeyTable) (first : Token)
    (hfirst : first.kind = .lbracket) (hstart : start < first.offset) (hstop : first.offset < stop)
    (htables : ∀ u ∈ tables, first.offset ≤ u.start) :
    isLoose start stop tables first = true := by
  refine (isLoose_iff start stop tables first).mpr ⟨hfirst, hstart, hstop, ?_⟩
  intro u hu
  exact (u.spans_eq_false _).mpr (Or.inl (htables u hu))

theorem countP_isLoose_zero (start stop : Nat) (tables : List KeyTable) (ts : List Token)
    (h : ∀ t ∈ ts, t.kind ≠ .lbracket ∨ stop ≤ t.offset ∨ ∃ u ∈ tables, u.spans t.offset = true) :
    ts.countP (isLoose start stop tables) = 0 := by
  refine List.countP_eq_zero.mpr ?_
  intro t ht hloose
  obtain ⟨hkind, -, hlt, hout⟩ := (isLoose_iff start stop tables t).mp hloose
  obtain hk | hle | ⟨u, hu, hin⟩ := h t ht
  · exact hk hkind
  · omega
  · have hfalse := hout u hu
    rw [hin] at hfalse
    simp at hfalse

/-- Of the tokens of a table only its opening bracket is loose, for the table that it starts lies
around none of the tokens that follow. -/
theorem countP_loose_table (start stop : Nat) (first name last : Token) (middle ts : List Token)
    (table : KeyTable) (tables : List KeyTable) (hfirst : isLoose start stop tables first = true)
    (hname : name.kind ≠ .lbracket) (hlast : last.kind ≠ .lbracket)
    (htable : table.start = first.offset ∧ table.stop = last.offset + 1)
    (hs : (first :: name :: (middle ++ last :: ts)).Pairwise fun t u => t.offset < u.offset) :
    (first :: name :: (middle ++ last :: ts)).countP (isLoose start stop (table :: tables)) =
      ts.countP (isLoose start stop tables) + 1 := by
  obtain ⟨hlt, hs'⟩ := List.pairwise_cons.mp hs
  obtain ⟨-, hsrest, hbefore⟩ := List.pairwise_append.mp (List.pairwise_cons.mp hs').2
  have houtside : ∀ t, t.offset ≤ first.offset ∨ last.offset < t.offset →
      isLoose start stop (table :: tables) t = isLoose start stop tables t := by
    intro t ht
    have hout : table.spans t.offset = false := by
      rw [KeyTable.spans_eq_false]
      omega
    rw [Bool.eq_iff_iff, isLoose_iff, isLoose_iff, List.forall_mem_cons]
    simp [hout]
  have hinside : (middle.countP (isLoose start stop (table :: tables))) = 0 := by
    refine countP_isLoose_zero _ _ _ _ (fun t ht => Or.inr (Or.inr ⟨table, List.mem_cons_self, ?_⟩))
    have h1 := hlt t (by simp [ht])
    have h2 := hbefore t ht last List.mem_cons_self
    rw [KeyTable.spans_eq_true]
    omega
  have hmark : ∀ t, t.kind ≠ .lbracket → ¬ isLoose start stop (table :: tables) t = true := by
    intro t ht hloose
    exact ht ((isLoose_iff _ _ _ t).mp hloose).1
  have hrest : ts.countP (isLoose start stop (table :: tables)) =
      ts.countP (isLoose start stop tables) := by
    refine List.countP_congr ?_
    intro t ht
    rw [houtside t (Or.inr ((List.pairwise_cons.mp hsrest).1 t ht))]
  rw [← houtside first (Or.inl (Nat.le_refl _))] at hfirst
  rw [List.countP_cons_of_pos hfirst, List.countP_cons_of_neg (hmark name hname),
    List.countP_append, hinside, List.countP_cons_of_neg (hmark last hlast), hrest, Nat.zero_add]

/-- Every bracket outside all tables starts an entry, and every entry starts with such a bracket. -/
theorem Scanned.countP_loose {close : Token} {after ts : List Token} {tables : List KeyTable}
    {n : Nat} (h : Scanned close after ts tables n) (start : Nat)
    (hs : ts.Pairwise fun t u => t.offset < u.offset) (hstart : ∀ t ∈ ts, start < t.offset) :
    ts.countP (isLoose start close.offset tables) = tables.length + n := by
  induction h with
  | brace hclose =>
    refine countP_isLoose_zero _ _ _ _ ?_
    intro t ht
    cases ht with
    | head => exact Or.inr (Or.inl (Nat.le_refl _))
    | tail _ ht => exact Or.inr (Or.inl (Nat.le_of_lt ((List.pairwise_cons.mp hs).1 t ht)))
  | pass t ts tables n h1 h2 hrest ih =>
    obtain ⟨-, hs'⟩ := List.pairwise_cons.mp hs
    have hnot : isLoose start close.offset tables t ≠ true := by
      intro hloose
      exact h1 ((isLoose_iff _ _ _ t).mp hloose).1
    rw [List.countP_cons_of_neg hnot]
    exact ih hs' (fun x hx => hstart x (List.mem_cons_of_mem t hx))
  | fault first header ts tables n hfirst hheader hrest ih =>
    obtain ⟨hlt, hs'⟩ := List.pairwise_cons.mp hs
    have hloose : isLoose start close.offset tables first = true := by
      refine isLoose_first _ _ _ first hfirst (hstart first List.mem_cons_self)
        (hlt close (List.mem_append_right _ hrest.mem_close)) ?_
      intro u hu
      obtain ⟨x, hx, hoffset⟩ := hrest.mem_start u hu
      rw [← hoffset]
      exact Nat.le_of_lt (hlt x (List.mem_append_right _ hx))
    have hzero : header.countP (isLoose start close.offset tables) = 0 := by
      refine countP_isLoose_zero _ _ _ _ (fun t ht => Or.inl ?_)
      have hkinds : ∀ k ∈ tableHeader, k ≠ .lbracket := by decide
      exact hkinds _ (hheader t ht)
    rw [List.countP_cons_of_pos hloose, List.countP_append, hzero,
      ih (List.pairwise_append.mp hs').2.1
        (fun x hx => hstart x (List.mem_cons_of_mem _ (List.mem_append_right _ hx)))]
    omega
  | table first name last middle ts keys tables n hfirst hname hlast hrest ih =>
    obtain ⟨hlt, hs'⟩ := List.pairwise_cons.mp hs
    obtain ⟨-, hsrest, -⟩ := List.pairwise_append.mp (List.pairwise_cons.mp hs').2
    have hloose : isLoose start close.offset tables first = true := by
      refine isLoose_first _ _ _ first hfirst (hstart first List.mem_cons_self)
        (hlt close (by simp [hrest.mem_close])) ?_
      intro u hu
      obtain ⟨x, hx, hoffset⟩ := hrest.mem_start u hu
      rw [← hoffset]
      exact Nat.le_of_lt (hlt x (by simp [hx]))
    have hname' : name.kind ≠ .lbracket := by simp [hname]
    have hlast' : last.kind ≠ .lbracket := by
      obtain hl | hl := hlast <;> simp [hl]
    rw [countP_loose_table start close.offset first name last middle ts _ tables hloose hname'
      hlast' ⟨rfl, rfl⟩ hs, ih (List.pairwise_cons.mp hsrest).2 (fun x hx => hstart x (by simp [hx])),
      List.length_cons]
    omega

end Cursor

/-! ## Blocks -/

open Cursor

theorem scanned_of_parseBlock (d : Bytes) (b : Block) (h : (parseBlock d).value = some b) :
    ∃ before brace ts close after, tokensFrom 0 0 d = before ++ brace :: ts ∧
      brace.kind = .lbrace ∧ brace.offset = b.start ∧
      Scanned close after ts b.tables b.unparsed ∧ close.offset = b.stop := by
  obtain ⟨before, brace, body, close, after, hts, hbrace, hstart, hbody, hstop⟩ :=
    body_of_parseBlock d b h
  exact ⟨before, brace, body ++ after, close, after, hts, hbrace, hstart, hbody.scanned after, hstop⟩

theorem tokensBehind_start (d : Bytes) (b : Block) (h : (parseBlock d).value = some b) :
    ∃ ts close after, tokensBehind d b.start = ts ++ [.ending d.length] ∧
      Scanned close after ts b.tables b.unparsed ∧ close.offset = b.stop ∧
      ts.Pairwise (fun t u => t.offset < u.offset) := by
  obtain ⟨before, brace, ts, close, after, hts, -, hstart, hscanned, hstop⟩ :=
    scanned_of_parseBlock d b h
  have hbehind : tokensBehind d b.start = ts ++ [.ending d.length] := by
    have hall : tokens d = before ++ brace :: (ts ++ [.ending d.length]) := by
      rw [tokens, hts]
      simp
    have hincreasing := tokens_increasing d
    rw [hall] at hincreasing
    rw [tokensBehind, hall, ← hstart]
    exact filter_behind _ _ brace hincreasing
  refine ⟨ts, close, after, hbehind, hscanned, hstop, ?_⟩
  have hfilter := (tokens_increasing d).filter fun t => decide (b.start < t.offset)
  rw [← tokensBehind, hbehind] at hfilter
  exact (List.pairwise_append.mp hfilter).1

end KeyTables
