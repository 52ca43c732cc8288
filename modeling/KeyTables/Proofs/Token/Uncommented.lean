import KeyTables.Proofs.Token.Extent

/-! Sources without their comments.

* `uncommented`: the bytes outside comments.
* `inked_tokensFrom`: the tokens that are no comments cover these bytes, spaces left out.
* `countP_uncommented_lt`: two slashes are hidden, with what follows them on their line.
* `tokensFrom_join`: bytes without a comment can be continued by anything that neither a word nor a
  comment goes on with.
* `stop_lt_of_lineFeed`, `sealed_lineFeed`: no token goes over the end of a line. -/
namespace KeyTables
set_option autoImplicit false

/-- The bytes outside comments. The line feed behind a comment is none of it. -/
def uncommented : (inComment : Bool) → Bytes → Bytes
  | _, [] => []
  | true, b :: bs => if isLineFeed b then b :: uncommented false bs else uncommented true bs
  | false, b :: bs =>
    if isSlash b && bs.head?.any isSlash then uncommented true bs else b :: uncommented false bs

/-! ## One token -/

theorem uncommented_cons (b : UInt8) (bs : Bytes)
    (h : (isSlash b && bs.head?.any isSlash) = false) :
    uncommented false (b :: bs) = b :: uncommented false bs := by
  rw [uncommented, h]
  rfl

theorem uncommented_word (w rest : Bytes) (h : ∀ b ∈ w, isWordByte b = true) :
    uncommented false (w ++ rest) = w ++ uncommented false rest := by
  induction w with
  | nil => rfl
  | cons b w ih =>
    have hb := isSlash_of_word b (h b List.mem_cons_self)
    rw [List.cons_append, uncommented_cons b _ (by rw [hb, Bool.false_and]),
      ih (fun x hx => h x (List.mem_cons_of_mem b hx)), List.cons_append]

theorem uncommented_space (b : UInt8) (bs : Bytes) (h : isSpaceByte b = true) :
    uncommented false (b :: bs) = b :: uncommented false bs := by
  have hslash : isSlash b = false := by
    simp only [isSpaceByte, Bool.or_eq_true, beq_iff_eq] at h
    obtain ((rfl | rfl) | rfl) | rfl := h <;> rfl
  exact uncommented_cons b bs (by rw [hslash, Bool.false_and])

theorem uncommented_hidden (body rest : Bytes) (h : ∀ b ∈ body, isLineFeed b = false) :
    uncommented true (body ++ rest) = uncommented true rest := by
  induction body with
  | nil => rfl
  | cons b body ih =>
    rw [List.cons_append, uncommented, if_neg (by rw [h b List.mem_cons_self]; simp),
      ih (fun x hx => h x (List.mem_cons_of_mem b hx))]

/-- Two slashes hide what follows them on their line, in a comment or not. -/
theorem uncommented_slashes (inComment : Bool) (body rest : Bytes)
    (h : ∀ b ∈ body, isLineFeed b = false) :
    uncommented inComment (0x2F :: 0x2F :: body ++ rest) = uncommented true rest := by
  have htail := uncommented_hidden (0x2F :: body) rest (by simpa using ⟨rfl, h⟩)
  rw [List.cons_append]
  cases inComment with
  | true => rw [uncommented, if_neg (by simp [isLineFeed]), htail]
  | false => rw [uncommented, if_pos (by rfl), htail]

theorem uncommented_lineEnd (rest : Bytes) (h : ∀ b ∈ rest.head?, isLineFeed b = true) :
    uncommented true rest = uncommented false rest := by
  cases rest with
  | nil => rfl
  | cons b rest =>
    have hb : isLineFeed b = true := h b rfl
    obtain rfl : b = 0x0A := by simpa [isLineFeed] using hb
    rw [uncommented_cons 0x0A rest rfl]
    rfl

/-- A token stays unless it is a comment. -/
theorem uncommented_lexeme (b : UInt8) (kind : Token.Kind) (more rest : Bytes)
    (hb : isSpaceByte b = false) (hlex : lexemeAt b (more ++ rest) = (kind, more)) :
    uncommented false (b :: (more ++ rest)) =
      (if kind = .comment then [] else b :: more) ++ uncommented false rest := by
  have hspelled := spelled_lexemeAt b _ kind more hb hlex
  generalize hw : b :: more = w at hspelled
  cases hspelled with
  | mark x kind hp =>
    obtain ⟨rfl, rfl⟩ := List.cons.inj hw
    have hslash : isSlash b = false := by
      simpa using mark_all (fun b _ => !isSlash b) (by decide) b kind hp
    have hcomment : kind ≠ .comment := by
      simpa using mark_all (fun _ kind => kind != .comment) (by decide) b kind hp
    rw [if_neg hcomment, List.nil_append, uncommented_cons b rest (by rw [hslash, Bool.false_and])]
    rfl
  | comment body' =>
    obtain ⟨body, rfl, rfl, hbody, hrest⟩ := lexemeAt_comment b more rest hlex
    rw [if_pos rfl, List.nil_append, ← uncommented_lineEnd rest hrest]
    exact uncommented_slashes false body rest hbody
  | word _ hne hword =>
    rw [if_neg (wordKind_ne_comment _), ← hw, ← List.cons_append]
    exact uncommented_word (b :: more) rest (by rw [hw]; exact hword)
  | stray x hstray =>
    obtain ⟨rfl, rfl⟩ := List.cons.inj hw
    have hp : punctuation? b = none := by
      simp only [isStray, Bool.and_eq_true, Option.isNone_iff_eq_none] at hstray
      exact hstray.2
    rw [if_neg (by simp), List.nil_append, uncommented_cons b rest (lexemeAt_stray b rest hp hlex)]
    rfl

/-! ## All tokens -/

/-- The bytes of the tokens that are no comments. -/
def inked (ts : List Token) : Bytes :=
  ts.flatMap fun t => if t.kind = .comment then [] else t.lexeme

theorem not_space_of_spelled (kind : Token.Kind) (lexeme : Bytes)
    (h : Token.Spelled kind lexeme) (hc : kind ≠ .comment) :
    ∀ b ∈ lexeme, isSpaceByte b = false := by
  intro b hb
  cases h with
  | mark x kind hp =>
    rw [List.mem_singleton.mp hb]
    exact isSpaceByte_of_mark x kind hp
  | comment body => exact absurd rfl hc
  | word _ _ hword => exact isSpaceByte_of_word b (hword b hb)
  | stray x hstray =>
    rw [List.mem_singleton.mp hb]
    simp only [isStray, Bool.and_eq_true, Bool.not_eq_true'] at hstray
    exact hstray.1.1

theorem inked_tokensFrom (o : Nat) (bs : Bytes) :
    inked (tokensFrom o 0 bs) = (uncommented false bs).filter fun b => !isSpaceByte b := by
  induction o, bs using lexInduction with
  | nil o => rfl
  | space o b bs hb ih =>
    rw [tokensFrom_space o b bs hb, uncommented_space b bs hb,
      List.filter_cons_of_neg (by simpa using hb), ih]
  | token o b kind more rest hb hlex ih =>
    have hspelled := spelled_lexemeAt b _ kind more hb hlex
    rw [tokensFrom_lexeme o b kind more rest hb hlex, uncommented_lexeme b kind more rest hb hlex,
      List.filter_append, ← ih, inked, List.flatMap_cons]
    congr 1
    by_cases hc : kind = .comment
    · simp [hc]
    · have hkept := not_space_of_spelled kind (b :: more) hspelled hc
      rw [if_neg hc, List.filter_eq_self.mpr (by simpa using hkept)]

/-- Without comments nothing is left out. -/
theorem uncommented_eq_self (o : Nat) (bs : Bytes)
    (h : ∀ t ∈ tokensFrom o 0 bs, t.kind ≠ .comment) : uncommented false bs = bs := by
  induction o, bs using lexInduction with
  | nil o => rfl
  | space o b bs hb ih =>
    rw [tokensFrom_space o b bs hb] at h
    rw [uncommented_space b bs hb, ih h]
  | token o b kind more rest hb hlex ih =>
    rw [tokensFrom_lexeme o b kind more rest hb hlex] at h
    have hkind : kind ≠ .comment := h _ List.mem_cons_self
    rw [uncommented_lexeme b kind more rest hb hlex, if_neg hkind,
      ih (fun t ht => h t (List.mem_cons_of_mem _ ht))]
    rfl

/-! ## Comments -/

theorem uncommented_sublist (inComment : Bool) (bs : Bytes) :
    (uncommented inComment bs).Sublist bs := by
  fun_induction uncommented inComment bs with
  | case1 => exact List.Sublist.refl _
  | case2 b bs hb ih => exact ih.cons_cons b
  | case3 b bs hb ih => exact ih.cons b
  | case4 b bs hb ih => exact ih.cons b
  | case5 b bs hb ih => exact ih.cons_cons b

/-- Without two slashes in a row nothing is left out. -/
theorem uncommented_of_apart (bs : Bytes) (h : ¬ [0x2F, 0x2F] <:+: bs) :
    uncommented false bs = bs := by
  induction bs with
  | nil => rfl
  | cons b bs ih =>
    have htail : ¬ [0x2F, 0x2F] <:+: bs := fun hin => h (hin.trans (List.suffix_cons b bs).isInfix)
    have hapart : (isSlash b && bs.head?.any isSlash) = false := by
      refine Bool.eq_false_iff.mpr (fun hs => h ?_)
      obtain ⟨hb, hx⟩ := Bool.and_eq_true_iff.mp hs
      obtain rfl : b = 0x2F := by simpa [isSlash] using hb
      cases bs with
      | nil => simp at hx
      | cons x bs =>
        obtain rfl : x = 0x2F := by simpa [isSlash] using hx
        exact (List.prefix_append [0x2F, 0x2F] bs).isInfix
    rw [uncommented_cons b bs hapart, ih htail]

/-- Two slashes are hidden, with what follows them on their line. -/
theorem countP_uncommented_lt (p : UInt8 → Bool) (inComment : Bool) (a m r : Bytes)
    (hm : ∀ b ∈ m, isLineFeed b = false) (hp : ∃ x ∈ 0x2F :: 0x2F :: m, p x = true) :
    (uncommented inComment (a ++ (0x2F :: 0x2F :: m ++ r))).countP p <
      (a ++ (0x2F :: 0x2F :: m ++ r)).countP p := by
  have hle : ∀ c bs, (uncommented c bs).countP p ≤ bs.countP p :=
    fun c bs => (uncommented_sublist c bs).countP_le
  induction a generalizing inComment with
  | nil =>
    have hrest := hle true r
    have hpos := List.countP_pos_iff.mpr hp
    rw [List.nil_append, uncommented_slashes inComment m r hm, List.countP_append]
    omega
  | cons b a ih =>
    have h1 := ih true
    have h2 := ih false
    rw [List.cons_append, List.countP_cons]
    cases inComment with
    | true =>
      rw [uncommented]
      split
      · rw [List.countP_cons]
        omega
      · omega
    | false =>
      rw [uncommented]
      split
      · omega
      · rw [List.countP_cons]
        omega

/-! ## Joining bytes -/

/-- A token that is no comment goes on with a word byte or a slash only. -/
theorem lexemeAt_apart (b : UInt8) (kind : Token.Kind) (more rest : Bytes)
    (hb : isSpaceByte b = false) (hlex : lexemeAt b more = (kind, more)) (hc : kind ≠ .comment)
    (hrest : ∀ x ∈ rest.head?, isWordByte x = false ∧ isSlash x = false) :
    lexemeAt b (more ++ rest) = (kind, more) := by
  have hspelled := spelled_lexemeAt b _ kind more hb hlex
  generalize hw : b :: more = w at hspelled
  cases hspelled with
  | mark x kind hp =>
    obtain ⟨rfl, rfl⟩ := List.cons.inj hw
    exact lexemeAt_punctuation b _ kind hp
  | comment body => exact absurd rfl hc
  | word _ hne hword =>
    subst hw
    have hb := hword b List.mem_cons_self
    have hrun : (more ++ rest).takeWhile isWordByte = more :=
      takeWhile_append_stop _ _ _ (fun x hx => hword x (List.mem_cons_of_mem b hx))
        (fun x hx => (hrest x hx).1)
    rw [lexemeAt, punctuation_of_word b hb, isSlash_of_word b hb, hb, hrun]
    rfl
  | stray x hstray =>
    obtain ⟨rfl, rfl⟩ := List.cons.inj hw
    have hs : (rest.head?.any isSlash) = false := by
      cases hx : rest.head? with
      | none => rfl
      | some x => exact (hrest x hx).2
    exact lexemeAt_of_stray b rest hstray (by rw [hs, Bool.and_false])

theorem tokensFrom_join (o : Nat) (a rest : Bytes)
    (ha : ∀ t ∈ tokensFrom o 0 a, t.kind ≠ .comment)
    (hrest : ∀ x ∈ rest.head?, isWordByte x = false ∧ isSlash x = false) :
    tokensFrom o 0 (a ++ rest) = tokensFrom o 0 a ++ tokensFrom (o + a.length) 0 rest := by
  induction o, a using lexInduction with
  | nil o => rfl
  | space o b bs hb ih =>
    rw [tokensFrom_space o b bs hb] at ha
    rw [List.cons_append, tokensFrom_space o b _ hb, tokensFrom_space o b bs hb, ih ha,
      List.length_cons]
    congr 2
    omega
  | token o b kind more tail hb hlex ih =>
    rw [tokensFrom_lexeme o b kind more tail hb hlex] at ha ⊢
    have hkind : kind ≠ .comment := ha _ List.mem_cons_self
    have hlex' : lexemeAt b (more ++ (tail ++ rest)) = (kind, more) := by
      cases tail with
      | nil =>
        rw [List.append_nil] at hlex
        exact lexemeAt_apart b kind more rest hb hlex hkind hrest
      | cons x tail => exact lexemeAt_congr b kind more _ _ hlex (Or.inr rfl)
    rw [List.cons_append, List.append_assoc, tokensFrom_lexeme o b kind more _ hb hlex',
      ih (fun t ht => ha t (List.mem_cons_of_mem _ ht)), List.cons_append, List.length_cons,
      List.length_append]
    congr 3
    omega

/-! ## Ends of lines -/

theorem not_lineFeed_of_mem (o : Nat) (bs : Bytes) (t : Token) (h : t ∈ tokensFrom o 0 bs) :
    ∀ b ∈ t.lexeme, isLineFeed b = false := by
  intro x hx
  by_cases hc : t.kind = .comment
  · obtain ⟨a, b, more, rest, -, -, hlexeme, -, hlex⟩ := lexemeAt_of_mem o bs t h
    rw [hc] at hlex
    obtain ⟨body, rfl, rfl, hbody, -⟩ := lexemeAt_comment b more rest hlex
    rw [hlexeme, List.mem_cons, List.mem_cons] at hx
    obtain rfl | rfl | hx := hx
    · rfl
    · rfl
    · exact hbody x hx
  · have hspace := not_space_of_spelled t.kind _ (spelled_of_mem o bs t h) hc x hx
    refine Bool.eq_false_iff.mpr (fun hlf => ?_)
    obtain rfl : x = 0x0A := by simpa [isLineFeed] using hlf
    exact absurd hspace (by decide)

/-- No token goes over the end of a line. -/
theorem stop_lt_of_lineFeed (a : Bytes) (t : Token) (h : t ∈ tokensFrom 0 0 (a ++ [0x0A])) :
    t.stop < (a ++ [0x0A]).length := by
  have hpos := offset_lt_stop 0 _ t h
  obtain ⟨before, after, hts⟩ := List.append_of_mem h
  obtain ⟨a', rest, hbytes, hoffset, -⟩ := tokensFrom_cut 0 _ before after t hts
  have hlen := congrArg List.length hbytes
  simp only [List.length_append] at hlen
  unfold Token.stop at hpos ⊢
  rw [List.length_append]
  by_cases hrest : rest = []
  · -- the last byte would be in the token
    exfalso
    have hne : t.lexeme ≠ [] := by
      intro hnil
      rw [hnil, List.length_nil] at hpos
      omega
    have hlast := congrArg List.getLast? hbytes
    rw [hrest, List.append_nil, List.getLast?_append, List.getLast?_append,
      List.getLast?_eq_some_getLast hne] at hlast
    have hx := not_lineFeed_of_mem 0 _ t h _ (List.getLast_mem hne)
    rw [← Option.some.inj hlast] at hx
    exact absurd hx (by decide)
  · have := List.length_pos_iff.mpr hrest
    omega

theorem sealed_lineFeed (a : Bytes) : Sealed (a ++ [0x0A]) := by
  refine sealed_of_last 0 _ (fun t ht => Or.inr ?_)
  rw [Nat.zero_add]
  exact stop_lt_of_lineFeed a t (List.mem_of_getLast? ht)

end KeyTables
