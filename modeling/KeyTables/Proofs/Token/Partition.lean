import KeyTables.Block.Patch
import KeyTables.Proofs.Token.Code

/-! The tokens of a source cut it up. Each token covers a span of bytes, the spans lie one behind the
other, and only spaces lie between them.

* `LineComment`, `SingleByte`, `WholeWord`: the three shapes of spans.
* `space_of_uncovered`: bytes between tokens are spaces.
* `wholeWord_of_mem`: no word goes on in front of its token or behind it.
* `tokens_partition`: the spans of all tokens. -/
namespace KeyTables
set_option autoImplicit false

/-! ## Spans -/

/-- Two slashes and the rest of the line. -/
def LineComment (d : Bytes) (start stop : Nat) : Prop :=
  [0x2F, 0x2F] <+: slice d start stop ∧ 0x0A ∉ slice d start stop ∧
    (stop = d.length ∨ d[stop]? = some 0x0A)

/-- One byte that belongs to no word. -/
def SingleByte (d : Bytes) (start stop : Nat) : Prop :=
  ∃ b, slice d start stop = [b] ∧ isSpaceByte b = false ∧ isWordByte b = false

/-- A word that goes on neither in front nor behind. -/
def WholeWord (d : Bytes) (start stop : Nat) : Prop :=
  (∀ b ∈ slice d start stop, isWordByte b = true) ∧
    (∀ b, d[stop]? = some b → isWordByte b = false) ∧
    ∀ b, 0 < start → d[start - 1]? = some b → isWordByte b = false

theorem mem_slice (d : Bytes) (start stop i : Nat) (x : UInt8) (h : d[i]? = some x)
    (h1 : start ≤ i) (h2 : i < stop) : x ∈ slice d start stop := by
  refine List.mem_of_getElem? (i := i - start) ?_
  rw [slice, List.getElem?_drop, Nat.add_sub_cancel' h1, List.getElem?_take_of_lt h2, h]

theorem slice_of_mem (d : Bytes) (t : Token) (h : t ∈ tokensFrom 0 0 d) :
    slice d t.offset t.stop = t.lexeme := by
  obtain ⟨before, after, hts⟩ := List.append_of_mem h
  obtain ⟨a, rest, rfl, hlen, -⟩ := tokensFrom_cut 0 d before after t hts
  rw [Nat.zero_add] at hlen
  rw [Token.stop, ← hlen, slice_middle]

/-! ## Between tokens -/

/-- A byte that no token covers is a space. -/
theorem space_of_uncovered (o : Nat) (bs : Bytes) (i : Nat) (b : UInt8) (h : bs[i]? = some b)
    (hout : ∀ t ∈ tokensFrom o 0 bs, o + i < t.offset ∨ t.stop ≤ o + i) :
    isSpaceByte b = true := by
  induction o, bs using lexInduction generalizing i with
  | nil o => simp at h
  | space o c bs hc ih =>
    cases i with
    | zero =>
      obtain rfl : c = b := by simpa using h
      exact hc
    | succ i =>
      refine ih i (by simpa using h) ?_
      rw [tokensFrom_space o c bs hc] at hout
      intro t ht
      have := hout t ht
      omega
  | token o c kind more rest hc hlex ih =>
    rw [tokensFrom_lexeme o c kind more rest hc hlex] at hout
    have hfirst := hout _ List.mem_cons_self
    simp only [Token.stop, List.length_cons] at hfirst
    -- the byte lies behind the first token
    obtain ⟨j, rfl⟩ : ∃ j, i = 1 + more.length + j := ⟨i - (1 + more.length), by omega⟩
    have hrest : rest[j]? = some b := by
      rw [Nat.add_comm 1, Nat.add_right_comm, List.getElem?_cons_succ,
        List.getElem?_append_right (Nat.le_add_right _ _), Nat.add_sub_cancel_left] at h
      exact h
    refine ih j hrest ?_
    intro t ht
    have := hout t (List.mem_cons_of_mem _ ht)
    omega

/-! ## Shapes -/

theorem lexemeAt_shape (b : UInt8) (kind : Token.Kind) (more rest : Bytes)
    (h : lexemeAt b (more ++ rest) = (kind, more)) (hc : kind ≠ .comment) :
    (more = [] ∧ isWordByte b = false) ∨
      ((∀ x ∈ b :: more, isWordByte x = true) ∧ ∀ x ∈ rest.head?, isWordByte x = false) := by
  rw [lexemeAt] at h
  split at h
  · next k hp =>
    obtain ⟨-, rfl⟩ := Prod.mk.inj h
    refine Or.inl ⟨rfl, Bool.eq_false_iff.mpr (fun hw => ?_)⟩
    rw [punctuation_of_word b hw] at hp
    simp at hp
  · split at h
    · exact absurd (Prod.mk.inj h).1.symm hc
    · split at h
      · next hw =>
        obtain ⟨hmore, hrest⟩ := stop_of_takeWhile _ more rest (Prod.mk.inj h).2
        exact Or.inr ⟨List.forall_mem_cons.mpr ⟨hw, hmore⟩, hrest⟩
      · next hw =>
        obtain ⟨-, rfl⟩ := Prod.mk.inj h
        exact Or.inl ⟨rfl, by simpa using hw⟩

section
variable (d : Bytes)

/-- What stands behind a token. -/
theorem getElem?_stop (t : Token) (h : t ∈ tokensFrom 0 0 d) : ∃ b more rest,
    t.lexeme = b :: more ∧ lexemeAt b (more ++ rest) = (t.kind, more) ∧
      isSpaceByte b = false ∧ d[t.stop]? = rest.head? := by
  obtain ⟨a, b, more, rest, rfl, hlen, hlexeme, hb, hlex⟩ := lexemeAt_of_mem 0 d t h
  refine ⟨b, more, rest, hlexeme, hlex, hb, ?_⟩
  have hstop : t.stop = (a ++ b :: more).length := by
    rw [Token.stop, hlexeme, List.length_append]
    omega
  have happ : a ++ b :: (more ++ rest) = (a ++ b :: more) ++ rest := by simp
  rw [hstop, happ, List.getElem?_append_right (Nat.le_refl _), Nat.sub_self,
    List.head?_eq_getElem?]

theorem lineComment_of_mem (t : Token) (h : t ∈ tokensFrom 0 0 d) (hc : t.kind = .comment) :
    LineComment d t.offset t.stop := by
  obtain ⟨b, more, rest, hlexeme, hlex, -, hnext⟩ := getElem?_stop d t h
  rw [hc] at hlex
  obtain ⟨body, rfl, rfl, -, hrest⟩ := lexemeAt_comment b more rest hlex
  unfold LineComment
  rw [slice_of_mem d t h]
  refine ⟨⟨body, hlexeme.symm⟩, ?_, ?_⟩
  · intro hmem
    exact absurd (not_lineFeed_of_mem 0 d t h 0x0A hmem) (by decide)
  · cases hx : rest.head? with
    | none =>
      have hstop := stop_le_of_mem 0 d t h
      rw [hx, List.getElem?_eq_none_iff] at hnext
      exact Or.inl (by omega)
    | some x =>
      have hlf : x = 0x0A := by simpa [isLineFeed] using hrest x hx
      exact Or.inr (by rw [hnext, hx, hlf])

theorem shape_of_mem (t : Token) (h : t ∈ tokensFrom 0 0 d) (hc : t.kind ≠ .comment) :
    SingleByte d t.offset t.stop ∨ ((∀ b ∈ slice d t.offset t.stop, isWordByte b = true) ∧
      ∀ b, d[t.stop]? = some b → isWordByte b = false) := by
  obtain ⟨b, more, rest, hlexeme, hlex, hb, hnext⟩ := getElem?_stop d t h
  unfold SingleByte
  rw [slice_of_mem d t h, hlexeme, hnext]
  obtain ⟨rfl, hw⟩ | hword := lexemeAt_shape b t.kind more rest hlex hc
  · exact Or.inl ⟨b, rfl, hb, hw⟩
  · exact Or.inr hword

/-- A token covers each byte that is no space. -/
theorem covered_of_not_space (i : Nat) (b : UInt8) (hb : d[i]? = some b)
    (hs : isSpaceByte b = false) : ∃ t ∈ tokensFrom 0 0 d, t.offset ≤ i ∧ i < t.stop := by
  refine Classical.byContradiction (fun hnone => ?_)
  have hspace : isSpaceByte b = true := by
    refine space_of_uncovered 0 d i b hb ?_
    intro t ht
    have hout : ¬ (t.offset ≤ i ∧ i < t.stop) := fun hin => hnone ⟨t, ht, hin⟩
    omega
  rw [hs] at hspace
  simp at hspace

/-- The byte in front of a word belongs to no word: it is a space, or the last byte of a token that
the word would go on with. -/
theorem not_word_before (t : Token) (h : t ∈ tokensFrom 0 0 d)
    (hword : ∀ b ∈ slice d t.offset t.stop, isWordByte b = true) (x : UInt8) (hpos : 0 < t.offset)
    (hx : d[t.offset - 1]? = some x) : isWordByte x = false := by
  obtain ⟨b, hb⟩ : ∃ b, d[t.offset]? = some b := by
    have hlt := offset_lt_stop 0 d t h
    have hle := stop_le_of_mem 0 d t h
    exact ⟨_, List.getElem?_eq_getElem (by omega)⟩
  have hbword := hword b (mem_slice d _ _ _ b hb (Nat.le_refl _) (offset_lt_stop 0 d t h))
  refine Bool.eq_false_iff.mpr (fun hxword => ?_)
  obtain ⟨u, hu, hle, hlt⟩ := covered_of_not_space d _ x hx (isSpaceByte_of_word x hxword)
  have hstop : u.stop = t.offset := by
    have := stop_le_of_lt 0 d u t hu h (by omega)
    omega
  by_cases hc : u.kind = .comment
  · obtain hend | hlf := (lineComment_of_mem d u hu hc).2.2
    · rw [← hstop, hend, List.getElem?_eq_none (Nat.le_refl _)] at hb
      simp at hb
    · rw [hstop, hb] at hlf
      rw [Option.some.inj hlf] at hbword
      exact absurd hbword (by decide)
  · obtain ⟨y, hslice, -, hy⟩ | ⟨-, hnext⟩ := shape_of_mem d u hu hc
    · have hmem := mem_slice d u.offset u.stop _ x hx hle hlt
      rw [hslice, List.mem_singleton] at hmem
      rw [hmem, hy] at hxword
      simp at hxword
    · rw [hnext b (by rw [hstop, hb])] at hbword
      simp at hbword

/-! ## All tokens -/

/-- The tokens of a source and the ending one at its end. Each token covers a span that is not empty
and whose text it has; the spans are in order, and only spaces lie outside all of them. A comment
runs from two slashes to the end of its line, and any other token is a single byte or a whole
word. -/
theorem tokens_partition : ∃ ts, tokens d = ts ++ [.ending d.length] ∧
    (∀ t ∈ ts, t.kind ≠ .eof ∧ t.offset < t.stop ∧ t.stop ≤ d.length ∧
      t.text = decodeLossy (slice d t.offset t.stop) ∧
      (t.kind = .comment → LineComment d t.offset t.stop) ∧
      (t.kind ≠ .comment → SingleByte d t.offset t.stop ∨ WholeWord d t.offset t.stop)) ∧
    (ts.Pairwise fun t u => t.stop ≤ u.offset) ∧
    ∀ i b, d[i]? = some b → (∀ t ∈ ts, i < t.offset ∨ t.stop ≤ i) → isSpaceByte b = true := by
  refine ⟨tokensFrom 0 0 d, rfl, ?_, stop_ordered 0 d, ?_⟩
  · intro t h
    refine ⟨spelled_ne_eof _ _ (spelled_of_mem 0 d t h), offset_lt_stop 0 d t h, ?_, ?_,
      lineComment_of_mem d t h, ?_⟩
    · have hstop := stop_le_of_mem 0 d t h
      omega
    · rw [slice_of_mem d t h]
      rfl
    · intro hc
      refine (shape_of_mem d t h hc).imp_right ?_
      rintro ⟨hword, hnext⟩
      exact ⟨hword, hnext, not_word_before d t h hword⟩
  · intro i b hb hout
    refine space_of_uncovered 0 d i b hb ?_
    simpa using hout

end

end KeyTables
