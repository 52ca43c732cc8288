import KeyTables.Proofs.Token.Partition

/-! Two sources put together.

* `Token.isOpen`: comments, words and slashes, which more bytes can go on with.
* `finished_of_closed`, `isOpen_of_finished`: nothing joins any other token.
* `tokens_append_iff`: a source keeps its tokens, and gives its place to what follows, if and only if
  it does not end with an open token.
* `tokens_append`: a line feed, or a bracket or separator, at the end is enough. -/
namespace KeyTables
set_option autoImplicit false

/-! ## Open tokens -/

/-- A comment, a word or a slash: the tokens that more bytes can go on with. -/
def Token.isOpen (t : Token) : Bool :=
  t.kind == .comment || t.lexeme.any isWordByte || t.lexeme == [0x2F]

theorem finished_of_closed (t : Token) (h : Token.Spelled t.kind t.lexeme)
    (hopen : t.isOpen = false) : t.Finished := by
  simp only [Token.isOpen, Bool.or_eq_false_iff, beq_eq_false_iff_ne] at hopen
  obtain ⟨⟨hcomment, hword⟩, hslash⟩ := hopen
  intro b more rest hlexeme
  rw [hlexeme] at h hword hslash
  generalize t.kind = kind at h hcomment
  generalize hw : b :: more = w at h
  cases h with
  | mark x kind hp =>
    obtain ⟨rfl, rfl⟩ := List.cons.inj hw
    exact lexemeAt_punctuation b _ kind hp
  | comment body => exact absurd rfl hcomment
  | word _ _ hall =>
    subst hw
    rw [List.any_cons, hall b List.mem_cons_self] at hword
    simp at hword
  | stray x hstray =>
    obtain ⟨rfl, rfl⟩ := List.cons.inj hw
    have hb : isSlash b = false := by simpa [isSlash] using hslash
    exact lexemeAt_of_stray b rest hstray (by rw [hb, Bool.false_and])

theorem isOpen_of_finished (t : Token) (h : Token.Spelled t.kind t.lexeme) (hf : t.Finished) :
    t.isOpen = false := by
  unfold Token.Finished at hf
  unfold Token.isOpen
  generalize t.lexeme = lexeme at h hf
  generalize t.kind = kind at h hf
  cases h with
  | mark b kind hp =>
    have hall := mark_all (fun b kind => !(kind == .comment || [b].any isWordByte || [b] == [0x2F]))
      (by decide) b kind hp
    simpa using hall
  | comment body =>
    -- one more slash would belong to the comment
    obtain ⟨-, -, -, -, hend⟩ := lexemeAt_comment _ _ _ (hf 0x2F (0x2F :: body) [0x2F] rfl)
    exact absurd (hend 0x2F rfl) (by decide)
  | word _ hne hall =>
    -- and one more underscore to the word
    obtain ⟨b, more, rfl⟩ := List.exists_cons_of_ne_nil hne
    have hb := hall b List.mem_cons_self
    obtain ⟨-, hshort⟩ | ⟨-, hend⟩ :=
      lexemeAt_shape b _ more [0x5F] (hf b more [0x5F] rfl) (wordKind_ne_comment _)
    · rw [hb] at hshort
      exact absurd hshort (by simp)
    · exact absurd (hend 0x5F rfl) (by decide)
  | stray b hstray =>
    simp only [isStray, Bool.and_eq_true, Bool.not_eq_true', Option.isNone_iff_eq_none] at hstray
    have hslash := lexemeAt_stray b _ hstray.2 (hf b [] [0x2F] rfl)
    have hb : isSlash b = false := by simpa [isSlash] using hslash
    have hne : b ≠ 0x2F := by simpa [isSlash] using hb
    simp [hstray.1.2, hne]

/-! ## The end of a source -/

/-- A token at the end that stays whatever follows it is finished. -/
theorem finished_of_kept (a : Bytes) (t : Token) (hstop : t.stop = a.length)
    (h : ∀ b, t ∈ tokensFrom 0 0 (a ++ b)) : t.Finished := by
  intro b more rest hlexeme
  obtain ⟨a', b', more', rest', hbytes, hoffset, hlexeme', -, hlex⟩ :=
    lexemeAt_of_mem 0 _ t (h rest)
  obtain ⟨rfl, rfl⟩ := List.cons.inj (hlexeme'.symm.trans hlexeme)
  have hlen : a.length = (a' ++ b' :: more').length := by
    rw [← hstop, Token.stop, hlexeme', List.length_append]
    omega
  have hcut : a ++ rest = (a' ++ b' :: more') ++ rest' := by simpa using hbytes
  obtain ⟨-, rfl⟩ := List.append_inj hcut hlen
  exact hlex

theorem sealed_of_closed (a : Bytes)
    (h : ∀ t, (tokensFrom 0 0 a).getLast? = some t → t.stop = a.length → t.isOpen = false) :
    Sealed a := by
  refine sealed_of_finished 0 a (fun t hlast => ?_)
  have ht := List.mem_of_getLast? hlast
  by_cases hstop : t.stop = a.length
  · exact Or.inl (finished_of_closed t (spelled_of_mem 0 a t ht) (h t hlast hstop))
  · have := stop_le_of_mem 0 a t ht
    exact Or.inr (by omega)

theorem tokens_moved (n : Nat) (b : Bytes) :
    (tokens b).map (Token.relocate (· + n)) = tokensFrom n 0 b ++ [Token.ending (b.length + n)] := by
  have hmoved := tokensFrom_add n 0 b
  rw [Nat.zero_add] at hmoved
  rw [tokens, List.map_append, ← hmoved]
  rfl

/-- Whatever follows a source, the tokens of both together are those of the source and, moved behind
it, those of what follows, if and only if the source does not end with an open token. -/
theorem tokens_append_iff (a : Bytes) :
    (∀ b, tokens (a ++ b) =
      (tokens a).dropLast ++ (tokens b).map (Token.relocate (· + a.length))) ↔
      ∀ t, (tokens a).dropLast.getLast? = some t → t.stop = a.length → t.isOpen = false := by
  simp only [dropLast_tokens, tokens_moved]
  constructor
  · intro h t hlast hstop
    have ht := List.mem_of_getLast? hlast
    refine isOpen_of_finished t (spelled_of_mem 0 a t ht) (finished_of_kept a t hstop ?_)
    intro b
    have hb := h b
    rw [tokens, ← List.append_assoc] at hb
    rw [(List.append_inj' hb rfl).1]
    exact List.mem_append_left _ ht
  · intro h b
    rw [tokens, sealed_of_closed a h, Nat.zero_add, List.length_append,
      Nat.add_comm a.length b.length, List.append_assoc]

/-- Behind a line feed, and behind a bracket or separator, a source can be continued by any other: the
tokens of the whole are those of the two parts, the second ones moved behind the first part. -/
theorem tokens_append (a b : Bytes)
    (h : a.getLast? = some 0x0A ∨ ∃ t, (tokens a).dropLast.getLast? = some t ∧
      t.kind.isMark = true ∧ t.stop = a.length) :
    tokens (a ++ b) = (tokens a).dropLast ++ (tokens b).map (Token.relocate (· + a.length)) := by
  refine (tokens_append_iff a).mpr ?_ b
  intro t hlast hstop
  have ht : t ∈ tokensFrom 0 0 a := by
    rw [dropLast_tokens] at hlast
    exact List.mem_of_getLast? hlast
  obtain hfeed | ⟨u, hu, hmark, -⟩ := h
  · -- the token would hold the line feed
    obtain ⟨a', rfl⟩ := List.getLast?_eq_some_iff.mp hfeed
    have := stop_lt_of_lineFeed a' t ht
    omega
  · obtain rfl : t = u := Option.some.inj (hlast.symm.trans hu)
    exact isOpen_of_finished t (spelled_of_mem 0 a t ht) (finished_of_mark 0 a t ht hmark)

/-- A comment and a slash in front of line feeds, and a bracket; slashes follow. -/
theorem tokens_append_slashes :
    ((encode "// é\n/\n".toList).getLast? = some 0x0A ∧
      tokens (encode "// é\n/\n".toList ++ encode "/ __".toList) =
        [⟨.comment, 0, encode "// é".toList⟩, ⟨.ident, 6, [0x2F]⟩, ⟨.ident, 8, [0x2F]⟩,
          ⟨.blank, 10, encode "__".toList⟩, .ending 12]) ∧
    ((tokens (encode "F(".toList)).dropLast.getLast? = some ⟨.lparen, 1, [0x28]⟩ ∧
      tokens (encode "F(".toList ++ encode "//_)".toList) =
        [⟨.ident, 0, [0x46]⟩, ⟨.lparen, 1, [0x28]⟩, ⟨.comment, 2, encode "//_)".toList⟩,
          .ending 6]) := by
  have hlast : (encode "// é\n/\n".toList).getLast? = some 0x0A := by decide +kernel
  have hopening : (tokens (encode "F(".toList)).dropLast.getLast? = some ⟨.lparen, 1, [0x28]⟩ := by
    decide +kernel
  have hfeed := tokens_append _ (encode "/ __".toList) (Or.inl hlast)
  have hmark := tokens_append _ (encode "//_)".toList) (Or.inr ⟨_, hopening, rfl, by decide +kernel⟩)
  exact ⟨⟨hlast, hfeed.trans (by decide +kernel)⟩, hopening, hmark.trans (by decide +kernel)⟩

end KeyTables
