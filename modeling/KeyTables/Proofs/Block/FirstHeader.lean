import Mathlib.Logic.Relation
import KeyTables.Proofs.Block.Scan
import KeyTables.Proofs.Token.Extent

/-! The search for a block settles on its first header. An attempt that breaks off has moved over
tokens of the header only, and none of them is a first word, so no header starts there.

* `HeaderAt`: a header starts at an index of some tokens.
* `Settles`, `settles_findBlock`: what the search comes to.
* `BodyStep`: one step of the scan behind a header, over a token or over an entry.
* `entries_none_iff`, `reaches_of_entries`: where the scan ends. -/
namespace KeyTables
set_option autoImplicit false

namespace Cursor

/-! ## Headers -/

/-- The kinds of a whole header, from its first word to its opening brace. -/
def openingKinds : List Token.Kind :=
  [.const, .ident, .progmem, .ident, .lbracket, .rbracket, .lbracket, .ident, .rbracket, .lbracket,
   .ident, .rbracket, .equals, .lbrace]

def HeaderAt (ts : List Token) (i : Nat) : Prop :=
  openingKinds <+: (ts.map Token.kind).drop i

instance (ts : List Token) (i : Nat) : Decidable (HeaderAt ts i) :=
  inferInstanceAs (Decidable (_ <+: _))

theorem headerAt_append (us ts : List Token) (i : Nat) :
    HeaderAt (us ++ ts) (us.length + i) ↔ HeaderAt ts i := by
  unfold HeaderAt
  rw [← List.map_drop, ← List.map_drop, List.drop_length_add_append]

theorem headerAt_kind (ts : List Token) (i : Nat) (h : HeaderAt ts i) :
    ∃ t, ts[i]? = some t ∧ t.kind = .const := by
  obtain ⟨after, hkinds⟩ := h
  have hhead : (ts.map Token.kind)[i]? = some .const := by
    rw [← List.head?_drop, ← hkinds]
    rfl
  rw [List.getElem?_map, Option.map_eq_some_iff] at hhead
  exact hhead

theorem headerAt_length (ts : List Token) (i : Nat) (h : HeaderAt ts i) : i + 14 ≤ ts.length := by
  have hlen := h.length_le
  have h14 : openingKinds.length = 14 := rfl
  rw [h14, List.length_drop, List.length_map] at hlen
  omega

/-- The ending token belongs to no header. -/
theorem headerAt_ending (ts : List Token) (n i : Nat) :
    HeaderAt (ts ++ [.ending n]) i ↔ HeaderAt ts i := by
  constructor
  · intro h
    have hlen := headerAt_length _ i h
    rw [List.length_append, List.length_singleton] at hlen
    unfold HeaderAt at h
    rw [List.map_append, List.drop_append_of_le_length (by rw [List.length_map]; omega)] at h
    refine (List.prefix_concat_iff.mp h).resolve_left ?_
    intro hall
    have hmem : Token.Kind.eof ∈ openingKinds := by
      rw [hall]
      exact List.mem_append_right _ List.mem_cons_self
    exact absurd hmem (by decide)
  · intro h
    have hlen := headerAt_length ts i h
    unfold HeaderAt
    rw [List.map_append, List.drop_append_of_le_length (by rw [List.length_map]; omega)]
    exact h.trans (List.prefix_append _ _)

/-- The tokens that an attempt moves over before it breaks off start no header. -/
theorem not_headerAt_broken (t x : Token) (us rest : List Token) (k : Token.Kind)
    (ks : List Token.Kind) (hk : blockHeader = us.map Token.kind ++ k :: ks) (hx : x.kind ≠ k)
    (i : Nat) (hi : i < (t :: us).length) : ¬ HeaderAt (t :: us ++ x :: rest) i := by
  intro h
  cases i with
  | zero =>
    have hprefix : blockHeader <+: us.map Token.kind ++ x.kind :: rest.map Token.kind := by
      have htail := h
      unfold HeaderAt at htail
      rw [List.map_append, List.map_cons, List.map_cons, List.drop_zero, List.cons_append] at htail
      exact (List.cons_prefix_cons.mp htail).2
    rw [hk, List.prefix_append_right_inj] at hprefix
    exact hx (List.cons_prefix_cons.mp hprefix).1.symm
  | succ i =>
    obtain ⟨u, hu, hkind⟩ := headerAt_kind _ _ h
    rw [List.getElem?_append_left hi, List.getElem?_cons_succ] at hu
    have hmem : Token.Kind.const ∈ blockHeader := by
      rw [hk, ← hkind]
      exact List.mem_append_left _ (List.mem_map_of_mem (List.mem_of_getElem? hu))
    exact absurd hmem (by decide)

/-! ## The search -/

/-- There is no header and no block, or the block is what the first header opens. -/
def Settles (n : Nat) (ts : List Token) (value : Option Block) : Prop :=
  (∀ i, ¬ HeaderAt ts i) ∧ value = none ∨
    ∃ i brace, HeaderAt ts i ∧ (∀ j < i, ¬ HeaderAt ts j) ∧ ts[i + 13]? = some brace ∧
      value = (entries brace.offset ⟨ts.drop (i + 14), .ending n⟩).value

theorem Settles.prepend {n : Nat} {ts : List Token} {value : Option Block} (h : Settles n ts value)
    (us : List Token) (hus : ∀ i < us.length, ¬ HeaderAt (us ++ ts) i) :
    Settles n (us ++ ts) value := by
  have hshift : ∀ i, us.length ≤ i → HeaderAt (us ++ ts) i → HeaderAt ts (i - us.length) := by
    intro i hi hat
    rw [← headerAt_append us ts, Nat.add_sub_cancel' hi]
    exact hat
  obtain ⟨hnone, hvalue⟩ | ⟨i, brace, hat, hleast, hbrace, hvalue⟩ := h
  · refine Or.inl ⟨?_, hvalue⟩
    intro i hat
    by_cases hi : i < us.length
    · exact hus i hi hat
    · exact hnone _ (hshift i (by omega) hat)
  · refine Or.inr ⟨us.length + i, brace, (headerAt_append us ts i).mpr hat, ?_, ?_, ?_⟩
    · intro j hj hat'
      by_cases hlt : j < us.length
      · exact hus j hlt hat'
      · exact hleast _ (by omega) (hshift j (by omega) hat')
    · rw [Nat.add_assoc, List.getElem?_append_right (Nat.le_add_right _ _), Nat.add_sub_cancel_left]
      exact hbrace
    · rw [Nat.add_assoc, List.drop_length_add_append]
      exact hvalue

theorem settles_header (n : Nat) (t : Token) (us rest : List Token) (ht : t.kind = .const)
    (hus : us.map Token.kind = blockHeader) :
    Settles n (t :: (us ++ rest)) (findBlock ⟨t :: (us ++ rest), .ending n⟩).value := by
  have hlen : us.length = 13 := by
    rw [← List.length_map (f := Token.kind), hus]
    rfl
  have hat : HeaderAt (t :: (us ++ rest)) 0 := by
    refine ⟨rest.map Token.kind, ?_⟩
    rw [List.drop_zero, List.map_cons, List.map_append, ht, hus]
    rfl
  refine Or.inr ⟨0, us.getLastD t, hat, fun j hj => absurd hj (by omega), ?_, ?_⟩
  · rw [Nat.zero_add, List.getElem?_cons_succ, List.getElem?_append_left (by omega)]
    cases hlast : us.getLast? with
    | none => simp [List.getLast?_eq_none_iff.mp hlast] at hlen
    | some brace =>
      rw [List.getLast?_eq_getElem?, hlen] at hlast
      rw [hlast, List.getLastD_eq_getLast?, List.getLast?_eq_getElem?, hlen, hlast]
      rfl
  · have hdrop : (t :: (us ++ rest)).drop (0 + 14) = rest := by
      rw [Nat.zero_add, List.drop_succ_cons, ← hlen, List.drop_left]
    rw [hdrop]
    exact opens_header t us ht hus rest n

theorem settles_findBlock (n : Nat) (ts : List Token) :
    Settles n ts (findBlock ⟨ts, .ending n⟩).value := by
  induction hm : ts.length using Nat.strongRecOn generalizing ts with
  | ind m ih =>
    cases ts with
    | nil =>
      rw [findBlock_nil]
      exact Or.inl ⟨fun i hat => by have := headerAt_length _ i hat; simp at this, rfl⟩
    | cons t ts =>
      rw [List.length_cons] at hm
      by_cases ht : t.kind = .const
      · obtain ⟨us, rest, rfl, hus⟩ | ⟨us, k, ks, x, rest, hk, rfl, hx⟩ | ⟨k, ks, hk⟩ :=
          kinds_cases blockHeader ts
        · exact settles_header n t us rest ht hus
        · -- the search goes on with the token at which the attempt breaks off
          have hheader := expectAll_mismatch us rest k ks t x (.ending n) hx
          rw [← hk] at hheader
          rw [List.length_append] at hm
          have hrest := ih (x :: rest).length (by omega) (x :: rest) rfl
          have hvalue : (findBlock ⟨t :: (us ++ x :: rest), .ending n⟩).value =
              (findBlock ⟨x :: rest, .ending n⟩).value := by
            rw [findBlock_const t _ _ ht, keymapsBlock, hheader]
            rfl
          rw [hvalue]
          exact hrest.prepend (t :: us) (not_headerAt_broken t x us rest k ks hk hx)
        · -- the tokens end inside the header
          have hshort : ts.length < 13 := by
            have hlen := congrArg List.length hk
            rw [List.length_append, List.length_map, List.length_cons] at hlen
            have h13 : blockHeader.length = 13 := rfl
            omega
          have hnone : ∀ i, ¬ HeaderAt (t :: ts) i := by
            intro i hat
            have hlen := headerAt_length _ i hat
            rw [List.length_cons] at hlen
            omega
          refine Or.inl ⟨hnone, ?_⟩
          rw [findBlock_const t _ _ ht, keymapsBlock,
            expectAll_ending ts blockHeader k ks t n hk (by decide)]
          exact findBlock_nil _
      · rw [findBlock_skip t _ _ ht]
        refine (ih ts.length (by omega) ts rfl).prepend [t] ?_
        intro i hi hat
        obtain ⟨u, hu, hkind⟩ := headerAt_kind _ i hat
        obtain rfl : i = 0 := by simpa using hi
        obtain rfl : t = u := by simpa using hu
        exact ht hkind

/-! ## The scan behind a header -/

/-- One step of the scan behind a header: over a token that neither starts an entry nor ends the
block, or over an entry, table or not. -/
inductive BodyStep : Cursor → Cursor → Prop
  | pass (t last : Token) (ts : List Token) (h1 : t.kind ≠ .lbracket) (h2 : t.kind ≠ .rbrace) :
      BodyStep ⟨t :: ts, last⟩ ⟨ts, last⟩
  | entry (t last : Token) (ts : List Token) (h : t.kind = .lbracket) :
      BodyStep ⟨t :: ts, last⟩ (keyTable ⟨t :: ts, last⟩).cursor.advance

/-- The scan cannot tell one of its steps from the start. -/
theorem BodyStep.entries_none {c c' : Cursor} (h : BodyStep c c') (start : Nat) :
    (entries start c).value = none ↔ (entries start c').value = none := by
  cases h with
  | pass t last ts h1 h2 => rw [entries_skip start t last ts h1 h2]
  | entry t last ts h =>
    cases hvalue : (keyTable ⟨t :: ts, last⟩).value with
    | none => rw [entries_of_keyTable_none start t last ts h hvalue, Option.map_eq_none_iff]
    | some table => rw [entries_of_keyTable start t last ts table h hvalue, Option.map_eq_none_iff]

theorem bodyStep_entry (c : Cursor) (t : Token) (ts : List Token) (hts : c.ahead = t :: ts)
    (h : t.kind = .lbracket) : BodyStep c (keyTable c).cursor.advance := by
  obtain ⟨ahead, last⟩ := c
  obtain rfl : ahead = t :: ts := hts
  exact .entry t last ts h

theorem bodyStep_pass (c : Cursor) (t : Token) (ts : List Token) (hts : c.ahead = t :: ts)
    (h1 : t.kind ≠ .lbracket) (h2 : t.kind ≠ .rbrace) : BodyStep c c.advance := by
  obtain ⟨ahead, last⟩ := c
  obtain rfl : ahead = t :: ts := hts
  exact .pass t last ts h1 h2

/-- A block is missing exactly if the scan comes to the end of the tokens. -/
theorem entries_none_iff (start : Nat) (c : Cursor) :
    (entries start c).value = none ↔ Relation.ReflTransGen BodyStep c c.exhausted := by
  constructor
  · intro h
    fun_induction entries start c with
    | case1 c hc =>
      have hself : c.exhausted = c := by
        unfold exhausted
        rw [← hc]
      rw [hself]
    | case2 => simp at h
    | case3 c t ts hts h2 h1 entry rest block ih =>
      have hrest : rest.value = none := by
        simp only [block] at h
        split at h <;> simpa using h
      have hlast : entry.cursor.advance.exhausted = c.exhausted := by
        unfold exhausted
        rw [((follows_advance _).trans (follows_keyTable c)).2]
      rw [← hlast]
      exact (ih hrest).head (bodyStep_entry c t ts hts h1)
    | case4 c t ts hts h2 h1 ih => exact (ih h).head (bodyStep_pass c t ts hts h1 h2)
  · intro h
    have hend : ∀ c', Relation.ReflTransGen BodyStep c c' →
        ((entries start c).value = none ↔ (entries start c').value = none) := by
      intro c' hrun
      induction hrun with
      | refl => rfl
      | tail _ hstep ih => exact ih.trans (hstep.entries_none start)
    refine (hend _ h).mpr ?_
    rw [exhausted, entries]

/-- A block ends at the first closing brace that the scan comes to. -/
theorem reaches_of_entries (start : Nat) (c : Cursor) (b : Block)
    (h : (entries start c).value = some b) :
    ∃ c', Relation.ReflTransGen BodyStep c c' ∧ c'.curr.kind = .rbrace ∧
      c'.curr.offset = b.stop := by
  fun_induction entries start c generalizing b with
  | case1 => simp at h
  | case2 c t ts hts ht =>
    obtain rfl := Option.some.inj h
    have hcurr : c.curr = t := by
      unfold curr
      rw [hts, List.headD_cons]
    refine ⟨c, .refl, ?_, ?_⟩
    · rw [hcurr, ht]
    · rw [hcurr]
  | case3 c t ts hts h2 h1 entry rest block ih =>
    have hrest : ∃ b', rest.value = some b' ∧ b'.stop = b.stop := by
      simp only [block] at h
      split at h
      · obtain ⟨b', hb', rfl⟩ := Option.map_eq_some_iff.mp h
        exact ⟨b', hb', rfl⟩
      · obtain ⟨b', hb', rfl⟩ := Option.map_eq_some_iff.mp h
        exact ⟨b', hb', rfl⟩
    obtain ⟨b', hb', hstop⟩ := hrest
    obtain ⟨c', hrun, hkind, hoffset⟩ := ih b' hb'
    exact ⟨c', hrun.head (bodyStep_entry c t ts hts h1), hkind, hoffset.trans hstop⟩
  | case4 c t ts hts h2 h1 ih =>
    obtain ⟨c', hrun, hends⟩ := ih b h
    exact ⟨c', hrun.head (bodyStep_pass c t ts hts h1 h2), hends⟩

/-! ## The first header of a source -/

/-- On the token of a source that has the given index. -/
def onToken (d : Bytes) (i : Nat) : Cursor :=
  ⟨(tokensFrom 0 0 d).drop i, .ending d.length⟩

end Cursor

open Cursor

/-- Without a header there is no block. With one, the block opens at the brace of the first header
and ends at the first closing brace that the scan behind it comes to; it is missing exactly if the
scan comes to the end of the source. A later header plays no part. -/
theorem first_header_decides (d : Bytes) :
    ((∀ i, ¬ HeaderAt (tokens d) i) → (parseBlock d).value = none) ∧
    ∀ i, HeaderAt (tokens d) i → (∀ j < i, ¬ HeaderAt (tokens d) j) →
      ∃ brace, (tokens d)[i + 13]? = some brace ∧
        ((parseBlock d).value = none ↔
          Relation.ReflTransGen BodyStep (onToken d (i + 14)) (Cursor.start d).exhausted) ∧
        ∀ b, (parseBlock d).value = some b → b.start = brace.offset ∧
          (∃ c, Relation.ReflTransGen BodyStep (onToken d (i + 14)) c ∧ c.curr.kind = .rbrace ∧
            c.curr.offset = b.stop) ∧
          ∀ j later, i < j → (tokens d)[j + 13]? = some later → b.start ≠ later.offset := by
  have hending : ∀ i, HeaderAt (tokens d) i ↔ HeaderAt (tokensFrom 0 0 d) i :=
    headerAt_ending _ d.length
  obtain ⟨hnone, hvalue⟩ | ⟨i, brace, hat, hleast, hbrace, hvalue⟩ :=
    settles_findBlock d.length (tokensFrom 0 0 d)
  · exact ⟨fun _ => hvalue, fun i hat => absurd ((hending i).mp hat) (hnone i)⟩
  refine ⟨fun h => absurd ((hending i).mpr hat) (h i), ?_⟩
  intro i' hat' hleast'
  obtain rfl : i = i' := by
    refine Nat.le_antisymm (Nat.le_of_not_lt ?_) (Nat.le_of_not_lt ?_)
    · exact fun hlt => hleast i' hlt ((hending i').mp hat')
    · exact fun hlt => hleast' i hlt ((hending i).mpr hat)
  have hindex : (tokens d)[i + 13]? = some brace := by
    have hlen := headerAt_length _ i hat
    rw [tokens, List.getElem?_append_left (by omega)]
    exact hbrace
  refine ⟨brace, hindex, ?_, ?_⟩
  · rw [parseBlock, Cursor.start, hvalue]
    exact entries_none_iff brace.offset (onToken d (i + 14))
  · intro b hb
    have hentries : (entries brace.offset (onToken d (i + 14))).value = some b := hvalue.symm.trans hb
    have hstart := entries_start _ _ b hentries
    refine ⟨hstart, reaches_of_entries _ _ b hentries, ?_⟩
    intro j later hj hlater
    obtain ⟨hi, rfl⟩ := List.getElem?_eq_some_iff.mp hindex
    obtain ⟨hj', rfl⟩ := List.getElem?_eq_some_iff.mp hlater
    have hlt := List.pairwise_iff_getElem.mp (tokens_increasing d) (i + 13) (j + 13) hi hj' (by omega)
    rw [hstart]
    exact Nat.ne_of_lt hlt

/-- A first word in front of another one, one that breaks off at the next, and two headers. -/
def restartedSource : Bytes :=
  encode ("const const x const T PROGMEM K[][R][C]=\x7b\x7d" ++
    "const T PROGMEM K[][R][C]=\x7b\x7d").toList

theorem first_header_restarted : HeaderAt (tokens restartedSource) 3 ∧
    HeaderAt (tokens restartedSource) 18 ∧
    (parseBlock restartedSource).value = some ⟨40, 41, [], 0⟩ ∧
    ∃ brace, (tokens restartedSource)[16]? = some brace ∧ 40 = brace.offset ∧
      ∃ c, Relation.ReflTransGen BodyStep (onToken restartedSource 17) c ∧
        c.curr.kind = .rbrace ∧ c.curr.offset = 41 := by
  have hat : HeaderAt (tokens restartedSource) 3 := by decide +kernel
  have hleast : ∀ j < 3, ¬ HeaderAt (tokens restartedSource) j := by decide +kernel
  have hparse : (parseBlock restartedSource).value = some ⟨40, 41, [], 0⟩ := by decide +kernel
  obtain ⟨brace, hbrace, -, hblock⟩ := (first_header_decides restartedSource).2 3 hat hleast
  obtain ⟨hstart, hscan, -⟩ := hblock _ hparse
  exact ⟨hat, by decide +kernel, hparse, brace, hbrace, hstart, hscan⟩

end KeyTables
