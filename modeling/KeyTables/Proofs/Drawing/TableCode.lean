import KeyTables.Proofs.Block.KeyInk
import KeyTables.Proofs.Drawing.Forms

/-! The code of a table in a source and that of its drawing.

* `tableCode`: the code of a table of a name with keys.
* `code_segment`: the code of a segment, from what stands in front of its table on.
* `code_entry`: the code of a drawn table.
* `weight_entry_le`: no class of characters is more frequent in a drawn table than in the segment
  that it replaces.
* `code_entry_iff`: the two have the same code if and only if the keys survive and the segment holds
  nothing but the table. -/
namespace KeyTables
set_option autoImplicit false
open Cursor

/-! ## Tables -/

def tableCode (name : Text) (keys : List Text) : List (Token.Kind × Text) :=
  (tableForms name keys).filterMap code?

def keyCode (k : Text) : List (Token.Kind × Text) :=
  codeOf (encode (shown k))

theorem filterMap_intercalate {α β : Type} (f : α → Option β) (x : α) (hx : f x = none)
    (ls : List (List α)) :
    (List.intercalate [x] ls).filterMap f = ls.flatMap fun l => l.filterMap f := by
  induction ls with
  | nil => rfl
  | cons l ls ih =>
    cases ls with
    | nil => simp [List.intercalate]
    | cons l' ls =>
      rw [intercalate_cons_cons, List.filterMap_append, List.filterMap_append, ih,
        List.filterMap_cons, hx]
      rfl

theorem code_keys (keys : List Text) :
    (List.intercalate [commaForm] (keys.map keyForms)).filterMap code? = keys.flatMap keyCode := by
  rw [filterMap_intercalate code? commaForm rfl, List.flatMap_map]
  congr 1
  funext k
  exact (codeOf_eq _).symm

theorem tableCode_eq (name : Text) (keys : List Text) :
    tableCode name keys = headerForms name ++ (keys.flatMap keyCode ++ [closeForm]) := by
  unfold tableCode tableForms
  rw [List.filterMap_append, List.filterMap_append, code_keys]
  rfl

/-! ## Segments -/

theorem PieceTokens.parts (ts : List Token) (table : KeyTable) (comma : Bool)
    (h : PieceTokens ts table comma) :
    ∃ gap body after first close, ts = gap ++ (body ++ after) ∧ IsGap gap ∧
      TableTokens body first table.name close table.keys ∧
      ∀ t ∈ after, t.kind = .comment ∨ t.kind = .comma := by
  cases h with
  | plain gap body first name close keys hgap hbody =>
    exact ⟨gap, body, [], first, close, by simp, hgap, hbody, by simp⟩
  | comma gap body comments first name close comma keys hgap hbody hcomments hcomma =>
    refine ⟨gap, body, comments ++ [comma], first, close, rfl, hgap, hbody, ?_⟩
    intro t ht
    rcases List.mem_append.mp ht with ht | ht
    · exact Or.inl (by simpa [isComment] using hcomments t ht)
    · rw [List.mem_singleton.mp ht]
      exact Or.inr hcomma

/-- The code of a segment: what stands in front of the table, the table header, the tokens that the
keys are read from, and the parenthesis. -/
theorem code_segment (p : Segment) (h : p.Reads) : ∃ gap inner,
    codeOf (encode p.text) =
      gap ++ (headerForms p.name ++ ((inner.map Token.form).filterMap code? ++ [closeForm])) ∧
    (∀ f ∈ gap, f.1 ≠ .lbracket) ∧ (∀ t ∈ inner, Token.Spelled t.kind t.lexeme) ∧
    Covers p.keys inner := by
  obtain ⟨table, htokens, hname, hkeys, -⟩ := h.2 0
  obtain ⟨gap, body, after, first, close, hts, hgap, hbody, hafter⟩ :=
    PieceTokens.parts _ _ _ htokens
  obtain ⟨middle, inner, rfl, hfirst, hheader, hclose, hall⟩ := hbody
  have hspelled := spelled_of_mem 0 (encode p.text)
  rw [hts] at hspelled
  have hsub : ∀ t ∈ inner ++ [close], Token.Spelled t.kind t.lexeme := by
    intro t ht
    apply hspelled
    simp only [List.mem_append, List.mem_cons] at ht ⊢
    grind
  obtain ⟨inner', close', after', hinner, hrest, hcovers⟩ :=
    covers_of_keysFrom (inner ++ [close]) table.keys [close] hsub (hall [])
  obtain ⟨rfl, rfl⟩ := List.cons.inj hrest
  obtain ⟨rfl, -⟩ := List.append_inj' hinner rfl
  rw [hkeys] at hcovers
  refine ⟨(gap.map Token.form).filterMap code?, inner, ?_, ?_, fun t ht => hsub t (by simp [ht]),
    hcovers⟩
  · have hforms := forms_header first table.name middle (fun t ht => hspelled t (by
      simp only [List.mem_append, List.mem_cons] at ht ⊢
      grind)) hfirst hheader
    have htext := text_of_mark close 0x29 (hsub close (by simp)) (by rw [hclose]; decide)
    have hlast : close.form = closeForm := by
      rw [Token.form, hclose, htext]
      rfl
    have hsplit : gap ++ (first :: table.name :: (middle ++ (inner ++ [close])) ++ after) =
        gap ++ ((first :: table.name :: middle) ++ (inner ++ ([close] ++ after))) := by
      simp
    rw [codeOf_eq, forms, hts, hsplit]
    simp only [List.map_append, List.filterMap_append, code_nothing after hafter, hforms, hname, List.map_singleton,
      hlast, List.append_nil]
    rfl
  · intro f hf
    obtain ⟨f', hf', hcode⟩ := List.mem_filterMap.mp hf
    obtain ⟨t, ht, rfl⟩ := List.mem_map.mp hf'
    rw [kind_of_code _ _ hcode]
    exact (hgap t ht).1

/-! ## Drawn tables -/

theorem code_entry (d : Drawing) (name newline : Text) (keys : List Text)
    (h : Drawn d name keys newline) : codeOf (encode (d.entryText name newline)) =
      headerForms name ++ (codeOf (encode (d.list newline)) ++ [closeForm]) := by
  obtain ⟨comments, first, t, middle, hc, -, -, -, hforms, hbody⟩ :=
    tokensFrom_body d name newline keys h 0
  have hcomments := code_nothing comments (fun x hx => Or.inl (by simpa [isComment] using hc x hx))
  have hspaces := codeOf_spaces _ (isSpaceByte_encode newline h.breaks.gap.1)
  rw [Drawing.entryText_eq, encode_append, codeOf_sealed _ _ (sealed_body d name newline keys h),
    hspaces, List.append_nil, codeOf_eq, codeOf_eq, forms, hbody, List.map_append,
    ← List.cons_append, ← List.cons_append, List.map_append, map_form, hforms,
    forms_listEnd d name newline keys h]
  simp only [List.filterMap_append, hcomments, List.nil_append]
  rfl

/-- The code of the key list, if none of its keys holds a comment. -/
theorem code_list (d : Drawing) (name newline : Text) (keys : List Text)
    (h : Drawn d name keys newline) (hb : endsBlank keys = false)
    (hk : ∀ k ∈ keys, Uncommented k) :
    codeOf (encode (d.list newline)) = keys.flatMap keyCode := by
  rw [codeOf_eq, forms_list d name newline keys h hb hk, code_keys]

theorem code_entry_survives (d : Drawing) (name newline : Text) (keys : List Text)
    (h : Drawn d name keys newline) (hs : survives keys = true) :
    codeOf (encode (d.entryText name newline)) = tableCode name keys := by
  obtain ⟨hlasting, hends⟩ : (∀ k ∈ keys, isLasting k = true) ∧ endsBlank keys = false := by
    simpa [survives] using hs
  rw [code_entry d name newline keys h, tableCode_eq, code_list d name newline keys h hends
    (fun k hk => uncommented_of_lasting k (hlasting k hk))]

/-! ## Weights of key lists -/

theorem countP_encode (p : Char → Bool) (hlow : ∀ c, p c = true → c.toNat < 0x80) (t : Text) :
    ((encode t).map lossyChar).countP p = t.countP p := by
  induction t with
  | nil => rfl
  | cons c t ih =>
    rw [encode_cons, List.map_append, List.countP_append, ih, ← List.singleton_append,
      List.countP_append]
    congr 1
    by_cases hc : c.toNat < 0x80
    · rw [utf8EncodeChar_ascii c hc, List.map_singleton, lossyChar_ofNat c hc]
    · have hno : ∀ x : Char, ¬ x.toNat < 0x80 → p x = false :=
        fun x hx => Bool.eq_false_iff.mpr (fun h => hx (hlow x h))
      rw [countP_eq_zero p [c] (by simpa using hno c hc), countP_eq_zero]
      intro x hx
      obtain ⟨b, hb, rfl⟩ := List.mem_map.mp hx
      have hhigh := (utf8EncodeChar_high c (by omega)).2 b hb
      rw [lossyChar, if_neg (by omega)]
      exact hno _ (by decide)

theorem ascii_of_eq (c : Char) (h : c.toNat < 0x80) (x : Char) (hx : (x == c) = true) :
    x.toNat < 0x80 := by
  rw [eq_of_beq hx]
  exact h

section
variable {dangling : Bool} (p : Char → Bool) (hp : Telling p)
include hp

theorem countP_gap (gap : Text) (h : ∀ c ∈ gap, isGapChar c = true) : gap.countP p = 0 := by
  refine countP_eq_zero p gap ?_
  intro c hc
  have hgap := h c hc
  simp only [isGapChar, Bool.or_eq_true, beq_iff_eq] at hgap
  obtain (rfl | rfl) | rfl := hgap
  · exact hp _ (by decide)
  · exact hp _ (by decide)
  · exact hp _ (by decide)

theorem countP_listed (keys : List Text) (t : Text) (h : Listed dangling keys t) :
    t.countP p = keys.flatten.countP p := by
  induction h with
  | nil gap hgap hbreak => exact countP_gap p hp gap hgap
  | cons gap k sep t keys hgap hsep ht ih =>
    have hsepZero : sep.countP p = 0 := by
      rcases hsep with ⟨rfl, -⟩ | ⟨n, rfl, -⟩
      · rfl
      · refine countP_eq_zero p _ ?_
        intro c hc
        rcases List.mem_append.mp hc with hc | hc
        · rw [List.eq_of_mem_replicate hc]
          exact hp _ (by decide)
        · rw [List.mem_singleton.mp hc]
          exact hp _ (by decide)
    have hshown : (shown k).countP p = k.countP p := by
      unfold shown
      split
      · next hk =>
        rw [List.isEmpty_iff.mp hk]
        refine countP_eq_zero p _ ?_
        intro c hc
        rw [List.eq_of_mem_replicate hc]
        exact hp _ (by decide)
      · rfl
    simp only [List.countP_append, List.flatten_cons, countP_gap p hp gap hgap, hshown, hsepZero, ih]
    omega

omit hp in
theorem Listed.shows {keys : List Text} {t : Text} (h : Listed dangling keys t) (k : Text)
    (hk : k ∈ keys) : ∃ a r, t = a ++ (shown k ++ r) := by
  induction h with
  | nil gap hgap hbreak => simp at hk
  | cons gap l sep t keys hgap hsep ht ih =>
    obtain rfl | hk := List.mem_cons.mp hk
    · exact ⟨gap, sep ++ t, rfl⟩
    · obtain ⟨a, r, rfl⟩ := ih hk
      exact ⟨gap ++ (shown l ++ (sep ++ a)), r, by simp⟩

variable (hlow : ∀ c, p c = true → c.toNat < 0x80)
include hlow

theorem weight_listed_le (keys : List Text) (t : Text) (h : Listed dangling keys t) :
    weight p (codeOf (encode t)) ≤ keys.flatten.countP p := by
  have hsub := ((uncommented_sublist false (encode t)).map lossyChar).countP_le (p := p)
  rw [countP_encode p hlow, countP_listed p hp keys t h] at hsub
  rw [weight_codeOf p hp]
  exact hsub

/-- A key with two slashes in a row hides what follows them in it. -/
theorem weight_listed_lt (keys : List Text) (t : Text) (h : Listed dangling keys t) (s u : Text)
    (hmem : s ++ '/' :: '/' :: u ∈ keys) (hline : '\n' ∉ u) (hhas : ∃ c ∈ u, p c = true) :
    weight p (codeOf (encode t)) < keys.flatten.countP p := by
  obtain ⟨a, r, rfl⟩ := h.shows _ hmem
  have hshown : shown (s ++ '/' :: '/' :: u) = s ++ '/' :: '/' :: u := by
    unfold shown
    rw [if_neg (by simp)]
  have hbytes : encode (a ++ (shown (s ++ '/' :: '/' :: u) ++ r)) =
      (encode a ++ encode s) ++ (0x2F :: 0x2F :: encode u ++ encode r) := by
    rw [hshown, encode_append, encode_append, encode_append, encode_cons_ascii '/' _ (by decide),
      encode_cons_ascii '/' _ (by decide)]
    simp
  have hhidden : ∃ x ∈ 0x2F :: 0x2F :: encode u, (p ∘ lossyChar) x = true := by
    obtain ⟨c, hc, hpc⟩ := hhas
    have hlowc := hlow c hpc
    refine ⟨UInt8.ofNat c.toNat, ?_, ?_⟩
    · refine List.mem_cons_of_mem _ (List.mem_cons_of_mem _ (List.mem_flatMap.mpr ⟨c, hc, ?_⟩))
      rw [utf8EncodeChar_ascii c hlowc]
      exact List.mem_singleton_self _
    · rw [Function.comp_apply, lossyChar_ofNat c hlowc]
      exact hpc
  have hlt := countP_uncommented_lt (p ∘ lossyChar) false (encode a ++ encode s) (encode u)
    (encode r) (lineFeed_encode u hline) hhidden
  rw [← hbytes, ← List.countP_map, ← List.countP_map, countP_encode p hlow,
    countP_listed p hp keys _ h] at hlt
  rw [weight_codeOf p hp]
  exact hlt

end

/-- Two slashes in a row stand between the parentheses of a key. -/
theorem rparen_of_pair (s u : Text) (h : KeyText (s ++ '/' :: '/' :: u)) : ')' ∈ u := by
  have hpair := (hasSlashPair_iff _).mpr ⟨s, u, rfl⟩
  generalize hk : s ++ '/' :: '/' :: u = k at h hpair
  cases h with
  | unassigned => simp at hk
  | plain w hw =>
    have hno := hw.hasSlashPair_append [] (by simp)
    rw [List.append_nil, hpair] at hno
    exact absurd hno (by decide)
  | compound w body hw ink hc =>
    obtain ⟨init, hinit⟩ := closes_last 0 _ hc
    have hlast := congrArg List.getLast? hk
    rw [hinit, ← List.append_assoc, List.getLast?_concat, List.getLast?_append,
      List.getLast?_cons_cons] at hlast
    cases hu : u.getLast? with
    | none =>
      rw [List.getLast?_eq_none_iff.mp hu] at hlast
      simp at hlast
    | some c =>
      have hcons : ('/' :: u).getLast? = some c := by rw [List.getLast?_cons, hu]; rfl
      rw [hcons, Option.some_or] at hlast
      rw [← Option.some.inj hlast]
      exact List.mem_of_getLast? hu

/-! ## Stray bytes -/

theorem countP_lost (t : Text) (h : ∀ c ∈ t, isInk c = true) :
    ((encode t).map lossyChar).countP (· == lost) = 3 * t.countP (· == lost) := by
  induction t with
  | nil => rfl
  | cons c t ih =>
    have hrest := ih (fun x hx => h x (List.mem_cons_of_mem c hx))
    obtain hlow | rfl := ink_cases c (h c List.mem_cons_self)
    · have hne : (c == lost) = false := by
        refine beq_eq_false_iff_ne.mpr (fun he => ?_)
        rw [he] at hlow
        exact absurd hlow (by decide)
      rw [encode_cons_ascii c t hlow, List.map_cons, lossyChar_ofNat c hlow, List.countP_cons, hne,
        List.countP_cons, hne, hrest]
      rfl
    · have hthree : (((encode [lost]).map lossyChar).countP (· == lost)) = 3 := by decide +kernel
      rw [← List.singleton_append, encode_append, List.map_append, List.countP_append, hthree, hrest,
        List.countP_append]
      have hone : ([lost].countP (· == lost)) = 1 := by decide
      omega

theorem weight_keyCode (k : Text) (hk : KeyText k) (hpair : hasSlashPair k = false) :
    weight (· == lost) (keyCode k) = 3 * k.countP (· == lost) := by
  have htelling : Telling (· == lost) := telling_char lost (by decide)
  rw [keyCode, weight_codeOf _ htelling, uncommented_of_apart _ (apart_shown k hpair)]
  unfold shown
  split
  · next hnil =>
    rw [List.isEmpty_iff.mp hnil]
    decide +kernel
  · exact countP_lost k hk.ink

theorem weight_keyCodes (keys : List Text) (hk : ∀ k ∈ keys, KeyText k)
    (hpair : ∀ k ∈ keys, hasSlashPair k = false) :
    weight (· == lost) (keys.flatMap keyCode) = 3 * keys.flatten.countP (· == lost) := by
  induction keys with
  | nil => rfl
  | cons k keys ih =>
    have hrest := ih (fun x hx => hk x (List.mem_cons_of_mem k hx))
      (fun x hx => hpair x (List.mem_cons_of_mem k hx))
    rw [List.flatMap_cons, weight_append, hrest,
      weight_keyCode k (hk k List.mem_cons_self) (hpair k List.mem_cons_self), List.flatten_cons,
      List.countP_append]
    omega

/-! ## Segments and their drawings -/

/-- Code in the place of other code that starts with a bracket and ends with a parenthesis, and has
no more of these. -/
structure Fits (old new : List (Token.Kind × Text)) : Prop where
  first : new.head? = some (.lbracket, ['['])
  last : new.getLast? = some closeForm
  openings : weight (· == '[') new ≤ weight (· == '[') old
  closings : weight (· == ')') new ≤ weight (· == ')') old

/-- The new code is not longer, for its last parenthesis would be one too many. -/
theorem Fits.eq_of_starts {old new : List (Token.Kind × Text)} (h : Fits old new)
    (hp : old <+: new) : old = new := by
  obtain ⟨more, hmore⟩ := hp
  rcases List.eq_nil_or_concat more with hnil | ⟨init, f, hconcat⟩
  · rw [← hmore, hnil, List.append_nil]
  · exfalso
    have hlast := h.last
    have hclosings := h.closings
    rw [List.concat_eq_append] at hconcat
    rw [← hmore, hconcat, ← List.append_assoc, List.getLast?_concat, Option.some.injEq] at hlast
    rw [← hmore, hconcat, hlast, weight_append, weight_append] at hclosings
    have hone : weight (· == ')') [closeForm] = 1 := by decide
    omega

theorem countP_visible (q : Char → Bool) (keys : List Text) :
    (visible keys).flatten.countP q ≤ keys.flatten.countP q := by
  unfold visible
  split
  · rcases List.eq_nil_or_concat keys with rfl | ⟨init, k, rfl⟩
    · exact Nat.le_refl _
    · rw [List.concat_eq_append, List.dropLast_concat, List.flatten_append, List.countP_append]
      omega
  · exact Nat.le_refl _

section
variable (p : Segment) (hp : p.Reads) (d : Drawing) (newline : Text)
  (hd : Drawn d p.name p.keys newline)
include hp hd

theorem weight_entry_le (q : Char → Bool) (hq : Telling q)
    (hlow : ∀ c, q c = true → c.toNat < 0x80) :
    weight q (codeOf (encode (d.entryText p.name newline))) ≤
      weight q (codeOf (encode p.text)) := by
  obtain ⟨gap, inner, hcode, -, hspelled, hcovers⟩ := code_segment p hp
  have hlist := weight_listed_le q hq hlow (visible p.keys) _ hd.listed
  have hvisible := countP_visible q p.keys
  have hinner := weight_code q hq inner hspelled
  have hkeys := hcovers.parts.countP_le (p := q)
  rw [code_entry d p.name newline p.keys hd, hcode]
  simp only [weight_append]
  omega

theorem fits_entry (rest : List (Token.Kind × Text)) :
    Fits (codeOf (encode p.text) ++ rest) (codeOf (encode (d.entryText p.name newline))) := by
  have hopenings := weight_entry_le p hp d newline hd (· == '[') (telling_char '[' (by decide))
    (ascii_of_eq '[' (by decide))
  have hclosings := weight_entry_le p hp d newline hd (· == ')') (telling_char ')' (by decide))
    (ascii_of_eq ')' (by decide))
  have hcode := code_entry d p.name newline p.keys hd
  refine ⟨?_, ?_, ?_, ?_⟩
  · rw [hcode]
    rfl
  · rw [hcode, ← List.append_assoc, List.getLast?_concat]
  · rw [weight_append]
    omega
  · rw [weight_append]
    omega

section
variable (rest : List (Token.Kind × Text))
  (hsame : codeOf (encode p.text) ++ rest = codeOf (encode (d.entryText p.name newline)))
include hsame

/-- Every class of characters is as frequent in the key list as in the keys. -/
theorem countP_keys_le (q : Char → Bool) (hq : Telling q) :
    p.keys.flatten.countP q ≤ weight q (codeOf (encode (d.list newline))) := by
  obtain ⟨gap, inner, hcode, -, hspelled, hcovers⟩ := code_segment p hp
  have hinner := weight_code q hq inner hspelled
  have hkeys := hcovers.parts.countP_le (p := q)
  rw [hcode, code_entry d p.name newline p.keys hd] at hsame
  have hweight := congrArg (weight q) hsame
  simp only [weight_append] at hweight
  omega

theorem endsBlank_of_same : endsBlank p.keys = false := by
  refine Bool.eq_false_iff.mpr (fun hblank => ?_)
  obtain ⟨k, hlast, hkb⟩ := (Option.any_eq_true _ _).mp hblank
  obtain ⟨c, hc, hcb⟩ := (Option.any_eq_true _ _).mp hkb
  have hkey := (hd.keyed k (List.mem_of_getLast? hlast)).blank_last c hc hcb
  have hink := (hd.keyed k (List.mem_of_getLast? hlast)).ink c (List.mem_of_getLast? hc)
  have hascii : c.toNat < 0x80 := by
    obtain hlow | rfl := ink_cases c hink
    · exact hlow
    · exact absurd hcb (by decide)
  have htelling : Telling (· == c) := by
    have hnone : ([' ', '\t', '\n', '\r', ',', '_'].all fun x => !(isInk x && isBlank x)) = true := by
      decide
    refine telling_char c (fun hmem => ?_)
    have hno := List.all_eq_true.mp hnone c hmem
    rw [hink, hcb] at hno
    simp at hno
  have hle := countP_keys_le p hp d newline hd rest hsame (· == c) htelling
  have hlist := weight_listed_le (· == c) htelling (ascii_of_eq c hascii) (visible p.keys) _
    hd.listed
  obtain ⟨init, hinit⟩ := List.getLast?_eq_some_iff.mp hlast
  rw [visible, if_pos hblank, hinit, List.dropLast_concat] at hlist
  rw [hinit, List.flatten_append, List.countP_append, hkey] at hle
  have hone : [[c]].flatten.countP (· == c) = 1 := by simp
  omega

theorem pairless_of_same : ∀ k ∈ p.keys, hasSlashPair k = false := by
  intro k hmem
  refine Bool.eq_false_iff.mpr (fun hpair => ?_)
  have hends := endsBlank_of_same p hp d newline hd rest hsame
  have hlisted := hd.listed
  rw [visible, hends, if_neg (by simp)] at hlisted
  have htelling : Telling (· == ')') := telling_char ')' (by decide)
  obtain ⟨s, u, rfl⟩ := (hasSlashPair_iff k).mp hpair
  have hclose := rparen_of_pair s u (hd.keyed _ hmem)
  have hline : '\n' ∉ u := by
    intro hlf
    exact not_lineFeed_of_ink _ ((hd.keyed _ hmem).ink _ (by simp [hlf])) rfl
  have hlt := weight_listed_lt (· == ')') htelling (ascii_of_eq ')' (by decide)) p.keys _ hlisted
    s u hmem hline ⟨')', hclose, rfl⟩
  have hle := countP_keys_le p hp d newline hd rest hsame (· == ')') htelling
  omega

/-- Nothing stands in front of the table and nothing behind it, so the stray bytes of the keys are
those of the key list. -/
theorem lost_of_same : weight (· == lost) (codeOf (encode (d.list newline))) =
    p.keys.flatten.countP (· == lost) := by
  have hfits := fits_entry p hp d newline hd []
  rw [List.append_nil] at hfits
  have hwhole := hfits.eq_of_starts ⟨rest, hsame⟩
  obtain ⟨gap, inner, hcode, hgap, hspelled, hcovers⟩ := code_segment p hp
  rw [hcode, code_entry d p.name newline p.keys hd] at hwhole
  obtain rfl : gap = [] := by
    cases gap with
    | nil => rfl
    | cons f gap =>
      have hfirst := (List.cons.inj hwhole).1
      have hbracket := hgap f List.mem_cons_self
      rw [hfirst] at hbracket
      exact absurd rfl hbracket
  rw [List.nil_append] at hwhole
  have hinner := List.append_cancel_right (List.append_cancel_left hwhole)
  rw [← hinner, weight_code _ (telling_char lost (by decide)) inner hspelled]
  exact hcovers.lost

theorem survives_of_same : survives p.keys = true := by
  have hends := endsBlank_of_same p hp d newline hd rest hsame
  have hpair := pairless_of_same p hp d newline hd rest hsame
  have hlost := lost_of_same p hp d newline hd rest hsame
  rw [code_list d p.name newline p.keys hd hends
    (fun k hk => uncommented_of_pairless k (hpair k hk)),
    weight_keyCodes p.keys hd.keyed hpair] at hlost
  have hnone : ∀ c ∈ p.keys.flatten, (c == lost) = false := by
    intro c hc
    have hzero : p.keys.flatten.countP (· == lost) = 0 := by omega
    simpa using List.countP_eq_zero.mp hzero c hc
  have hascii : ∀ k ∈ p.keys, isAscii k = true := by
    intro k hk
    refine List.all_eq_true.mpr ?_
    intro c hc
    obtain hlow | rfl := ink_cases c ((hd.keyed k hk).ink c hc)
    · simpa using hlow
    · exact absurd (hnone lost (List.mem_flatten.mpr ⟨k, hk, hc⟩)) (by decide)
  rw [survives, hends, Bool.and_eq_true, List.all_eq_true]
  refine ⟨?_, rfl⟩
  intro k hk
  rw [isLasting, hascii k hk, hpair k hk]
  rfl

end

/-- A segment, with what follows it up to the next one, has the code of its drawing if and only if
the keys survive and it holds nothing but the table. -/
theorem code_entry_iff (rest : List (Token.Kind × Text)) :
    codeOf (encode p.text) ++ rest = codeOf (encode (d.entryText p.name newline)) ↔
      survives p.keys = true ∧ codeOf (encode p.text) ++ rest = tableCode p.name p.keys := by
  constructor
  · intro hsame
    have hs := survives_of_same p hp d newline hd rest hsame
    rw [code_entry_survives d p.name newline p.keys hd hs] at hsame
    exact ⟨hs, hsame⟩
  · rintro ⟨hs, hsame⟩
    rw [code_entry_survives d p.name newline p.keys hd hs]
    exact hsame

end

end KeyTables
