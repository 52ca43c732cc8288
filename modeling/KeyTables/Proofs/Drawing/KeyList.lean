import KeyTables.Drawing.KeyList
import KeyTables.Proofs.Block.ReadBack
import KeyTables.Proofs.Grid.Fill
import KeyTables.Proofs.Text.Lines

/-! The key list of a drawn table shows its keys.

* `visible`: the keys without the last one if that one ends with a blank, for trimming takes it away.
* `listed_keyList`: the lines of the key list show the visible keys. A comma dangles if the last key
  is not among them. -/
namespace KeyTables
set_option autoImplicit false

/-- Whether the last key ends with a blank. -/
def endsBlank (keys : List Text) : Bool :=
  keys.getLast?.any fun k => k.getLast?.any isBlank

def visible (keys : List Text) : List Text :=
  if endsBlank keys then keys.dropLast else keys

/-! ## Entries -/

/-- What the key list shows for a key that is followed by more keys or by none. -/
def entryOf (width : Int) (e : Text × Bool) : Text :=
  padEnd width (shown e.1) ++ if e.2 then [','] else []

def entriesOf (width : Int) (keys : List Text) : List Text :=
  keys.map fun k => entryOf width (k, true)

theorem filterMap_entry (width : Int) (slots : List Slot) :
    slots.filterMap (Slot.entry? width) =
      (slots.filterMap Slot.flagged?).map (entryOf width) := by
  rw [List.map_filterMap]
  congr 1
  funext slot
  cases slot with
  | gap => rfl
  | key k more =>
    cases more with
    | true => rfl
    | false => simp [Slot.entry?, Slot.flagged?, entryOf, shown]

/-- The line of one row, given its keys. -/
def lineOf? (width : Int) (es : List (Text × Bool)) : Option Text :=
  if es.isEmpty then none
  else some (trimEnd (entryIndent ++ List.intercalate [' '] (es.map (entryOf width))))

theorem keyListLine_eq (width : Int) (slots : List Slot) :
    keyListLine? width slots = lineOf? width (slots.filterMap Slot.flagged?) := by
  rw [keyListLine?, filterMap_entry, lineOf?]
  cases slots.filterMap Slot.flagged? with
  | nil => rfl
  | cons e es => rfl

/-! ## Rows -/

theorem Listed.prepend {dangling : Bool} {keys : List Text} {t : Text} (h : Listed dangling keys t)
    (gap : Text) (hgap : ∀ c ∈ gap, isGapChar c = true) : Listed dangling keys (gap ++ t) := by
  have both : ∀ g : Text, (∀ c ∈ g, isGapChar c = true) → ∀ c ∈ gap ++ g, isGapChar c = true := by
    intro g hg c hc
    rcases List.mem_append.mp hc with hc | hc
    · exact hgap c hc
    · exact hg c hc
  cases h with
  | nil _ hg hbreak => exact .nil _ (both t hg) (List.mem_append_right gap hbreak)
  | cons g k sep t keys hg hsep ht =>
    rw [← List.append_assoc]
    exact .cons _ k sep t keys (both g hg) hsep ht

section
variable {dangling : Bool} (width : Int) (rest : List Text)

/-- A key with its comma in front of others. -/
theorem listed_entry (k gap t : Text) (hgap : ∀ c ∈ gap, isGapChar c = true)
    (hrest : rest = [] → dangling = true) (ht : Listed dangling rest t) :
    Listed dangling (k :: rest) (gap ++ (entryOf width (k, true) ++ t)) := by
  have happ : entryOf width (k, true) ++ t = shown k ++
      ((List.replicate (width - (shown k).length).toNat ' ' ++ [',']) ++ t) := by
    simp [entryOf, padEnd]
  rw [happ]
  exact .cons gap k _ t rest hgap (Or.inr ⟨_, rfl, hrest⟩) ht

theorem listed_entries (ks : List Text) (gap t : Text) (hgap : ∀ c ∈ gap, isGapChar c = true)
    (hrest : rest = [] → dangling = true) (ht : Listed dangling rest t) :
    Listed dangling (ks ++ rest) (gap ++ (ended [' '] (entriesOf width ks) ++ t)) := by
  induction ks generalizing gap with
  | nil => exact ht.prepend gap hgap
  | cons k ks ih =>
    have happ : ended [' '] (entriesOf width (k :: ks)) ++ t =
        entryOf width (k, true) ++ ([' '] ++ (ended [' '] (entriesOf width ks) ++ t)) := by
      simp [ended, entriesOf]
    rw [happ]
    refine listed_entry width _ k gap _ hgap ?_ (ih [' '] (List.all_eq_true.mp (by decide)))
    intro hnil
    exact hrest (List.append_eq_nil_iff.mp hnil).2

end

theorem isGapChar_indent : ∀ c ∈ entryIndent, isGapChar c = true :=
  List.all_eq_true.mp (by decide)

theorem ended_concat (newline t : Text) (ls : List Text) :
    ended newline (ls ++ [t]) = ended newline ls ++ (t ++ newline) := by
  simp [ended]

theorem entriesOf_concat (width : Int) (ks : List Text) (k : Text) :
    entriesOf width (ks ++ [k]) = entriesOf width ks ++ [entryOf width (k, true)] := by
  simp [entriesOf]

/-- The keys of a row that are followed by commas, up to the last comma. -/
theorem listed_trimmed {dangling : Bool} (width : Int) (ks rest : List Text) (t : Text)
    (hrest : rest = [] → dangling = true) (ht : Listed dangling rest t) :
    Listed dangling (ks ++ rest)
      (trimEnd (entryIndent ++ ended [' '] (entriesOf width ks)) ++ t) := by
  rcases List.eq_nil_or_concat ks with rfl | ⟨init, k, rfl⟩
  · exact ht
  · have hcomma : entryOf width (k, true) = padEnd width (shown k) ++ [','] := rfl
    have htrim : trimEnd (entryIndent ++ ended [' '] (entriesOf width (init ++ [k]))) =
        entryIndent ++ (ended [' '] (entriesOf width init) ++ entryOf width (k, true)) := by
      rw [entriesOf_concat, ended_concat, ← List.append_assoc, ← List.append_assoc,
        trimEnd_append_blank _ [' '] (List.all_eq_true.mp (by decide)), hcomma, ← List.append_assoc,
        trimEnd_of_last _ ',' (by decide)]
      simp
    rw [List.concat_eq_append, htrim, List.append_assoc, List.append_assoc, List.append_assoc]
    exact listed_entries width _ init entryIndent _ isGapChar_indent (by simp)
      (listed_entry width rest k [] t (by simp) hrest ht)

theorem lineOf_commas (width : Int) (ks : List Text) (h : ks ≠ []) :
    lineOf? width (ks.map (·, true)) =
      some (trimEnd (entryIndent ++ ended [' '] (entriesOf width ks))) := by
  rcases List.eq_nil_or_concat ks with rfl | ⟨init, k, rfl⟩
  · exact absurd rfl h
  · have hentries : ((init ++ [k]).map (·, true)).map (entryOf width) =
        entriesOf width init ++ [entryOf width (k, true)] := by
      simp [entriesOf]
    rw [List.concat_eq_append, lineOf?, if_neg (by simp), hentries, intercalate_ended,
      entriesOf_concat, ended_concat, ← List.append_assoc, ← List.append_assoc,
      ← List.append_assoc, trimEnd_append_blank _ [' '] (List.all_eq_true.mp (by decide))]

/-! ## The last key -/

theorem isBlank_of_word (b : UInt8) (h : isWordByte b = true) : isBlank (lossyChar b) = false := by
  have hlow := isWordByte_lt b h
  rw [isBlank, lossyChar, if_pos hlow, toNat_ofNat_ascii b hlow]
  simp only [isWordByte, inRanges, List.any_cons, List.any_nil, Bool.or_false, Bool.or_eq_true,
    Bool.and_eq_true, decide_eq_true_eq] at h
  simp only [inRanges, blankRanges, List.any_cons, List.any_nil, Bool.or_false,
    Bool.or_eq_false_iff, Bool.and_eq_false_iff, decide_eq_false_iff_not]
  omega

theorem KeyText.blank_last {k : Text} (h : KeyText k) (c : Char) (hc : k.getLast? = some c)
    (hb : isBlank c = true) : k = [c] := by
  cases h with
  | unassigned => simp at hc
  | plain w h =>
    obtain ⟨lexeme, hs, rfl⟩ := h
    generalize hk : Token.Kind.ident = kind at hs
    cases hs with
    | mark b kind hp => simpa using hc
    | comment body => simp at hk
    | word _ hw hword =>
      obtain ⟨b, hbm, rfl⟩ := List.mem_map.mp (List.mem_of_getLast? hc)
      rw [isBlank_of_word b (hword b hbm)] at hb
      simp at hb
    | stray b hstray => simpa using hc
  | compound w body h ink hclose =>
    obtain ⟨init, hinit⟩ := closes_last 0 _ hclose
    rw [hinit, ← List.append_assoc, List.getLast?_append, List.getLast?_singleton] at hc
    obtain rfl : ')' = c := by simpa using hc
    exact absurd hb (by decide)

/-- A key that does not end with a blank is shown with a last character that stays. -/
theorem shown_last (k : Text) (h : k.getLast?.any isBlank = false) :
    ∃ s c, shown k = s ++ [c] ∧ isBlank c = false := by
  rcases List.eq_nil_or_concat k with rfl | ⟨s, c, rfl⟩
  · exact ⟨List.replicate 6 '_', '_', rfl, by decide⟩
  · rw [List.concat_eq_append] at h ⊢
    refine ⟨s, c, by simp [shown], by simpa using h⟩

theorem isBlank_replicate (n : Nat) : ∀ c ∈ List.replicate n ' ', isBlank c = true := by
  intro c hc
  rw [List.eq_of_mem_replicate hc]
  decide

/-- Where no key is left, no comma dangles. -/
theorem Listed.of_nil {dangling : Bool} {t : Text} (h : Listed dangling [] t) (dangling' : Bool) :
    Listed dangling' [] t := by
  cases h with
  | nil gap hgap hbreak => exact .nil _ hgap hbreak

/-- The row that holds the last key. -/
theorem listed_last (width : Int) (init : List Text) (k t : Text) (hk : KeyText k)
    (ht : Listed false [] t) :
    ∃ line, lineOf? width (flags (init ++ [k])) = some line ∧
      Listed (endsBlank (init ++ [k])) (visible (init ++ [k])) (line ++ t) := by
  have hentries : (flags (init ++ [k])).map (entryOf width) =
      entriesOf width init ++ [padEnd width (shown k)] := by
    rw [flags_append init [k] (by simp)]
    simp [flags, entryOf, entriesOf]
  have hne : (flags (init ++ [k])).isEmpty = false := by
    rw [flags_append init [k] (by simp)]
    simp [flags]
  have hends : endsBlank (init ++ [k]) = k.getLast?.any isBlank := by
    rw [endsBlank, List.getLast?_append, List.getLast?_singleton, Option.some_or, Option.any_some]
  refine ⟨_, by rw [lineOf?, hne, if_neg (by simp), hentries, intercalate_ended], ?_⟩
  by_cases hblank : k.getLast?.any isBlank = true
  · obtain ⟨c, hc, hcb⟩ := (Option.any_eq_true _ _).mp hblank
    have hvisible : visible (init ++ [k]) = init := by
      rw [visible, hends, if_pos hblank, List.dropLast_concat]
    have hkey := hk.blank_last c hc hcb
    have hshown : ∀ x ∈ padEnd width (shown k), isBlank x = true := by
      intro x hx
      rw [hkey, padEnd] at hx
      rcases List.mem_append.mp hx with hx | hx
      · rw [List.mem_singleton.mp hx]
        exact hcb
      · exact isBlank_replicate _ x hx
    rw [hvisible, hends, hblank, ← List.append_assoc, trimEnd_append_blank _ _ hshown]
    have := listed_trimmed width init [] t (fun _ => rfl) (ht.of_nil true)
    rwa [List.append_nil] at this
  · have hno : k.getLast?.any isBlank = false := by simpa using hblank
    have hvisible : visible (init ++ [k]) = init ++ [k] := by
      rw [visible, hends, if_neg hblank]
    obtain ⟨s, c, hs, hcb⟩ := shown_last k hno
    have htrim : trimEnd (entryIndent ++ (ended [' '] (entriesOf width init) ++
        padEnd width (shown k))) =
        entryIndent ++ (ended [' '] (entriesOf width init) ++ shown k) := by
      rw [padEnd, ← List.append_assoc, ← List.append_assoc,
        trimEnd_append_blank _ _ (isBlank_replicate _), hs, ← List.append_assoc,
        trimEnd_of_last _ c hcb]
      simp
    rw [hvisible, hends, hno, htrim, List.append_assoc, List.append_assoc]
    exact listed_entries width [k] init entryIndent _ isGapChar_indent (by simp)
      (.cons [] k [] t [] (by simp) (Or.inl ⟨rfl, rfl⟩) ht)

/-! ## The whole list -/

def IsNewline (newline : Text) : Prop :=
  newline = ['\n'] ∨ newline = ['\r', '\n']

/-- The spaces in front of the closing parenthesis. -/
def closingIndent : Text :=
  List.replicate 4 ' '

theorem IsNewline.gap {newline : Text} (h : IsNewline newline) :
    (∀ c ∈ newline, isGapChar c = true) ∧ '\n' ∈ newline := by
  rcases h with rfl | rfl
  · exact ⟨List.all_eq_true.mp (by decide), by decide⟩
  · exact ⟨List.all_eq_true.mp (by decide), by decide⟩

theorem isGapChar_closing : ∀ c ∈ closingIndent, isGapChar c = true :=
  List.all_eq_true.mp (by decide)

theorem endsBlank_append (ks rest : List Text) (h : rest ≠ []) :
    endsBlank (ks ++ rest) = endsBlank rest := by
  rw [endsBlank, endsBlank, List.getLast?_append, List.getLast?_eq_some_getLast h, Option.some_or]

theorem visible_append (ks rest : List Text) (h : rest ≠ []) :
    visible (ks ++ rest) = ks ++ visible rest := by
  rw [visible, visible, endsBlank_append ks rest h]
  split
  · rw [List.dropLast_append_of_ne_nil h]
  · rfl

/-- One row: its keys stand in front of those of the rows below. -/
theorem listed_row (width : Int) (es more : List (Text × Bool)) (keys : List Text) (t : Text)
    (hes : es ≠ []) (h : es ++ more = flags keys) (hk : ∀ k ∈ keys, KeyText k)
    (ht : Listed (endsBlank (keys.drop es.length)) (visible (keys.drop es.length)) t) :
    ∃ line, lineOf? width es = some line ∧
      Listed (endsBlank keys) (visible keys) (line ++ t) := by
  by_cases hlast : keys.drop es.length = []
  · -- the row holds the last key, and the rows below hold none
    have hkeys : es = flags keys := by
      rw [← take_flags, ← h, List.take_left' (Nat.le_antisymm ?_ (List.drop_eq_nil_iff.mp hlast))]
      rw [← length_flags keys, ← h, List.length_append]
      omega
    rcases List.eq_nil_or_concat keys with rfl | ⟨init, k, rfl⟩
    · exact absurd hkeys hes
    · rw [List.concat_eq_append] at hkeys hk ⊢
      rw [hlast] at ht
      rw [hkeys]
      exact listed_last width init k t (hk k (by simp)) ht
  · have hsplit : keys.take es.length ++ keys.drop es.length = keys :=
      List.take_append_drop _ _
    have hcommas : es = (keys.take es.length).map (·, true) := by
      rw [← hsplit, flags_append _ _ hlast] at h
      refine (List.append_inj h ?_).1
      rw [List.length_map, List.length_take]
      have := List.length_pos_iff.mpr hlast
      rw [List.length_drop] at this
      omega
    have hline := lineOf_commas width (keys.take es.length) (by
      intro hnil
      rw [hnil] at hcommas
      exact hes hcommas)
    rw [← hcommas] at hline
    have hvisible := visible_append (keys.take es.length) _ hlast
    have hends := endsBlank_append (keys.take es.length) _ hlast
    rw [hsplit] at hvisible hends
    rw [hvisible, hends]
    refine ⟨_, hline, listed_trimmed width _ _ _ ?_ ht⟩
    intro hnil
    refine Decidable.byContradiction (fun hno => hlast ?_)
    rwa [visible, if_neg hno] at hnil

theorem listed_groups (width : Int) (newline : Text) (hn : IsNewline newline)
    (gs : List (List (Text × Bool))) (keys : List Text) (h : gs.flatten = flags keys)
    (hk : ∀ k ∈ keys, KeyText k) :
    Listed (endsBlank keys) (visible keys)
      (newline ++ (ended newline (gs.filterMap (lineOf? width)) ++ closingIndent)) := by
  obtain ⟨hgap, hbreak⟩ := hn.gap
  induction gs generalizing keys with
  | nil =>
    have hnil : keys = [] := by
      have := congrArg List.length h
      rw [length_flags] at this
      exact List.eq_nil_of_length_eq_zero this.symm
    rw [hnil]
    refine .nil _ ?_ (List.mem_append_left _ hbreak)
    intro c hc
    rcases List.mem_append.mp hc with hc | hc
    · exact hgap c hc
    · exact isGapChar_closing c hc
  | cons es gs ih =>
    rw [List.flatten_cons] at h
    have hrest : gs.flatten = flags (keys.drop es.length) := by
      rw [← drop_flags, ← h, List.drop_left]
    have hih := ih (keys.drop es.length) hrest (fun k hmem => hk k (List.mem_of_mem_drop hmem))
    by_cases hes : es = []
    · subst hes
      exact hih
    · obtain ⟨line, hline, hlisted⟩ := listed_row width es _ keys _ hes h hk hih
      rw [List.filterMap_cons, hline]
      have := hlisted.prepend newline hgap
      simpa [ended] using this

theorem listed_keyList (g : Grid) (keys lines : List Text) (width : Int) (newline : Text)
    (hn : IsNewline newline) (hcount : g.keyCount = keys.length) (hk : ∀ k ∈ keys, KeyText k)
    (h : keyListLines g keys width = some lines) :
    Listed (endsBlank keys) (visible keys)
      (newline ++ (ended newline lines ++ closingIndent)) := by
  obtain ⟨rows, hfill, hrows⟩ := g.fill_flags keys (by omega)
  rw [keyListLines, hfill, Option.some.injEq] at h
  rw [hcount, take_flags] at hrows
  have hlines : lines = (rows.map (·.filterMap Slot.flagged?)).filterMap (lineOf? width) := by
    rw [← h, List.filterMap_map]
    congr 1
    funext slots
    exact keyListLine_eq width slots
  rw [hlines]
  exact listed_groups width newline hn _ keys (by rw [← hrows, List.flatMap_def]) hk

end KeyTables
