import KeyTables.Proofs.Drawing.KeyOrder

/-! Columns of the key list. Every entry is padded to the length of the longest key, and an unassigned
key counts as empty there, but its placeholder has seven characters. So shorter keys leave columns
that the placeholder does not fit in.

* `Grid.entryRows`: the entries of the key list, line by line.
* `Aligned`: all entries start in columns of one width.
* `startsEven_iff`: those of one line do if and only if all but the last have the same length.
* `length_followed`: the length of an entry that another one follows.
* `keyList_aligned_iff`: the entries are aligned unless a placeholder is too wide for its column and
  another entry is not. -/
namespace KeyTables
set_option autoImplicit false

namespace Grid

/-- The entries of the line that the key list has for a row. -/
def rowEntries (g : Grid) (keys : List Text) (row : Nat) : List Text :=
  (g.keyColumns row).map fun col => entryAt (keyWidth keys) keys (g.rank row col)

def entryRows (g : Grid) (keys : List Text) : List (List Text) :=
  g.keyRows.map (g.rowEntries keys)

/-- The keys that another key of their row follows. -/
def followedKeys (g : Grid) (keys : List Text) : List Text :=
  g.keyRows.flatMap fun row =>
    (g.keyColumns row).dropLast.map fun col => keys[g.rank row col]?.getD []

end Grid

/-! ## Columns -/

def entryLine (entries : List Text) : Text :=
  trimEnd (entryIndent ++ List.intercalate [' '] entries)

/-- What a line of the key list shows before its entry `k`. -/
def frontOf (entries : List Text) (k : Nat) : Text :=
  entryIndent ++ ended [' '] (entries.take k)

/-- The line shows the entry `k`, and does so from column `c` on. -/
def StartsAt (entries : List Text) (k c : Nat) : Prop :=
  (frontOf entries k).length = c ∧ ∃ entry back, entries[k]? = some entry ∧
    entryLine entries = trimEnd (frontOf entries k ++ (entry ++ back))

def Aligned (rows : List (List Text)) : Prop :=
  ∃ width, ∀ entries ∈ rows, ∀ k < entries.length, StartsAt entries k (8 + k * (width + 2))

theorem frontOf_succ (entries : List Text) (k : Nat) (entry : Text)
    (h : entries[k]? = some entry) :
    frontOf entries (k + 1) = frontOf entries k ++ (entry ++ [' ']) := by
  rw [frontOf, frontOf, List.take_add_one, h, ended, List.flatMap_append, ← ended, List.append_assoc]
  simp

theorem intercalate_cut (entries : List Text) (k : Nat) (entry : Text)
    (h : entries[k]? = some entry) :
    ∃ back, List.intercalate [' '] entries = ended [' '] (entries.take k) ++ (entry ++ back) := by
  induction entries generalizing k with
  | nil => simp at h
  | cons e entries ih =>
    cases entries with
    | nil =>
      obtain ⟨rfl, rfl⟩ : k = 0 ∧ e = entry := by
        cases k with
        | zero => exact ⟨rfl, Option.some.inj h⟩
        | succ k => simp at h
      exact ⟨[], by simp [List.intercalate, ended]⟩
    | cons e' entries =>
      rw [intercalate_cons_cons]
      cases k with
      | zero =>
        obtain rfl : e = entry := Option.some.inj h
        exact ⟨_, rfl⟩
      | succ k =>
        obtain ⟨back, hback⟩ := ih k h
        refine ⟨back, ?_⟩
        rw [hback]
        simp [ended]

theorem startsAt_iff (entries : List Text) (k c : Nat) (hk : k < entries.length) :
    StartsAt entries k c ↔ (frontOf entries k).length = c := by
  refine and_iff_left ⟨entries[k], ?_⟩
  have hentry : entries[k]? = some entries[k] := List.getElem?_eq_getElem hk
  obtain ⟨back, hback⟩ := intercalate_cut entries k _ hentry
  refine ⟨back, hentry, ?_⟩
  rw [entryLine, hback, frontOf, List.append_assoc]

theorem mem_dropLast_iff {α : Type} (xs : List α) (x : α) :
    x ∈ xs.dropLast ↔ ∃ k, k + 1 < xs.length ∧ xs[k]? = some x := by
  simp only [List.mem_iff_getElem?, List.getElem?_dropLast, Option.ite_none_right_eq_some,
    Nat.lt_sub_iff_add_lt]

/-- An entry moves the next one by its own length and a space. -/
theorem startsEven_iff (entries : List Text) (width : Nat) :
    (∀ k < entries.length, StartsAt entries k (8 + k * (width + 2))) ↔
      ∀ entry ∈ entries.dropLast, entry.length = width + 1 := by
  constructor
  · intro h entry hentry
    obtain ⟨k, hk, hat⟩ := (mem_dropLast_iff entries entry).mp hentry
    have hstart := (h k (by omega)).1
    have hnext := (h (k + 1) hk).1
    rw [frontOf_succ entries k entry hat, List.length_append, List.length_append,
      List.length_singleton, hstart, Nat.succ_mul] at hnext
    omega
  · intro h k hk
    rw [startsAt_iff entries k _ hk]
    induction k with
    | zero => simp [frontOf, ended, entryIndent]
    | succ k ih =>
      have hat : entries[k]? = some entries[k] := List.getElem?_eq_getElem (by omega)
      have hlen := h _ ((mem_dropLast_iff entries _).mpr ⟨k, hk, hat⟩)
      rw [frontOf_succ entries k _ hat, List.length_append, List.length_append,
        List.length_singleton, ih (by omega), hlen, Nat.succ_mul]
      omega

theorem aligned_iff (rows : List (List Text)) :
    Aligned rows ↔ ∃ width, ∀ entries ∈ rows, ∀ entry ∈ entries.dropLast,
      entry.length = width + 1 :=
  exists_congr fun width => forall₂_congr fun entries _ => startsEven_iff entries width

/-! ## Lengths -/

namespace Grid
variable (g : Grid) (keys : List Text)

/-- More keys come behind a key that another one follows in its row. -/
theorem rank_followed (hcount : g.keyCount ≤ keys.length) (row col : Nat)
    (hcol : col ∈ (g.keyColumns row).dropLast) : g.rank row col + 1 < keys.length := by
  obtain ⟨j, hj, hat⟩ := (mem_dropLast_iff _ col).mp hcol
  have hranks := g.map_rank_keyColumns row
  have hlen : (g.keyColumns row).length = rowKeyCount (g.rowAt row) := by
    have h := congrArg List.length hranks
    rwa [List.length_map, List.length_map, List.length_range] at h
  have hrank : g.rank row col = keyCount (g.take row) + j := by
    have h := congrArg (fun ranks => ranks[j]?) hranks
    rw [List.getElem?_map, List.getElem?_map, hat, List.getElem?_range (by omega)] at h
    exact Option.some.inj h
  have htake := g.keyCount_take_le (row + 1)
  rw [keyCount_take_succ] at htake
  omega

/-- The length of an entry that a comma follows. -/
def entryLength (k : Text) : Nat :=
  if k = [] then max 7 (keyWidth keys) + 1 else keyWidth keys + 1

theorem length_followed (hcount : g.keyCount ≤ keys.length) (row col : Nat)
    (hcol : col ∈ (g.keyColumns row).dropLast) :
    (entryAt (keyWidth keys) keys (g.rank row col)).length =
      entryLength keys (keys[g.rank row col]?.getD []) := by
  have hrank := g.rank_followed keys hcount row col hcol
  have hkey : keys[g.rank row col]?.getD [] ∈ keys := by
    rw [List.getElem?_eq_getElem (by omega), Option.getD_some]
    exact List.getElem_mem _
  have hwidth := le_keyWidth keys _ hkey
  rw [entryAt, if_pos hrank]
  generalize keys[g.rank row col]?.getD [] = k at hwidth
  rw [List.length_append, length_padEnd, List.length_singleton, Int.toNat_natCast, shown, entryLength]
  cases k with
  | nil => rfl
  | cons c k =>
    rw [if_neg (List.cons_ne_nil c k)]
    simp only [List.isEmpty_cons, Bool.false_eq_true, if_false]
    omega

theorem aligned_entryRows_iff (hcount : g.keyCount ≤ keys.length) :
    Aligned (g.entryRows keys) ↔
      ∃ width, ∀ k ∈ g.followedKeys keys, entryLength keys k = width + 1 := by
  rw [aligned_iff]
  refine exists_congr fun width => ?_
  simp only [entryRows, rowEntries, followedKeys, List.forall_mem_map, List.forall_mem_flatMap,
    ← List.map_dropLast]
  refine forall₄_congr fun row _ col hcol => ?_
  rw [g.length_followed keys hcount row col hcol]

end Grid

/-- A table with as many keys as the grid is drawn, and its key list has the entries of the rows. They
start in columns of one width if and only if some key is as long as a placeholder, or the entries
that another one follows are all placeholders, or none of them is. -/
theorem keyList_aligned_iff (g : Grid) (keys : List Text) (lead : Text)
    (hcount : g.keyCount = keys.length) : ∃ d, draw g keys lead = .ok d ∧
      d.keyList = (g.entryRows keys).map entryLine ∧
      (Aligned (g.entryRows keys) ↔ 7 ≤ keyWidth keys ∨ (∀ k ∈ g.followedKeys keys, k = []) ∨
        ∀ k ∈ g.followedKeys keys, k ≠ []) := by
  obtain ⟨d, hd⟩ := draw_of_count g keys lead hcount
  obtain ⟨-, -, hlist⟩ := draw_ok g keys lead d hd
  refine ⟨d, hd, ?_, ?_⟩
  · rw [keyListLines_eq g keys _ (Nat.le_of_eq hcount), Option.some.injEq] at hlist
    rw [← hlist, Grid.entryRows, List.map_map]
    rfl
  rw [g.aligned_entryRows_iff keys (Nat.le_of_eq hcount)]
  constructor
  · rintro ⟨width, hwidth⟩
    by_cases hlong : 7 ≤ keyWidth keys
    · exact Or.inl hlong
    right
    -- a placeholder and a shorter key would both fill the same column
    by_contra hmixed
    push Not at hmixed
    obtain ⟨⟨k, hk, hne⟩, k', hk', hnil⟩ := hmixed
    have hkey := hwidth k hk
    have hgap := hwidth k' hk'
    rw [Grid.entryLength, if_neg hne] at hkey
    rw [Grid.entryLength, if_pos hnil] at hgap
    omega
  · rintro (hlong | hall | hnone)
    · refine ⟨keyWidth keys, fun k _ => ?_⟩
      rw [Grid.entryLength, Nat.max_eq_right hlong, ite_self]
    · exact ⟨max 7 (keyWidth keys), fun k hk => if_pos (hall k hk)⟩
    · exact ⟨keyWidth keys, fun k hk => if_neg (hnone k hk)⟩

/-- A key of seven characters in front of a placeholder, and a short key behind another. -/
theorem keyList_aligned_long : ∃ d,
    draw [[.key, .key], [.key, .key]] ["TG(NAV)".toList, [], [], ['A']] [] = .ok d ∧
      d.keyList = ["        TG(NAV), _______,".toList, "        _______, A".toList] ∧
      Aligned (Grid.entryRows [[.key, .key], [.key, .key]] ["TG(NAV)".toList, [], [], ['A']]) := by
  obtain ⟨d, hd, hlist, haligned⟩ :=
    keyList_aligned_iff [[.key, .key], [.key, .key]] ["TG(NAV)".toList, [], [], ['A']] [] (by decide)
  exact ⟨d, hd, hlist.trans (by decide), haligned.mpr (by decide)⟩

/-- A key of one character above a placeholder. The second entries start in the columns 11 and 17. -/
theorem keyList_misaligned : ∃ d,
    draw [[.key, .key], [.key, .key]] [['A'], ['B'], [], ['C']] [] = .ok d ∧
      d.keyList = ["        A, B,".toList, "        _______, C".toList] ∧
      d.keyList = (Grid.entryRows [[.key, .key], [.key, .key]] [['A'], ['B'], [], ['C']]).map entryLine ∧
      ¬ Aligned (Grid.entryRows [[.key, .key], [.key, .key]] [['A'], ['B'], [], ['C']]) := by
  refine ⟨_, rfl, by decide, by decide, ?_⟩
  rintro ⟨width, h⟩
  have hkeys : 11 = 8 + 1 * (width + 2) := (h [['A', ','], ['B', ',']] (by decide) 1 (by decide)).1
  have hgap : 17 = 8 + 1 * (width + 2) := (h ["_______,".toList, ['C']] (by decide) 1 (by decide)).1
  omega

end KeyTables
