import KeyTables.Text.Blank
import KeyTables.Text.Lines

/-! Cutting a text into its words, and into its lines.

* `words_append_blank`: a blank cuts the words, and belongs to none of them.
* `lines_line`: a line with the break behind it comes first. A line feed that follows a carriage
  return of the break makes one break with it, and the empty line between the two vanishes.
* `lines_unifyBreaks`: a text has the same lines when all its breaks that hold a carriage return are
  line feeds.
* `Broken`, `broken_lines`: lines written with a break behind each, as every text is.
* `filter_lines`: hence such a text has these lines, empty ones left aside. -/
namespace KeyTables
set_option autoImplicit false

/-! ## Words -/

theorem words_nil : words [] = [] := rfl

theorem words_append_blank (s t : Text) (c : Char) (h : isBlank c = true) :
    words (s ++ c :: t) = words s ++ words t := by
  unfold words
  rw [List.splitOnP_append_cons s t h, List.filter_append]

theorem words_cons_blank (c : Char) (t : Text) (h : isBlank c = true) :
    words (c :: t) = words t :=
  words_append_blank [] t c h

theorem words_blanks_append (s t : Text) (h : ∀ c ∈ s, isBlank c = true) :
    words (s ++ t) = words t := by
  induction s with
  | nil => rfl
  | cons c s ih =>
    rw [List.cons_append, words_cons_blank c _ (h c List.mem_cons_self)]
    exact ih (fun x hx => h x (List.mem_cons_of_mem c hx))

theorem words_blanks (s : Text) (h : ∀ c ∈ s, isBlank c = true) : words s = [] := by
  rw [← List.append_nil s, words_blanks_append s [] h, words_nil]

theorem words_word (w : Text) (hne : w ≠ []) (h : ∀ c ∈ w, isBlank c = false) : words w = [w] := by
  unfold words
  rw [List.splitOnP_eq_singleton h, List.filter_cons_of_pos (by simpa using hne), List.filter_nil]

/-- A word up to the blank behind it, or to the end. -/
theorem words_word_append (w r : Text) (hne : w ≠ []) (h : ∀ c ∈ w, isBlank c = false)
    (hr : ∀ c ∈ r.head?, isBlank c = true) : words (w ++ r) = w :: words r := by
  cases r with
  | nil => rw [List.append_nil, words_word w hne h, words_nil]
  | cons c r =>
    have hc := hr c rfl
    rw [words_append_blank w r c hc, words_word w hne h, words_cons_blank c r hc,
      List.singleton_append]

/-- The first word starts with the first character that is not blank. -/
theorem words_cons_ink (c : Char) (t : Text) (h : isBlank c = false) :
    ∃ w ws, words (c :: t) = (c :: w) :: ws := by
  cases hsplit : t.splitOnP isBlank with
  | nil => exact absurd hsplit (List.splitOnP_ne_nil _ _)
  | cons w ws =>
    refine ⟨w, ws.filter fun w => !w.isEmpty, ?_⟩
    unfold words
    rw [List.splitOnP_cons_eq_if_modifyHead, h, hsplit]
    rfl

theorem words_eq_nil_iff (t : Text) : words t = [] ↔ ∀ c ∈ t, isBlank c = true := by
  refine ⟨fun h => ?_, words_blanks t⟩
  induction t with
  | nil => simp
  | cons c t ih =>
    cases hc : isBlank c with
    | true =>
      rw [words_cons_blank c t hc] at h
      exact List.forall_mem_cons.mpr ⟨hc, ih h⟩
    | false =>
      obtain ⟨w, ws, hwords⟩ := words_cons_ink c t hc
      rw [hwords] at h
      exact absurd h (by simp)

/-- The first word stands between blanks and a blank, or the end. -/
theorem words_eq_cons (t w : Text) (ws : List Text) (h : words t = w :: ws) :
    ∃ s r, t = s ++ (w ++ r) ∧ (∀ c ∈ s, isBlank c = true) ∧ (∀ c ∈ r.head?, isBlank c = true) ∧
      words r = ws := by
  generalize hs : t.takeWhile isBlank = s
  generalize hm : t.dropWhile isBlank = m
  have hsblank : ∀ c ∈ s, isBlank c = true := hs ▸ List.all_eq_true.mp List.all_takeWhile
  have ht : t = s ++ m := by rw [← hs, ← hm, List.takeWhile_append_dropWhile]
  have hmhead : ∀ c ∈ m.head?, isBlank c = false := by
    intro c hc
    have hdrop := List.head?_dropWhile_not isBlank t
    rw [hm, Option.mem_def.mp hc] at hdrop
    simpa using hdrop
  rw [ht, words_blanks_append s m hsblank] at h
  generalize hw : m.takeWhile (fun c => !isBlank c) = w'
  generalize hr : m.dropWhile (fun c => !isBlank c) = r
  have hm' : m = w' ++ r := by rw [← hw, ← hr, List.takeWhile_append_dropWhile]
  have hink : ∀ c ∈ w', isBlank c = false := by
    intro c hc
    have hall := List.all_eq_true.mp List.all_takeWhile c (hw ▸ hc)
    simpa using hall
  have hrhead : ∀ c ∈ r.head?, isBlank c = true := by
    intro c hc
    have hdrop := List.head?_dropWhile_not (fun c => !isBlank c) m
    rw [hr, Option.mem_def.mp hc] at hdrop
    simpa using hdrop
  have hne : w' ≠ [] := by
    cases m with
    | nil => exact absurd h (by simp [words_nil])
    | cons c m =>
      rw [← hw, List.takeWhile_cons_of_pos (by simp [hmhead c rfl])]
      exact List.cons_ne_nil _ _
  rw [hm', words_word_append w' r hne hink hrhead, List.cons.injEq] at h
  obtain ⟨rfl, hws⟩ := h
  exact ⟨s, r, by rw [ht, hm'], hsblank, hrhead, hws⟩

/-! ## Lines -/

def Unbroken (l : Text) : Prop :=
  ∀ c ∈ l, isBreak c = false

/-- What ends a line. -/
def IsLineBreak (b : Text) : Prop :=
  b = ['\r', '\n'] ∨ ∃ c, isBreak c = true ∧ b = [c]

theorem lines_cons_break (c : Char) (t : Text) (hc : isBreak c = true)
    (h : ¬ (c = '\r' ∧ t.head? = some '\n')) : lines (c :: t) = [] :: lines t := by
  rw [lines, if_pos hc]
  intro tail hcr ht
  apply h
  rw [ht]
  exact ⟨hcr, rfl⟩

theorem lines_cons_char (c : Char) (t : Text) (hc : isBreak c = false) :
    lines (c :: t) = pushFirst c (lines t) := by
  rw [lines, hc]
  · rfl
  · intro tail hcr _
    rw [hcr] at hc
    exact absurd hc (by decide)

theorem lines_unbroken_append (l t : Text) (ls : List Text) (hl : Unbroken l)
    (ht : lines t = [] :: ls) : lines (l ++ t) = l :: ls := by
  induction l with
  | nil => exact ht
  | cons c l ih =>
    have hrest := ih (fun x hx => hl x (List.mem_cons_of_mem c hx))
    rw [List.cons_append, lines_cons_char c _ (hl c List.mem_cons_self), hrest]
    rfl

theorem lines_unbroken (l : Text) (hl : Unbroken l) (hne : l ≠ []) : lines l = [l] := by
  induction l with
  | nil => exact absurd rfl hne
  | cons c l ih =>
    have hrest := ih (fun x hx => hl x (List.mem_cons_of_mem c hx))
    rw [lines_cons_char c l (hl c List.mem_cons_self)]
    cases l with
    | nil => rfl
    | cons d l =>
      rw [hrest (List.cons_ne_nil d l)]
      rfl

theorem lines_break (b t : Text) (hb : IsLineBreak b) :
    ∃ ls, lines (b ++ t) = [] :: ls ∧ (lines t = ls ∨ lines t = [] :: ls) := by
  obtain rfl | ⟨c, hc, rfl⟩ := hb
  · exact ⟨lines t, rfl, Or.inl rfl⟩
  · by_cases hpair : c = '\r' ∧ t.head? = some '\n'
    · obtain ⟨rfl, hhead⟩ := hpair
      cases t with
      | nil => exact absurd hhead (by simp)
      | cons d t =>
        obtain rfl : d = '\n' := Option.some.inj hhead
        exact ⟨lines t, rfl, Or.inr (lines_cons_break '\n' t (by decide) (by simp))⟩
    · exact ⟨lines t, lines_cons_break c t hc hpair, Or.inl rfl⟩

theorem lines_line (l b t : Text) (hl : Unbroken l) (hb : IsLineBreak b) :
    ∃ ls, lines (l ++ (b ++ t)) = l :: ls ∧ (lines t = ls ∨ lines t = [] :: ls) := by
  obtain ⟨ls, hbreak, hrest⟩ := lines_break b t hb
  exact ⟨ls, lines_unbroken_append l _ ls hl hbreak, hrest⟩

/-- Another break in place of a carriage return, or of a pair, leaves the lines as they are. -/
theorem lines_unifyBreaks (t : Text) : lines (unifyBreaks t) = lines t := by
  have hfeed : ∀ u, lines ('\n' :: u) = [] :: lines u :=
    fun u => lines_cons_break '\n' u (by decide) (by simp)
  fun_induction unifyBreaks t with
  | case1 => rfl
  | case2 t ih => rw [hfeed, ih, lines]
  | case3 t hpair ih =>
    have hlone : ¬ ('\r' = '\r' ∧ t.head? = some '\n') := by
      rintro ⟨-, hhead⟩
      obtain ⟨u, rfl⟩ := List.head?_eq_some_iff.mp hhead
      exact hpair u rfl
    rw [hfeed, ih, lines_cons_break '\r' t (by decide) hlone]
  | case4 c t _ hreturn ih =>
    have hlone : ∀ u : Text, ¬ (c = '\r' ∧ u.head? = some '\n') := fun u h => hreturn h.1
    cases hc : isBreak c with
    | true => rw [lines_cons_break c _ hc (hlone _), lines_cons_break c t hc (hlone t), ih]
    | false => rw [lines_cons_char c _ hc, lines_cons_char c t hc, ih]

theorem not_mem_unifyBreaks (t : Text) : '\r' ∉ unifyBreaks t := by
  fun_induction unifyBreaks t with
  | case1 => simp
  | case2 t ih => simpa using ih
  | case3 t _ ih => simpa using ih
  | case4 c t _ hreturn ih =>
    rw [List.mem_cons, not_or]
    exact ⟨fun hc => hreturn hc.symm, ih⟩

/-! ## Written lines -/

/-- The text is made of these lines with a break of any sort behind each. The last one needs none. -/
inductive Broken : List Text → Text → Prop
  | nil : Broken [] []
  | last (l : Text) (hl : Unbroken l) : Broken [l] l
  | cons (l b t : Text) (ls : List Text) (hl : Unbroken l) (hb : IsLineBreak b) (ht : Broken ls t) :
    Broken (l :: ls) (l ++ (b ++ t))

/-- Every text is made of its lines. -/
theorem broken_lines (t : Text) : Broken (lines t) t := by
  fun_induction lines t with
  | case1 => exact .nil
  | case2 t ih => exact .cons [] ['\r', '\n'] t _ (by simp [Unbroken]) (Or.inl rfl) ih
  | case3 c t _ hc ih => exact .cons [] [c] t _ (by simp [Unbroken]) (Or.inr ⟨c, hc, rfl⟩) ih
  | case4 c t _ hc ih =>
    have hchar : isBreak c = false := by simpa using hc
    have grow : ∀ l, Unbroken l → Unbroken (c :: l) := fun l hl =>
      List.forall_mem_cons.mpr ⟨hchar, hl⟩
    generalize hls : lines t = ls at ih
    cases ih with
    | nil => exact .last [c] (grow [] (by simp [Unbroken]))
    | last _ hl => exact .last (c :: t) (grow t hl)
    | cons l b t ls hl hb ht => exact .cons (c :: l) b t ls (grow l hl) hb ht

theorem Broken.unbroken {ls : List Text} {t : Text} (h : Broken ls t) : ∀ l ∈ ls, Unbroken l := by
  induction h with
  | nil => simp
  | last l hl => simpa using hl
  | cons l b t ls hl hb ht ih => exact List.forall_mem_cons.mpr ⟨hl, ih⟩

/-- If empty lines do not count, it makes no difference which breaks the lines are written with. -/
theorem filter_lines (p : Text → Bool) (hp : p [] = false) (ls : List Text) (t : Text)
    (h : Broken ls t) : (lines t).filter p = ls.filter p := by
  induction h with
  | nil => rfl
  | last l hl =>
    cases l with
    | nil => exact (List.filter_cons_of_neg (by simp [hp])).symm
    | cons c l => rw [lines_unbroken (c :: l) hl (List.cons_ne_nil c l)]
  | cons l b t ls hl hb ht ih =>
    obtain ⟨ls', hline, hrest⟩ := lines_line l b t hl hb
    have htail : ls'.filter p = (lines t).filter p := by
      obtain hrest | hrest := hrest
      · rw [hrest]
      · rw [hrest, List.filter_cons_of_neg (by simp [hp])]
    rw [hline, List.filter_cons, List.filter_cons, htail, ih]

end KeyTables
