import KeyTables.Proofs.Block.Scan
import KeyTables.Proofs.Format.Outcome

/-! No bracket of a block is lost: each one outside all tables starts a table or is counted as an
entry that is none, so a block that is drawn holds no bracket outside its tables.

* `length_loose`: the brackets outside all tables are as many as the entries.
* `bracket_in_table`: in a block without faults every bracket starts a table or lies inside one.
* `block_of_rendered`: only a block without faults is drawn. -/
namespace KeyTables
set_option autoImplicit false
open Cursor

section
variable (d : Bytes) (b : Block) (h : (parseBlock d).value = some b)
include h

theorem length_loose : ((tokens d).filter (isLoose b.start b.stop b.tables)).length =
    b.tables.length + b.unparsed := by
  obtain ⟨ts, close, after, hbehind, hscanned, hstop, hincreasing⟩ := tokensBehind_start d b h
  have hmem : ∀ t ∈ ts ++ [Token.ending d.length], b.start < t.offset := by
    intro t ht
    rw [← hbehind] at ht
    simpa using (List.mem_filter.mp ht).2
  have hfilter : (tokens d).filter (isLoose b.start b.stop b.tables) =
      (ts ++ [Token.ending d.length]).filter (isLoose b.start b.stop b.tables) := by
    rw [← hbehind, tokensBehind, List.filter_filter]
    apply List.filter_congr
    intro t _
    cases hloose : isLoose b.start b.stop b.tables t with
    | false => rfl
    | true => simp [((isLoose_iff _ _ _ t).mp hloose).2.1]
  have hending : [Token.ending d.length].countP (isLoose b.start b.stop b.tables) = 0 :=
    countP_isLoose_zero _ _ _ _ (by simp [Token.ending])
  have hcount := hscanned.countP_loose b.start hincreasing
    (fun t ht => hmem t (List.mem_append_left _ ht))
  rw [hfilter, ← List.countP_eq_length_filter, List.countP_append, hending, ← hstop, hcount,
    Nat.add_zero]

theorem bracket_in_table (hu : b.unparsed = 0) (t : Token) (ht : t ∈ tokens d)
    (hk : t.kind = .lbracket) (hstart : b.start < t.offset) (hend : t.offset < b.stop) :
    ∃ u ∈ b.tables, u.start = t.offset ∨ u.spans t.offset = true := by
  obtain ⟨ts, close, after, hbehind, hscanned, hstop, hincreasing⟩ := tokensBehind_start d b h
  have hmem : t ∈ ts ++ [.ending d.length] := by
    rw [← hbehind]
    exact List.mem_filter.mpr ⟨ht, decide_eq_true hstart⟩
  obtain hts | hlast := List.mem_append.mp hmem
  · obtain ⟨u, hu', hin⟩ | ⟨-, ⟨u, hu', hfirst⟩ | hpos⟩ :=
      hscanned.bracket_or_brace hincreasing t hts (Or.inl hk) (by omega)
    · exact ⟨u, hu', Or.inr hin⟩
    · exact ⟨u, hu', Or.inl hfirst⟩
    · omega
  · rw [List.mem_singleton.mp hlast] at hk
    simp [Token.ending] at hk

end

theorem block_of_rendered (s : Text) (g : Grid) (lead : Text) (o : Outcome)
    (h : (reformat s g lead).value = .ok o) (hr : 0 < o.rendered) :
    ∃ b, (parseBlock (encode s)).value = some b ∧ b.unparsed = 0 := by
  unfold reformat at h
  cases hparse : (parseBlock (encode s)).value with
  | none =>
    simp only [hparse, Except.ok.injEq] at h
    rw [← h] at hr
    simp at hr
  | some b =>
    refine ⟨b, rfl, ?_⟩
    by_cases hu : b.unparsed = 0
    · exact hu
    · simp only [hparse, if_neg hu, Except.ok.injEq] at h
      rw [← h] at hr
      simp at hr

/-- The brackets of a block that lie inside none of its tables are as many as its tables and its
entries that are no tables. So every bracket of a block of which a table is drawn starts a table or
lies inside one. -/
theorem brackets_accounted :
    (∀ (d : Bytes) (b : Block), (parseBlock d).value = some b →
      ((tokens d).filter (isLoose b.start b.stop b.tables)).length =
        b.tables.length + b.unparsed) ∧
    ∀ (s : Text) (g : Grid) (lead : Text) (o : Outcome), (reformat s g lead).value = .ok o →
      0 < o.rendered → ∃ b, (parseBlock (encode s)).value = some b ∧
        ∀ t ∈ tokens (encode s), t.kind = .lbracket → b.start < t.offset → t.offset < b.stop →
          ∃ u ∈ b.tables, u.start = t.offset ∨ u.spans t.offset = true := by
  refine ⟨length_loose, ?_⟩
  intro s g lead o ho hr
  obtain ⟨b, hparse, hu⟩ := block_of_rendered s g lead o ho hr
  exact ⟨b, hparse, bracket_in_table (encode s) b hparse hu⟩

/-- Entries that break off in front of a bracket, at one and at a number, and a bracket inside a
key. -/
def brokenSource : Bytes :=
  encode "const T PROGMEM K[][R][C] = \x7b[A [B] = LAYOUT(F([0])), [[C] = 1\x7d;".toList

def brokenBlock : Block :=
  ⟨28, 62, [⟨⟨.ident, 33, [0x42]⟩, ["F([0])".toList], 32, 53⟩], 3⟩

theorem brackets_accounted_broken : (parseBlock brokenSource).value = some brokenBlock ∧
    ((tokens brokenSource).filter (isLoose 28 62 brokenBlock.tables)).length = 4 ∧
    ∃ o b, (reformat mixedSource [[.key, .key]] defaultLead).value = .ok o ∧ o.rendered = 1 ∧
      (parseBlock (encode mixedSource)).value = some b ∧
      ∀ t ∈ tokens (encode mixedSource), t.kind = .lbracket → b.start < t.offset →
        t.offset < b.stop → ∃ u ∈ b.tables, u.start = t.offset ∨ u.spans t.offset = true := by
  have hparse : (parseBlock brokenSource).value = some brokenBlock := by decide +kernel
  obtain ⟨o, ho, hr⟩ := exists_ok (reformat mixedSource [[.key, .key]] defaultLead).value
    (fun o => o.rendered == 1) (by decide +kernel)
  have hrendered : o.rendered = 1 := eq_of_beq hr
  obtain ⟨b, hb, hin⟩ := brackets_accounted.2 mixedSource [[.key, .key]] defaultLead o ho (by omega)
  exact ⟨hparse, brackets_accounted.1 brokenSource brokenBlock hparse, o, b, ho, hrendered, hb, hin⟩

end KeyTables
