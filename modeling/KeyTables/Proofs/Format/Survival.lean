import KeyTables.Proofs.Format.Outcome

/-! Which keys survive formatting.

* `survives_of_header`: a drawn table that is read back with its keys is one whose keys survive.
* `survives_of_contents`: if the tables of a formatted block have the names and keys of the source,
  then the keys of all drawn tables survive. -/
namespace KeyTables
set_option autoImplicit false
open Cursor

section
variable (g : Grid) (lead newline : Text)

/-- A drawn table whose keys do not survive is not read as itself. -/
theorem survives_of_header (start o n : Nat) (p : Segment) (d : Drawing) (gap rest : Text)
    (b : Block) (hdrawn : Drawn d p.name p.keys newline) (hgap : ∀ c ∈ gap, isGapChar c = true)
    (h : (entries start ⟨tokensFrom o 0 (encode (gap ++ (d.body p.name newline ++ rest))),
      .ending n⟩).value = some b)
    (hkeys : b.contents.head?.map Prod.snd = some p.keys) : survives p.keys = true := by
  have hbytes : encode (gap ++ (d.body p.name newline ++ rest)) = encode gap ++
      (encode (d.head p.name newline) ++ (encode (d.list newline) ++ 0x29 :: 0x2C :: encode rest)) := by
    rw [encode_append, encode_append, Drawing.body, encode_append, encode_append _ [')', ','],
      encode_entryEnd]
    simp
  obtain ⟨comments, first, t, middle, hc, hfirst, -, hheader, hts⟩ := tokensFrom_head
    (o + (encode gap).length) d p.name newline
    (encode (d.list newline) ++ 0x29 :: 0x2C :: encode rest) hdrawn.breaks hdrawn.comments
    hdrawn.named.1 hdrawn.named.2
  rw [hbytes, tokensFrom_spaces o _ _ (isSpaceByte_encode gap hgap), hts,
    entries_gap start _ comments _ (isGap_comments comments hc)] at h
  obtain ⟨keys, after, table, b', hread, htk, rfl⟩ :=
    entries_header start n first t middle _ b hfirst hheader h
  have hsame : keys = p.keys := by
    rw [← htk]
    exact Option.some.inj hkeys
  cases hs : survives p.keys with
  | true => rfl
  | false =>
    exact absurd hsame (keysFrom_perishes p.keys _ hdrawn.listed hdrawn.keyed hs _ _ keys after hread)

/-- Reading a segment puts its table in front. -/
theorem contents_segment (start o n : Nat) (p : Segment) (rest : Text) (b : Block) (hp : p.Reads)
    (hcomma : p.comma = false → leadsComma rest = false)
    (h : (entries start ⟨tokensFrom o 0 (encode (p.text ++ rest)), .ending n⟩).value = some b) :
    ∃ b', (entries start ⟨tokensFrom (o + (encode p.text).length) 0 (encode rest),
        .ending n⟩).value = some b' ∧ b.contents = (p.name, p.keys) :: b'.contents := by
  obtain ⟨table, ⟨hname, hkeys, -⟩, hentries⟩ := entries_segment start o n p rest hp hcomma
  rw [hentries, Option.map_eq_some_iff] at h
  obtain ⟨b', hb', rfl⟩ := h
  refine ⟨b', hb', ?_⟩
  rw [← hname, ← hkeys]
  rfl

theorem survives_of_entries (start o n : Nat) (after : Bool) (tail closing : Text) (p : Segment)
    (ps : List Segment) (b : Block) (hn : IsNewline newline) (hl : IsLead lead)
    (h : Inside tail closing (p :: ps))
    (hvalue : (entries start ⟨tokensFrom o 0 (encode (joined (redrawn g lead newline after (p :: ps)) ++
      (redrawnTail g lead newline tail (p :: ps) ++ closing))), .ending n⟩).value = some b)
    (hcontents : b.contents = contents (p :: ps)) :
    ∀ q ∈ p :: ps, g.keyCount = q.keys.length → survives q.keys = true := by
  induction ps generalizing after p o b with
  | nil =>
    intro q hq hcount
    obtain rfl := List.mem_singleton.mp hq
    obtain ⟨d, hd⟩ := draw_of_count g q.keys lead hcount
    rw [redrawn_ok g lead newline after q [] d hd, joined_cons, List.append_assoc,
      List.append_assoc] at hvalue
    refine survives_of_header newline start o n q d _ _ b
      (drawn_segment g lead newline q d hn hl h.1 hd) (carried_gap newline hn after) hvalue ?_
    rw [hcontents]
    rfl
  | cons r ps ih =>
    rcases draw_fits g lead p with ⟨-, d, hd⟩ | ⟨hf, e, hd⟩
    · have hdrawn := drawn_segment g lead newline p d hn hl h.1 hd
      rw [redrawn_ok g lead newline after p _ d hd, joined_cons, redrawnTail,
        List.append_assoc] at hvalue
      have hs : survives p.keys = true := by
        refine survives_of_header newline start o n p d (carried newline after)
          (joined (redrawn g lead newline true (r :: ps)) ++
            (redrawnTail g lead newline tail (r :: ps) ++ closing)) b hdrawn
          (carried_gap newline hn after) ?_ ?_
        · rw [← List.append_assoc]
          exact hvalue
        · rw [hcontents]
          rfl
      obtain ⟨b', hb', hb⟩ := contents_segment start o n _ _ b
        (reads_entry d p.name newline p.keys _ hdrawn hs (carried_gap newline hn after)) (by simp)
        hvalue
      have hrest := ih _ true r b' h.2.2 hb' (List.cons.inj (hb.symm.trans hcontents)).2
      intro q hq hcount
      rcases List.mem_cons.mp hq with rfl | hq
      · exact hs
      · exact hrest q hq hcount
    · rw [redrawn_error g lead newline after p _ e hd, joined_cons, redrawnTail,
        List.append_assoc] at hvalue
      obtain ⟨b', hb', hb⟩ := contents_segment start o n _ _ b
        (reads_prepend p _ h.1 (carried_gap newline hn after))
        (fun hc => leadsComma_redrawn g lead newline tail closing (r :: ps) hn hl h.2.2 (h.2.1 hc))
        hvalue
      have hrest := ih _ false r b' h.2.2 hb' (List.cons.inj (hb.symm.trans hcontents)).2
      intro q hq hcount
      rcases List.mem_cons.mp hq with rfl | hq
      · exact absurd hcount (beq_eq_false_iff_ne.mp hf)
      · exact hrest q hq hcount

end

theorem survives_of_contents (g : Grid) (lead newline : Text) (l : Layout) (b : Block)
    (hn : IsNewline newline) (hl : IsLead lead) (h : l.Valid)
    (hparse : (parseBlock (encode (l.redrawnWith g lead newline).text)).value = some b)
    (hcontents : b.contents = contents l.segments) :
    ∀ p ∈ l.segments, g.keyCount = p.keys.length → survives p.keys = true := by
  obtain ⟨start, -, hopening⟩ := parseBlock_opening l h
  rw [Layout.text, Layout.redrawnWith, hopening] at hparse
  have hinside := h.inside
  cases hsegments : l.segments with
  | nil => simp
  | cons p ps =>
    rw [hsegments] at hparse hcontents hinside
    exact survives_of_entries g lead newline start _ _ false l.tail l.closing p ps b hn hl hinside
      hparse hcontents

/-- The formatted source has the same names and keys if and only if the keys of every table that is
drawn survive. -/
theorem contents_survive_iff (s : Text) (g : Grid) (lead : Text) (b : Block) (hl : IsLead lead)
    (hparse : (parseBlock (encode s)).value = some b) (hu : b.unparsed = 0) :
    ∃ o, (reformat s g lead).value = .ok o ∧
      ((∃ b', (parseBlock (encode o.text)).value = some b' ∧ b'.contents = b.contents) ↔
        ∀ t ∈ b.tables, g.keyCount = t.keys.length → survives t.keys = true) := by
  obtain ⟨l, hvalid, rfl, hframes⟩ := layout_of_parseBlock s b hparse hu
  refine ⟨_, reformat_layout g lead l hvalid, ?_⟩
  rw [hframes.contents, hframes.forall_keys fun keys => g.keyCount = keys.length →
    survives keys = true]
  constructor
  · rintro ⟨b', hparse', hcontents⟩
    exact survives_of_contents g lead _ l b' (isNewline_breakOf _) hl hvalid hparse' hcontents
  · intro hs
    obtain ⟨b', hparse', hframes'⟩ := parseBlock_layout _
      (valid_redrawn g lead _ l (isNewline_breakOf _) hl hvalid hs)
    refine ⟨b', hparse', ?_⟩
    rw [hframes'.contents]
    exact contents_redrawn g lead _ false l.segments

theorem contents_survive_mixed : ∃ o b',
    (reformat mixedSource [[.key, .key]] defaultLead).value = .ok o ∧
      (parseBlock (encode o.text)).value = some b' ∧ b'.contents = mixedBlock.contents := by
  obtain ⟨o, ho, hiff⟩ := contents_survive_iff mixedSource [[.key, .key]] defaultLead mixedBlock
    ⟨by decide, by decide⟩ parseBlock_mixed rfl
  obtain ⟨b', hb', hcontents⟩ := hiff.mpr (by decide +kernel)
  exact ⟨o, b', ho, hb', hcontents⟩

/-- A block whose one key holds a character outside ASCII. -/
def accentedSource : Text :=
  "const T PROGMEM K[][R][C] = \x7b[A] = LAYOUT(UC(é))\x7d;".toList

def accentedBlock : Block :=
  ⟨28, 49, [⟨⟨.ident, 30, [0x41]⟩, ["UC(\ufffd\ufffd)".toList], 29, 49⟩], 0⟩

/-- Each of its two bytes is a replacement character when it is read, and each of these is three
when the formatted source is read. -/
theorem contents_lost_accented :
    (parseBlock (encode accentedSource)).value = some accentedBlock ∧ accentedBlock.unparsed = 0 ∧
      ∃ o, (reformat accentedSource [[.key]] defaultLead).value = .ok o ∧
        ¬ ∃ b', (parseBlock (encode o.text)).value = some b' ∧
          b'.contents = accentedBlock.contents := by
  obtain ⟨o, ho, hlost⟩ := exists_ok (reformat accentedSource [[.key]] defaultLead).value
    (fun o => !(parseBlock (encode o.text)).value.any fun b' =>
      b'.contents == accentedBlock.contents) (by decide +kernel)
  refine ⟨by decide +kernel, rfl, o, ho, ?_⟩
  rintro ⟨b', hb', hcontents⟩
  simp [hb', hcontents] at hlost

end KeyTables
