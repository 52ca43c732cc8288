import KeyTables.Proofs.Block.Splice
import KeyTables.Proofs.Drawing.Entry

/-! A layout with its tables drawn anew.

* `Layout.redrawnWith`: the layout of the formatted source. The line break at the end of a drawn
  table is in front of the next table there.
* `text_redrawn`: its text is the patched one.
* `valid_redrawn`: it is valid if the keys of all drawn tables survive. -/
namespace KeyTables
set_option autoImplicit false
open Cursor

/-- The line break that a drawn table leaves in front of what follows. -/
def carried (newline : Text) (afterDrawn : Bool) : Text :=
  if afterDrawn then newline else []

/-- A lead that makes each line of a diagram one comment. -/
def IsLead (lead : Text) : Prop :=
  ['/', '/'] <+: lead ∧ '\n' ∉ lead

def redrawn (g : Grid) (lead newline : Text) : (afterDrawn : Bool) → List Segment → List Segment
  | _, [] => []
  | afterDrawn, p :: ps =>
    match draw g p.keys lead with
    | .ok d =>
      ⟨carried newline afterDrawn ++ d.body p.name newline, p.name, p.keys, true⟩ ::
        redrawn g lead newline true ps
    | .error _ =>
      ⟨carried newline afterDrawn ++ p.text, p.name, p.keys, p.comma⟩ ::
        redrawn g lead newline false ps

/-- What follows the last table is dropped if that table is drawn. -/
def redrawnTail (g : Grid) (lead newline tail : Text) : List Segment → Text
  | [] => tail
  | [p] =>
    match draw g p.keys lead with
    | .ok _ => newline
    | .error _ => tail
  | _ :: q :: ps => redrawnTail g lead newline tail (q :: ps)

def Layout.redrawnWith (l : Layout) (g : Grid) (lead newline : Text) : Layout :=
  ⟨l.opening, redrawn g lead newline false l.segments,
    redrawnTail g lead newline l.tail l.segments, l.closing⟩

section
variable (g : Grid) (lead newline : Text)

theorem redrawn_ok (after : Bool) (p : Segment) (ps : List Segment) (d : Drawing)
    (h : draw g p.keys lead = .ok d) : redrawn g lead newline after (p :: ps) =
      ⟨carried newline after ++ d.body p.name newline, p.name, p.keys, true⟩ ::
        redrawn g lead newline true ps := by
  rw [redrawn, h]

theorem redrawn_error (after : Bool) (p : Segment) (ps : List Segment) (e : CountMismatch)
    (h : draw g p.keys lead = .error e) : redrawn g lead newline after (p :: ps) =
      ⟨carried newline after ++ p.text, p.name, p.keys, p.comma⟩ ::
        redrawn g lead newline false ps := by
  rw [redrawn, h]

/-- Names and keys of segments. -/
def contents (ps : List Segment) : List (Text × List Text) :=
  ps.map fun p => (p.name, p.keys)

theorem contents_redrawn (after : Bool) (ps : List Segment) :
    contents (redrawn g lead newline after ps) = contents ps := by
  induction ps generalizing after with
  | nil => rfl
  | cons p ps ih =>
    cases hd : draw g p.keys lead with
    | ok d =>
      rw [redrawn_ok g lead newline after p ps d hd, contents, List.map_cons]
      exact congrArg _ (ih true)
    | error e =>
      rw [redrawn_error g lead newline after p ps e hd, contents, List.map_cons]
      exact congrArg _ (ih false)

/-! ## The patched text -/

/-- What a table is replaced by, if it is drawn. -/
def redraw? (p : Segment) : Option Text :=
  match draw g p.keys lead with
  | .ok d => some (d.entryText p.name newline)
  | .error _ => none

theorem spliced_redrawn (after : Bool) (tail : Text) (p : Segment) (ps : List Segment) :
    carried newline after ++ spliced tail (p :: ps) ((p :: ps).map (redraw? g lead newline)) =
      joined (redrawn g lead newline after (p :: ps)) ++
        redrawnTail g lead newline tail (p :: ps) := by
  induction ps generalizing after p with
  | nil =>
    cases hd : draw g p.keys lead with
    | ok d =>
      rw [redrawn_ok g lead newline after p [] d hd, redrawnTail, hd, List.map_cons, redraw?, hd]
      simp [spliced, redrawn, Drawing.entryText_eq]
    | error e =>
      rw [redrawn_error g lead newline after p [] e hd, redrawnTail, hd, List.map_cons, redraw?, hd]
      simp [spliced, redrawn]
  | cons q ps ih =>
    cases hd : draw g p.keys lead with
    | ok d =>
      have hih := ih true q
      rw [redrawn_ok g lead newline after p _ d hd, redrawnTail, List.map_cons, List.map_cons,
        spliced, redraw?, hd, joined_cons, List.append_assoc, ← hih]
      simp [Drawing.entryText_eq, carried]
    | error e =>
      have hih := ih false q
      rw [redrawn_error g lead newline after p _ e hd, redrawnTail, List.map_cons, List.map_cons,
        spliced, redraw?, hd, joined_cons, List.append_assoc, ← hih]
      simp [carried]

theorem text_redrawn (l : Layout) :
    (l.redrawnWith g lead newline).text =
      l.opening ++ (spliced l.tail l.segments (l.segments.map (redraw? g lead newline)) ++
        l.closing) := by
  rw [Layout.text, Layout.redrawnWith]
  cases hsegments : l.segments with
  | nil => simp [redrawn, redrawnTail, spliced]
  | cons p ps =>
    have h := spliced_redrawn g lead newline false l.tail p ps
    rw [carried, if_neg (by simp), List.nil_append] at h
    rw [h, List.append_assoc]

/-! ## Validity -/

theorem carried_gap (hn : IsNewline newline) (after : Bool) :
    ∀ c ∈ carried newline after, isGapChar c = true := by
  rw [carried]
  split
  · exact hn.gap.1
  · simp

theorem drawn_segment (p : Segment) (d : Drawing) (hn : IsNewline newline) (hl : IsLead lead)
    (hp : p.Reads) (h : draw g p.keys lead = .ok d) : Drawn d p.name p.keys newline :=
  drawn_of_draw g lead newline p.name p.keys d hn hl.1 hl.2 hp.name_text hp.keys_text h

theorem reads_prepend (p : Segment) (gap : Text) (h : p.Reads)
    (hgap : ∀ c ∈ gap, isGapChar c = true) :
    Segment.Reads ⟨gap ++ p.text, p.name, p.keys, p.comma⟩ := by
  obtain ⟨table, htokens, hname, hkeys, hstop⟩ := h.2 (0 + (encode gap).length)
  rw [← tokensFrom_spaces 0 _ _ (isSpaceByte_encode gap hgap), ← encode_append] at htokens
  rw [← hname, ← hkeys]
  refine reads_of_tokens _ 0 table p.comma htokens ?_
  rw [hstop, encode_append, List.length_append]
  omega

theorem inside_newline (closing : Text) (hn : IsNewline newline)
    (hc : ∃ after, closing = '}' :: after) : Inside newline closing [] := by
  obtain ⟨after, rfl⟩ := hc
  intro o
  refine ⟨[], tokensFrom (o + (encode newline).length + 1) 0 (encode after), by simp [IsGap], ?_⟩
  rw [encode_append, tokensFrom_spaces o _ _ (isSpaceByte_encode newline hn.gap.1),
    encode_cons_ascii '}' after (by decide), tokensFrom_mark _ _ .rbrace _ rfl]
  rfl

/-- Drawing puts no comma in front. -/
theorem leadsComma_redrawn (tail closing : Text) (ps : List Segment) (hn : IsNewline newline)
    (hl : IsLead lead) (h : Inside tail closing ps)
    (hc : leadsComma (joined ps ++ (tail ++ closing)) = false) :
    leadsComma (joined (redrawn g lead newline false ps) ++
      (redrawnTail g lead newline tail ps ++ closing)) = false := by
  cases ps with
  | nil => exact hc
  | cons p ps =>
    rw [joined_cons, List.append_assoc, leadsComma_segment p _ h.1] at hc
    cases hd : draw g p.keys lead with
    | ok d =>
      have hdrawn := drawn_segment g lead newline p d hn hl h.1 hd
      rw [redrawn_ok g lead newline false p ps d hd, joined_cons, List.append_assoc,
        List.append_assoc]
      exact leadsComma_entry d p.name newline p.keys _ _ hdrawn (carried_gap newline hn false)
    | error e =>
      rw [redrawn_error g lead newline false p ps e hd, joined_cons, List.append_assoc]
      exact (leadsComma_segment p _ h.1).trans hc

theorem inside_redrawn (tail closing : Text) (after : Bool) (p : Segment) (ps : List Segment)
    (hn : IsNewline newline) (hl : IsLead lead) (hc : ∃ rest, closing = '}' :: rest)
    (hs : ∀ q ∈ p :: ps, g.keyCount = q.keys.length → survives q.keys = true)
    (h : Inside tail closing (p :: ps)) :
    Inside (redrawnTail g lead newline tail (p :: ps)) closing
      (redrawn g lead newline after (p :: ps)) := by
  induction ps generalizing after p with
  | nil =>
    cases hd : draw g p.keys lead with
    | ok d =>
      have hdrawn := drawn_segment g lead newline p d hn hl h.1 hd
      have hsurvives := hs p List.mem_cons_self (draw_ok g p.keys lead d hd).1
      rw [redrawn_ok g lead newline after p [] d hd, redrawnTail, hd]
      exact ⟨reads_entry d p.name newline p.keys _ hdrawn hsurvives (carried_gap newline hn after),
        by simp, inside_newline newline closing hn hc⟩
    | error e =>
      rw [redrawn_error g lead newline after p [] e hd, redrawnTail, hd]
      exact ⟨reads_prepend p _ h.1 (carried_gap newline hn after), h.2⟩
  | cons q ps ih =>
    have hrest := fun after => ih after q (fun x hx => hs x (List.mem_cons_of_mem p hx)) h.2.2
    cases hd : draw g p.keys lead with
    | ok d =>
      have hdrawn := drawn_segment g lead newline p d hn hl h.1 hd
      have hsurvives := hs p List.mem_cons_self (draw_ok g p.keys lead d hd).1
      rw [redrawn_ok g lead newline after p _ d hd, redrawnTail]
      exact ⟨reads_entry d p.name newline p.keys _ hdrawn hsurvives (carried_gap newline hn after),
        by simp, hrest true⟩
    | error e =>
      rw [redrawn_error g lead newline after p _ e hd, redrawnTail]
      refine ⟨reads_prepend p _ h.1 (carried_gap newline hn after), ?_, hrest false⟩
      intro hcomma
      exact leadsComma_redrawn g lead newline tail closing (q :: ps) hn hl h.2.2 (h.2.1 hcomma)

theorem valid_redrawn (l : Layout) (hn : IsNewline newline) (hl : IsLead lead) (h : l.Valid)
    (hs : ∀ p ∈ l.segments, g.keyCount = p.keys.length → survives p.keys = true) :
    (l.redrawnWith g lead newline).Valid := by
  refine ⟨h.opened, ?_, h.closed⟩
  have hinside := h.inside
  rw [Layout.redrawnWith]
  cases hsegments : l.segments with
  | nil =>
    rw [hsegments] at hinside
    exact hinside
  | cons p ps =>
    rw [hsegments] at hinside hs
    exact inside_redrawn g lead newline l.tail l.closing false p ps hn hl h.closed hs hinside

end

end KeyTables
