import KeyTables.Proofs.Block.ClosingBrace
import KeyTables.Proofs.Format.Code
import KeyTables.Proofs.Format.Safety

/-! The comma between a table that is kept and one that is drawn. A kept table brings its comma along
if it belongs to it, that is, if only comments stand between its closing parenthesis and the comma.
Any other comma stands in the segment of the table that is drawn, and is replaced with it.

* `closingBefore`, `bracketFrom`, `hasComma`: where a separator is looked for.
* `Block.patchedFront`: the patched bytes in front of a segment.
* `closing_segment`: the closing parenthesis of a segment, wherever the segment stands.
* `separator_kept_iff`: when the comma is still there after formatting. -/
namespace KeyTables
set_option autoImplicit false
open Cursor

/-! ## Separators -/

/-- The last closing parenthesis in front of an offset. -/
def closingBefore (d : Bytes) (stop : Nat) : Option Token :=
  ((tokens d).filter fun t => t.kind == .rparen && decide (t.offset < stop)).getLast?

/-- The first opening bracket from an offset on. -/
def bracketFrom (d : Bytes) (start : Nat) : Option Token :=
  (tokens d).find? fun t => t.kind == .lbracket && decide (start ≤ t.offset)

/-- Whether there is a comma between two offsets. -/
def hasComma (d : Bytes) (start stop : Nat) : Bool :=
  (tokensBetween d start stop).any fun t => t.kind == .comma

section
variable (d : Bytes) (before rest : List Token) (x : Token) (h : tokens d = before ++ x :: rest)
include h

theorem closingBefore_eq (stop : Nat) (hx : x.kind = .rparen) (hlt : x.offset < stop)
    (hrest : ∀ t ∈ rest, t.kind = .rparen → stop ≤ t.offset) : closingBefore d stop = some x := by
  have hnone : (rest.filter fun t => t.kind == .rparen && decide (t.offset < stop)) = [] := by
    refine List.filter_eq_nil_iff.mpr ?_
    intro t ht hp
    simp only [Bool.and_eq_true, beq_iff_eq, decide_eq_true_eq] at hp
    have hle := hrest t ht hp.1
    omega
  rw [closingBefore, h, List.filter_append, List.filter_cons_of_pos (by simp [hx, hlt]), hnone,
    List.getLast?_append]
  rfl

theorem bracketFrom_eq (start : Nat) (hx : x.kind = .lbracket) (hle : start ≤ x.offset)
    (hbefore : ∀ t ∈ before, t.kind = .lbracket → t.offset < start) :
    bracketFrom d start = some x := by
  have hnone : (before.find? fun t => t.kind == .lbracket && decide (start ≤ t.offset)) = none := by
    refine List.find?_eq_none.mpr ?_
    intro t ht hp
    simp only [Bool.and_eq_true, beq_iff_eq, decide_eq_true_eq] at hp
    have hlt := hbefore t ht hp.1
    omega
  rw [bracketFrom, h, List.find?_append, hnone, List.find?_cons_of_pos (by simp [hx, hle])]
  rfl

theorem tokensBehind_eq : tokensBehind d x.offset = rest := by
  have hincreasing := tokens_increasing d
  rw [h] at hincreasing
  rw [tokensBehind, h]
  exact filter_behind before rest x hincreasing

end

/-! ## Closing parentheses -/

section
variable {comma : Bool} {ts : List Token} (h : IsSeparator comma ts)
include h

theorem IsSeparator.relocate (f : Nat → Nat) : IsSeparator comma (ts.map (Token.relocate f)) := by
  cases comma with
  | false => exact congrArg (List.map (Token.relocate f)) h
  | true =>
    obtain ⟨comments, t, rfl, hcomments, ht⟩ := h
    refine ⟨comments.map (Token.relocate f), t.relocate f, by simp, ?_, ht⟩
    intro c hc
    obtain ⟨c', hc', rfl⟩ := List.mem_map.mp hc
    exact hcomments c' hc'

theorem IsSeparator.ne_rparen : ∀ t ∈ ts, t.kind ≠ .rparen := by
  cases comma with
  | false => rw [show ts = [] from h]; simp
  | true =>
    obtain ⟨comments, t, rfl, hcomments, ht⟩ := h
    intro u hu
    obtain hu | hu := List.mem_append.mp hu
    · have hc : u.kind = .comment := by simpa [isComment] using hcomments u hu
      simp [hc]
    · rw [List.mem_singleton.mp hu, ht]
      decide

theorem IsSeparator.any_comma : (ts.any fun t => t.kind == .comma) = comma := by
  cases comma with
  | false => rw [show ts = [] from h]; rfl
  | true =>
    obtain ⟨comments, t, rfl, -, ht⟩ := h
    simp [ht]

theorem IsSeparator.startsComma (rest : List Token)
    (hrest : comma = false → Cursor.startsComma rest = false) :
    Cursor.startsComma (ts ++ rest) = comma := by
  cases comma with
  | false =>
    rw [show ts = [] from h]
    exact hrest rfl
  | true =>
    obtain ⟨comments, t, rfl, hcomments, ht⟩ := h
    rw [List.append_assoc, startsComma_comments comments _ hcomments]
    simp [Cursor.startsComma, isComment, ht]

end

/-- The closing parenthesis of a segment stands at the same distance from its end wherever the segment
stands, and behind it only what belongs to the table. -/
theorem closing_segment (p : Segment) (hp : p.Reads) : ∃ distance, ∀ a rest : Bytes, Sealed a →
    ∃ close separator,
      closingBefore (a ++ encode p.text ++ rest) (a ++ encode p.text).length = some close ∧
      close.offset + distance = (a ++ encode p.text).length ∧
      tokensBehind (a ++ encode p.text ++ rest) close.offset = separator ++
        (tokensFrom (a ++ encode p.text).length 0 rest ++
          [.ending (a ++ encode p.text ++ rest).length]) ∧
      IsSeparator p.comma separator ∧
      ∀ t ∈ separator, t.offset < (a ++ encode p.text).length := by
  obtain ⟨table, hpiece, -⟩ := hp.2 0
  obtain ⟨before, close, separator, hts, -, hclose, hseparator, -⟩ := PieceTokens.closing _ _ _ hpiece
  have hbound : ∀ o, ∀ t ∈ tokensFrom o 0 (encode p.text), t.offset < o + (encode p.text).length := by
    intro o t ht
    have hlt := offset_lt_stop o _ t ht
    have hle := stop_le_of_mem o _ t ht
    omega
  have hlast := hbound 0 close (by rw [hts]; simp)
  refine ⟨(encode p.text).length - close.offset, ?_⟩
  intro a rest ha
  have hmoved := tokensFrom_relocate 0 a.length (encode p.text)
  rw [hts, List.map_append, List.map_cons] at hmoved
  have hmem : ∀ t ∈ separator.map (Token.relocate fun x => x - 0 + a.length),
      t ∈ tokensFrom a.length 0 (encode p.text) := by
    intro t ht
    rw [hmoved]
    exact List.mem_append_right _ (List.mem_cons_of_mem _ ht)
  have hsplit : tokens (a ++ encode p.text ++ rest) =
      (tokensFrom 0 0 a ++ before.map (Token.relocate fun x => x - 0 + a.length)) ++
        close.relocate (fun x => x - 0 + a.length) ::
          (separator.map (Token.relocate fun x => x - 0 + a.length) ++
            (tokensFrom (a ++ encode p.text).length 0 rest ++
              [.ending (a ++ encode p.text ++ rest).length])) := by
    rw [tokens, List.append_assoc, ha, Nat.zero_add, hp.1, hmoved, List.length_append]
    simp
  have hoffset : (close.relocate fun x => x - 0 + a.length).offset = close.offset + a.length := by
    show close.offset - 0 + a.length = _
    omega
  refine ⟨_, _, closingBefore_eq _ _ _ _ hsplit _ hclose ?_ ?_, ?_, tokensBehind_eq _ _ _ _ hsplit,
    hseparator.relocate _, ?_⟩
  · rw [hoffset, List.length_append]
    omega
  · intro t ht hk
    obtain ht | ht := List.mem_append.mp ht
    · exact absurd hk ((hseparator.relocate _).ne_rparen t ht)
    obtain ht | ht := List.mem_append.mp ht
    · exact offset_le_of_mem _ rest t ht
    · rw [List.mem_singleton.mp ht] at hk
      simp [Token.ending] at hk
  · rw [hoffset, List.length_append]
    omega
  · intro t ht
    rw [List.length_append]
    exact hbound a.length t (hmem t ht)

/-! ## Patched bytes -/

/-- The patched bytes in front of the segment of table `k`. -/
def Block.patchedFront (d : Bytes) (b : Block) (replacements : List (Option Text)) (k : Nat) : Bytes :=
  d.take (b.start + 1) ++ ((b.segments.zipWith (patchedSegment d) replacements).take k).flatten

section
variable (l : Layout) (before : List Segment) (q : Segment) (after : List Segment)
  (hs : l.segments = before ++ q :: after)
include hs

theorem patchedFront_layout (b : Block) (h : l.Frames b) (r : Segment → Option Text) :
    b.patchedFront (encode l.text) (l.segments.map r) before.length =
      encode (l.opening ++ before.flatMap fun p => (r p).getD p.text) := by
  rw [Block.patchedFront, patchedSegments_layout l b h, h.around.1, ← map_stretches l.tail r,
    List.zipWith_map_right, List.zipWith_self, hs, stretches_append, List.map_append,
    List.take_left' (by simp), encode_append]
  simp [encode_flatten, List.flatMap_def, Function.comp_def]

theorem text_front (r : Segment → Option Text) (t : Text) (hq : r q = some t) :
    ∃ rest, l.opening ++ (spliced l.tail l.segments (l.segments.map r) ++ l.closing) =
      (l.opening ++ before.flatMap fun p => (r p).getD p.text) ++ (t ++ rest) := by
  obtain ⟨p, ps, hps⟩ := List.exists_cons_of_ne_nil
    (List.append_ne_nil_of_right_ne_nil before (List.cons_ne_nil q after))
  obtain ⟨old, more, hmore⟩ : ∃ old more, stretches l.tail (q :: after) = (q, old) :: more := by
    cases after with
    | nil => exact ⟨_, _, rfl⟩
    | cons q' after => exact ⟨_, _, rfl⟩
  refine ⟨more.flatMap (fun x => (r x.1).getD x.2) ++ l.closing, ?_⟩
  rw [hs, hps, spliced_map, ← hps, stretches_append, hmore, List.flatMap_append, List.flatMap_cons,
    hq]
  simp [List.flatMap_map]

end

theorem slice_suffix (a w rest : Bytes) (start stop : Nat) (hstart : a.length ≤ start)
    (hstop : stop = (a ++ w).length) : slice (a ++ w ++ rest) start stop <:+ w := by
  rw [slice, hstop, List.take_left, List.drop_append,
    List.drop_eq_nil_of_le hstart, List.nil_append]
  exact List.drop_suffix _ _

theorem startsComma_ending (ts : List Token) (n : Nat) :
    startsComma (ts ++ [.ending n]) = startsComma ts := by
  induction ts with
  | nil => rfl
  | cons t ts ih => rw [List.cons_append, startsComma, startsComma, ih]

theorem sealed_flatMap (f : Segment → Text) (ps : List Segment)
    (h : ∀ p ∈ ps, Sealed (encode (f p))) : Sealed (encode (ps.flatMap f)) := by
  induction ps with
  | nil => exact sealed_nil
  | cons p ps ih =>
    rw [List.flatMap_cons, encode_append]
    exact (h p List.mem_cons_self).append (ih (fun x hx => h x (List.mem_cons_of_mem p hx)))

/-! ## Commas -/

theorem hasComma_of_separator (d : Bytes) (start stop : Nat) (separator rest : List Token)
    (hbehind : tokensBehind d start = separator ++ rest) (hseparator : IsSeparator true separator)
    (hstop : ∀ t ∈ separator, t.offset < stop) : hasComma d start stop = true := by
  obtain ⟨comments, t, rfl, -, ht⟩ := hseparator
  refine List.any_eq_true.mpr ⟨t, ?_, by simp [ht]⟩
  refine List.mem_filter.mpr ⟨?_, decide_eq_true (hstop t (by simp))⟩
  rw [hbehind]
  simp

/-- A drawn table is comments up to its bracket. -/
theorem tokensFrom_drawn (o : Nat) (d : Drawing) (name newline : Text) (keys : List Text)
    (rest : Bytes) (h : Drawn d name keys newline) :
    ∃ comments first after, (∀ c ∈ comments, isComment c = true) ∧ first.kind = .lbracket ∧
      tokensFrom o 0 (encode (d.entryText name newline) ++ rest) = comments ++ first :: after := by
  obtain ⟨comments, first, t, middle, hcomments, hfirst, -, -, hts⟩ := tokensFrom_head o d name
    newline (encode (d.list newline ++ [')', ',']) ++ (encode newline ++ rest)) h.breaks h.comments
    h.named.1 h.named.2
  have hbytes : encode (d.entryText name newline) ++ rest = encode (d.head name newline) ++
      (encode (d.list newline ++ [')', ',']) ++ (encode newline ++ rest)) := by
    rw [Drawing.entryText_eq, Drawing.body]
    simp
  rw [← hbytes] at hts
  exact ⟨comments, first, _, hcomments, hfirst, hts⟩

section
variable (front rest : Bytes) (comments after : List Token) (first : Token) (hfront : Sealed front)
  (hcomments : ∀ c ∈ comments, isComment c = true) (hfirst : first.kind = .lbracket)
  (hts : tokensFrom front.length 0 rest = comments ++ first :: after)
include hcomments hts

include hfront hfirst in
theorem bracketFrom_front : bracketFrom (front ++ rest) front.length = some first := by
  have hsplit : tokens (front ++ rest) = (tokensFrom 0 0 front ++ comments) ++
      first :: (after ++ [.ending (front ++ rest).length]) := by
    rw [tokens, hfront, Nat.zero_add, hts]
    simp only [List.append_assoc, List.cons_append]
  refine bracketFrom_eq _ _ _ first hsplit _ hfirst ?_ ?_
  · exact offset_le_of_mem front.length _ first (by rw [hts]; simp)
  · intro t ht hk
    obtain ht | ht := List.mem_append.mp ht
    · have hlt := offset_lt_stop 0 front t ht
      have hle := stop_le_of_mem 0 front t ht
      omega
    · have hc := hcomments t ht
      rw [isComment, hk] at hc
      exact absurd hc (by decide)

/-- Between a kept table and the bracket of a drawn one stands what belongs to the kept one, and the
comments of the diagram. -/
theorem hasComma_front (start : Nat) (comma : Bool) (separator : List Token)
    (hseparator : IsSeparator comma separator)
    (hbehind : tokensBehind (front ++ rest) start = separator ++
      (tokensFrom front.length 0 rest ++ [.ending (front ++ rest).length])) :
    hasComma (front ++ rest) start first.offset = comma := by
  have hbetween : tokensBetween (front ++ rest) start first.offset = separator ++ comments := by
    refine tokensBetween_of_behind _ start (separator ++ comments)
      (after ++ [.ending (front ++ rest).length]) first ?_
    rw [hbehind, hts]
    simp only [List.append_assoc, List.cons_append]
  have hnone : (comments.any fun t => t.kind == .comma) = false := by
    refine List.any_eq_false.mpr ?_
    intro c hc
    have hkind : c.kind = .comment := by simpa [isComment] using hcomments c hc
    rw [hkind]
    decide
  rw [hasComma, hbetween, List.any_append, hseparator.any_comma, hnone, Bool.or_false]

end

/-! ## Layouts -/

/-- The bytes of a source in front of a segment, in it and behind it. -/
theorem encode_around (l : Layout) (before : List Segment) (p : Segment) (after : List Segment)
    (hs : l.segments = before ++ p :: after) :
    encode l.text = encode (l.opening ++ joined before) ++ encode p.text ++
      encode (joined after ++ (l.tail ++ l.closing)) := by
  rw [Layout.text, hs]
  simp [joined]

/-- What becomes of the separator of a segment that is kept in front of one that is drawn. -/
theorem separator_layout (g : Grid) (lead newline : Text) (hn : IsNewline newline) (hl : IsLead lead)
    (l : Layout) (h : l.Valid) (before after : List Segment) (p q : Segment)
    (hs : l.segments = before ++ p :: q :: after) (hp : p.fits g = false) (hq : q.fits g = true) :
    ∃ front rest close close' first,
      front = encode (l.opening ++
        (before ++ [p]).flatMap fun x => (redraw? g lead newline x).getD x.text) ∧
      encode (l.redrawnWith g lead newline).text = front ++ rest ∧ encode p.text <:+ front ∧
      closingBefore (encode l.text) (encode (l.opening ++ joined before) ++ encode p.text).length =
        some close ∧
      closingBefore (front ++ rest) front.length = some close' ∧
      front.length - close'.offset =
        (encode (l.opening ++ joined before) ++ encode p.text).length - close.offset ∧
      bracketFrom (front ++ rest) front.length = some first ∧
      hasComma (front ++ rest) close'.offset first.offset = p.comma ∧
      startsComma (tokensBehind (encode l.text) close.offset) = p.comma ∧
      (p.comma = true → ∀ stop, (encode (l.opening ++ joined before) ++ encode p.text).length ≤ stop →
        hasComma (encode l.text) close.offset stop = true) := by
  obtain ⟨-, -, hopening, -⟩ := h.opened
  have hreads := reads_of_inside _ _ _ h.inside
  have hinside := inside_behind l.tail l.closing before (p :: q :: after) (hs ▸ h.inside)
  rw [hs] at hreads
  have hbefore : ∀ x ∈ before, x.Reads := fun x hx => hreads x (List.mem_append_left _ hx)
  obtain ⟨distance, hclosing⟩ := closing_segment p hinside.1
  -- the source
  have hsource := encode_around l before p (q :: after) hs
  have hsealed : Sealed (encode (l.opening ++ joined before)) := by
    rw [encode_append]
    exact hopening.append (sealed_flatMap _ before fun x hx => (hbefore x hx).1)
  obtain ⟨close, separator, hclose, hdistance, hbehind, hseparator, hstop⟩ := hclosing _ _ hsealed
  rw [← hsource] at hclose hbehind
  -- the formatted source
  obtain ⟨-, hkeep⟩ := (redraw_cases g lead newline hn hl p hinside.1).resolve_left (by simp [hp])
  obtain ⟨-, d, hd, hredraw⟩ :=
    (redraw_cases g lead newline hn hl q (hreads q (by simp))).resolve_right (by simp [hq])
  obtain ⟨rest, hrest⟩ := text_front l (before ++ [p]) q after (by simp [hs]) _ _ hredraw
  have hfront : encode (l.opening ++
      (before ++ [p]).flatMap fun x => (redraw? g lead newline x).getD x.text) =
      encode (l.opening ++ before.flatMap fun x => (redraw? g lead newline x).getD x.text) ++
        encode p.text := by
    simp [hkeep]
  have hsealed' : Sealed (encode (l.opening ++
      before.flatMap fun x => (redraw? g lead newline x).getD x.text)) := by
    rw [encode_append]
    exact hopening.append
      (sealed_flatMap _ before fun x hx => sealed_redraw g lead newline hn hl x (hbefore x hx))
  obtain ⟨close', separator', hclose', hdistance', hbehind', hseparator', -⟩ :=
    hclosing _ (encode (d.entryText q.name newline) ++ encode rest) hsealed'
  rw [← hfront] at hclose' hdistance' hbehind'
  obtain ⟨comments, first, more, hcomments, hfirst, hts⟩ := tokensFrom_drawn
    (encode (l.opening ++ (before ++ [p]).flatMap fun x =>
      (redraw? g lead newline x).getD x.text)).length d q.name newline q.keys (encode rest) hd
  refine ⟨_, _, close, close', first, rfl, ?_, ?_, hclose, hclose', by omega, ?_, ?_, ?_, ?_⟩
  · rw [text_redrawn, hrest]
    simp
  · rw [hfront]
    exact List.suffix_append _ _
  · exact bracketFrom_front _ _ comments more first (hfront ▸ hsealed'.append hinside.1.1) hcomments
      hfirst hts
  · exact hasComma_front _ _ comments more first hcomments hts _ p.comma separator' hseparator'
      hbehind'
  · rw [hbehind]
    refine hseparator.startsComma _ ?_
    intro hcomma
    rw [startsComma_ending, startsComma_tokensFrom]
    exact hinside.2.1 hcomma
  · intro hcomma stop hle
    rw [hcomma] at hseparator
    exact hasComma_of_separator _ _ _ separator _ hbehind hseparator
      (fun t ht => Nat.lt_of_lt_of_le (hstop t ht) hle)

/-! ## Sources -/

/-- A comma between a table that is kept and a drawn one right after it is still there after formatting
if and only if it is the first token behind the kept table's parenthesis that is no comment. -/
theorem separator_kept_iff (s : Text) (g : Grid) (lead : Text) (hl : IsLead lead) (b : Block)
    (hparse : (parseBlock (encode s)).value = some b) (hu : b.unparsed = 0) (k : Nat)
    (kept drawn : KeyTable) (hkept : b.tables[k]? = some kept)
    (hdrawn : b.tables[k + 1]? = some drawn) (hskip : g.keyCount ≠ kept.keys.length)
    (hfit : g.keyCount = drawn.keys.length) :
    ∃ o front close close' first, (reformat s g lead).value = .ok o ∧
      front = b.patchedFront (encode s) (b.tables.map (replacement g lead (breakOf s))) (k + 1) ∧
      front <+: encode o.text ∧ slice (encode s) kept.start kept.stop <:+ front ∧
      closingBefore (encode s) kept.stop = some close ∧
      closingBefore (encode o.text) front.length = some close' ∧
      front.length - close'.offset = kept.stop - close.offset ∧
      bracketFrom (encode o.text) front.length = some first ∧
      (hasComma (encode o.text) close'.offset first.offset = true ↔
        startsComma (tokensBehind (encode s) close.offset) = true) ∧
      (startsComma (tokensBehind (encode s) close.offset) = true →
        hasComma (encode s) close.offset drawn.start = true) := by
  obtain ⟨l, hvalid, rfl, hframes⟩ := layout_of_parseBlock s b hparse hu
  obtain ⟨hordered, hwithin⟩ := tables_of_parseBlock _ b hparse
  have hstart : ∀ t ∈ b.tables, (encode l.opening).length ≤ t.start := by
    intro t ht
    have hlt := (hwithin t ht).2.1
    rw [← hframes.start]
    omega
  obtain ⟨before, p, after, hs, rfl, hp, hle, htiles⟩ :=
    tiles_at _ k _ _ kept hframes.tables hkept hstart hordered
  obtain ⟨q, after, rfl, hq⟩ : ∃ q more, after = q :: more ∧ drawn.keys = q.keys := by
    rw [← List.head?_drop] at hdrawn
    cases after with
    | nil =>
      rw [show b.tables.drop (before.length + 1) = [] from htiles] at hdrawn
      simp at hdrawn
    | cons q more =>
      obtain ⟨table, rest, hdrop, hholds, -⟩ := htiles
      rw [hdrop] at hdrawn
      obtain rfl := Option.some.inj hdrawn
      exact ⟨q, more, rfl, hholds.2.1⟩
  have hp' : p.fits g = false := by
    rw [hp.2.1] at hskip
    exact beq_eq_false_iff_ne.mpr hskip
  have hq' : q.fits g = true := by
    rw [hq] at hfit
    exact beq_iff_eq.mpr hfit
  obtain ⟨front, rest, close, close', first, hfront, htext, hsuffix, hclose, hclose', hdistance,
    hbracket, hout, hstarts, hsource⟩ := separator_layout g lead (breakOf l.text)
      (isNewline_breakOf l.text) hl l hvalid before after p q hs hp' hq'
  have hstop : kept.stop = (encode (l.opening ++ joined before) ++ encode p.text).length := by
    rw [hp.2.2, encode_append, List.length_append, List.length_append]
  have hlength : before.length + 1 = (before ++ [p]).length := by simp
  refine ⟨_, front, close, close', first, reformat_layout g lead l hvalid, ?_, ?_, ?_, ?_, ?_, ?_, ?_,
    ?_, ?_⟩
  · rw [replacement_tiles g lead _ _ _ _ hframes.tables, hlength,
      patchedFront_layout l (before ++ [p]) q after (by simp [hs]) b hframes]
    exact hfront
  · exact ⟨rest, htext.symm⟩
  · refine List.IsSuffix.trans ?_ hsuffix
    rw [encode_around l before p (q :: after) hs]
    refine slice_suffix _ _ _ _ _ ?_ hstop
    rw [encode_append, List.length_append]
    exact hle
  · rw [hstop]
    exact hclose
  · rw [htext]
    exact hclose'
  · rw [hstop]
    exact hdistance
  · rw [htext]
    exact hbracket
  · rw [htext, hout, hstarts]
  · rw [hstarts]
    intro hcomma
    refine hsource hcomma drawn.start ?_
    rw [← hstop]
    obtain ⟨hi, hi'⟩ := List.getElem?_eq_some_iff.mp hkept
    obtain ⟨hj, hj'⟩ := List.getElem?_eq_some_iff.mp hdrawn
    rw [← hi', ← hj']
    exact List.pairwise_iff_getElem.mp hordered _ _ hi hj (Nat.lt_succ_self _)

/-- A table that is kept, with a comment in front of its comma. -/
def commentedSource : Text :=
  "const T PROGMEM K[][R][C] = \x7b[A] = LAYOUT(X, Y) // c\n, [B] = LAYOUT(Z)\x7d;".toList

def commentedBlock : Block :=
  ⟨28, 70, [⟨⟨.ident, 30, [0x41]⟩, [['X'], ['Y']], 29, 54⟩,
    ⟨⟨.ident, 56, [0x42]⟩, [['Z']], 55, 70⟩], 0⟩

theorem separator_kept_commented :
    (parseBlock (encode commentedSource)).value = some commentedBlock ∧
    ∃ o close first, (reformat commentedSource [[.key]] defaultLead).value = .ok o ∧
      o.rendered = 1 ∧ o.skipped = 1 ∧ closingBefore (encode o.text) 54 = some close ∧
      bracketFrom (encode o.text) 54 = some first ∧
      hasComma (encode o.text) close.offset first.offset = true := by
  have hparse : (parseBlock (encode commentedSource)).value = some commentedBlock := by
    decide +kernel
  obtain ⟨o, front, close, close', first, ho, hfront, -, -, hclose, hclose', -, hfirst, hiff, -⟩ :=
    separator_kept_iff commentedSource [[.key]] defaultLead ⟨by decide, by decide⟩ commentedBlock
      hparse rfl 0 _ _ rfl rfl (by decide) rfl
  have hlength : front.length = 54 := by
    rw [hfront]
    decide +kernel
  have hsource : closingBefore (encode commentedSource) 54 = some ⟨.rparen, 46, [0x29]⟩ := by
    decide +kernel
  have hcounts : (reformat commentedSource [[.key]] defaultLead).value.toOption.map
      (fun o => (o.rendered, o.skipped)) = some (1, 1) := by decide +kernel
  rw [ho] at hcounts
  obtain ⟨hrendered, hskipped⟩ := Prod.mk.inj (Option.some.inj hcounts)
  rw [hlength] at hclose' hfirst
  refine ⟨hparse, o, close', first, ho, hrendered, hskipped, hclose', hfirst, hiff.mpr ?_⟩
  obtain rfl := Option.some.inj (hsource.symm.trans hclose)
  decide +kernel

/-- A table that is kept, with a block comment in front of its comma. -/
def blockCommentedSource : Text :=
  "const T PROGMEM K[][R][C] = \x7b[A] = LAYOUT(X, Y) /**/, [B] = LAYOUT(Z)\x7d;".toList

def blockCommentedBlock : Block :=
  ⟨28, 69, [⟨⟨.ident, 30, [0x41]⟩, [['X'], ['Y']], 29, 47⟩,
    ⟨⟨.ident, 55, [0x42]⟩, [['Z']], 54, 69⟩], 0⟩

/-- A block comment is no comment to the tokeniser. The comma behind it stands in the segment of the
next table, and nothing separates the two tables when that one is drawn. -/
theorem separator_lost_block_comment :
    (parseBlock (encode blockCommentedSource)).value = some blockCommentedBlock ∧
    closingBefore (encode blockCommentedSource) 47 = some ⟨.rparen, 46, [0x29]⟩ ∧
    hasComma (encode blockCommentedSource) 46 54 = true ∧
    ∃ o, (reformat blockCommentedSource [[.key]] defaultLead).value = .ok o ∧
      o.rendered = 1 ∧ o.skipped = 1 ∧
      (encode o.text).take 47 = (encode blockCommentedSource).take 47 ∧
      closingBefore (encode o.text) 47 = some ⟨.rparen, 46, [0x29]⟩ ∧
      (bracketFrom (encode o.text) 47).map Token.offset = some 112 ∧
      hasComma (encode o.text) 46 112 = false := by
  obtain ⟨o, ho, hlost⟩ := exists_ok (reformat blockCommentedSource [[.key]] defaultLead).value
    (fun o => decide (o.rendered = 1 ∧ o.skipped = 1 ∧
      (encode o.text).take 47 = (encode blockCommentedSource).take 47 ∧
      closingBefore (encode o.text) 47 = some ⟨.rparen, 46, [0x29]⟩ ∧
      (bracketFrom (encode o.text) 47).map Token.offset = some 112 ∧
      hasComma (encode o.text) 46 112 = false)) (by decide +kernel)
  refine ⟨?_, ?_, ?_, o, ho, of_decide_eq_true hlost⟩
  · decide +kernel
  · decide +kernel
  · decide +kernel

end KeyTables
