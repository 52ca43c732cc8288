import KeyTables.Proofs.Block.Misread
import KeyTables.Proofs.Block.Segment
import KeyTables.Proofs.Drawing.Diagram
import KeyTables.Proofs.Drawing.KeyList

/-! The text of a drawn table, read back.

* `entryText_eq`: the text up to the comma, and a line break.
* `tokensFrom_head`: the tokens in front of the key list are comments and a table header.
* `survives`: all keys last, and the last one does not end with a blank.
* `keysFrom_survives`, `keysFrom_perishes`: the keys are read back if and only if they survive.
* `reads_entry`: a drawn table whose keys survive is read as that table. -/
namespace KeyTables
set_option autoImplicit false
open Cursor

/-! ## Parts -/

def entryOpening (name : Text) : Text :=
  [' ', ' ', ' ', ' ', '['] ++ (name ++
    [']', ' ', '=', ' ', 'L', 'A', 'Y', 'O', 'U', 'T', '('])

namespace Drawing

/-- Everything in front of the key list. -/
def head (d : Drawing) (name newline : Text) : Text :=
  newline ++ (ended newline d.diagram ++ entryOpening name)

/-- Everything between the parentheses. -/
def list (d : Drawing) (newline : Text) : Text :=
  newline ++ (ended newline d.keyList ++ closingIndent)

/-- The text of the table up to its comma. -/
def body (d : Drawing) (name newline : Text) : Text :=
  d.head name newline ++ (d.list newline ++ [')', ','])

theorem entryText_eq (d : Drawing) (name newline : Text) :
    d.entryText name newline = d.body name newline ++ newline := by
  rw [entryText, intercalate_ended]
  simp [body, head, list, ended, entryOpening, closingIndent, List.replicate_succ]

end Drawing

/-! ## The head -/

theorem IsNewline.split {newline : Text} (h : IsNewline newline) :
    ∃ cr, newline = cr ++ ['\n'] ∧ '\n' ∉ cr := by
  rcases h with rfl | rfl
  · exact ⟨[], rfl, by decide⟩
  · exact ⟨['\r'], rfl, by decide⟩

theorem tokensFrom_commentLine (o : Nat) (l newline : Text) (rest : Bytes)
    (hn : IsNewline newline) (hl : CommentLine l) :
    ∃ t, isComment t = true ∧ tokensFrom o 0 (encode (l ++ newline) ++ rest) =
      t :: tokensFrom (o + (encode (l ++ newline)).length) 0 rest := by
  obtain ⟨⟨hline, -⟩, r, rfl⟩ := hl
  obtain ⟨cr, rfl, hcr⟩ := hn.split
  have hbody : '\n' ∉ r ++ cr := by
    simp only [List.mem_append, not_or]
    exact ⟨fun hmem => hline (by simp [hmem]), hcr⟩
  have hbytes : encode ('/' :: '/' :: r ++ (cr ++ ['\n'])) =
      0x2F :: 0x2F :: (encode (r ++ cr) ++ [0x0A]) := by
    rw [List.cons_append, List.cons_append, encode_cons_ascii '/' _ (by decide),
      encode_cons_ascii '/' _ (by decide), ← List.append_assoc, encode_append (r ++ cr)]
    rfl
  refine ⟨⟨.comment, o, 0x2F :: 0x2F :: encode (r ++ cr)⟩, rfl, ?_⟩
  rw [hbytes, List.cons_append, List.cons_append, List.append_assoc,
    tokensFrom_comment o _ _ (lineFeed_encode _ hbody) (by simp [isLineFeed]),
    List.singleton_append, tokensFrom_space _ 0x0A _ rfl]
  congr 2
  simp only [List.length_cons, List.length_append, List.length_nil]
  omega

theorem tokensFrom_commentLines (o : Nat) (ls : List Text) (newline : Text) (rest : Bytes)
    (hn : IsNewline newline) (hl : ∀ l ∈ ls, CommentLine l) :
    ∃ comments, (∀ t ∈ comments, isComment t = true) ∧
      tokensFrom o 0 (encode (ended newline ls) ++ rest) =
        comments ++ tokensFrom (o + (encode (ended newline ls)).length) 0 rest := by
  induction ls generalizing o with
  | nil => exact ⟨[], by simp, rfl⟩
  | cons l ls ih =>
    have hsplit : ended newline (l :: ls) = l ++ newline ++ ended newline ls := rfl
    obtain ⟨comments, hc, hts⟩ := ih (o + (encode (l ++ newline)).length)
      (fun x hx => hl x (List.mem_cons_of_mem l hx))
    obtain ⟨t, ht, hfirst⟩ := tokensFrom_commentLine o l newline
      (encode (ended newline ls) ++ rest) hn (hl l List.mem_cons_self)
    refine ⟨t :: comments, by simpa [ht] using hc, ?_⟩
    rw [hsplit, encode_append, List.append_assoc, hfirst, hts, List.length_append, Nat.add_assoc]
    rfl

theorem tokensFrom_layout (o : Nat) (rest : Bytes) :
    ∃ middle, middle.map Token.kind = [.rbracket, .equals, .layout, .lparen] ∧
      tokensFrom o 0 (0x5D :: 0x20 :: 0x3D :: 0x20 ::
        ([0x4C, 0x41, 0x59, 0x4F, 0x55, 0x54] ++ 0x28 :: rest)) =
      middle ++ tokensFrom (o + 11) 0 rest := by
  have hword : ∀ b ∈ ([0x4C, 0x41, 0x59, 0x4F, 0x55, 0x54] : Bytes), isWordByte b = true :=
    List.all_eq_true.mp (by decide)
  have hstop : ∀ b ∈ ((0x28 : UInt8) :: rest).head?, isWordByte b = false := by
    intro b hb
    obtain rfl := Option.mem_some.mp hb
    decide
  have hkind : wordKind [0x4C, 0x41, 0x59, 0x4F, 0x55, 0x54] = .layout := by decide +kernel
  refine ⟨[⟨.rbracket, o, [0x5D]⟩, ⟨.equals, o + 2, [0x3D]⟩,
    ⟨.layout, o + 4, [0x4C, 0x41, 0x59, 0x4F, 0x55, 0x54]⟩, ⟨.lparen, o + 10, [0x28]⟩], rfl, ?_⟩
  rw [tokensFrom_mark o _ .rbracket _ rfl, tokensFrom_space _ _ _ rfl,
    tokensFrom_mark _ _ .equals _ rfl, tokensFrom_space _ _ _ rfl,
    tokensFrom_word _ _ _ (by simp) hword hstop, hkind, tokensFrom_mark _ _ .lparen _ rfl]
  rfl

/-- The tokens of a table header, whatever follows. -/
theorem tokensFrom_opening (o : Nat) (name : Text) (rest : Bytes) (h : IdentText name)
    (ha : isAscii name = true) :
    ∃ first t middle, first.kind = .lbracket ∧ t.text = name ∧
      (t :: middle).map Token.kind = tableHeader ∧
      tokensFrom o 0 (encode (entryOpening name) ++ rest) =
        first :: t :: (middle ++ tokensFrom (o + (encode (entryOpening name)).length) 0 rest) := by
  have hleft : encode [' ', ' ', ' ', ' ', '['] = [0x20, 0x20, 0x20, 0x20, 0x5B] := by
    decide +kernel
  have hright : encode [']', ' ', '=', ' ', 'L', 'A', 'Y', 'O', 'U', 'T', '('] =
      0x5D :: 0x20 :: 0x3D :: 0x20 :: ([0x4C, 0x41, 0x59, 0x4F, 0x55, 0x54] ++ [0x28]) := by
    decide +kernel
  have hbytes : encode (entryOpening name) ++ rest = [0x20, 0x20, 0x20, 0x20] ++ 0x5B ::
      (encode name ++ (0x5D :: 0x20 :: 0x3D :: 0x20 ::
        ([0x4C, 0x41, 0x59, 0x4F, 0x55, 0x54] ++ 0x28 :: rest))) := by
    rw [entryOpening, encode_append, encode_append, hleft, hright]
    simp
  have hlen : (encode (entryOpening name)).length = (encode name).length + 16 := by
    rw [entryOpening, encode_append, encode_append, hleft, hright]
    simp only [List.length_append, List.length_cons, List.length_nil]
    omega
  obtain ⟨t, hkind, htext, hts⟩ := tokensFrom_identText (o + 4 + 1) name (0x5D :: 0x20 :: 0x3D ::
    0x20 :: ([0x4C, 0x41, 0x59, 0x4F, 0x55, 0x54] ++ 0x28 :: rest)) h ha (by
      intro b hb
      obtain rfl := Option.mem_some.mp hb
      decide)
  obtain ⟨middle, hmiddle, hlayout⟩ := tokensFrom_layout (o + 4 + 1 + (encode name).length) rest
  refine ⟨⟨.lbracket, o + 4, [0x5B]⟩, t, middle, rfl, htext, ?_, ?_⟩
  · rw [List.map_cons, hkind, hmiddle]
    rfl
  · have e : o + 4 + 1 + (encode name).length + 11 = o + ((encode name).length + 16) := by omega
    rw [hbytes, tokensFrom_spaces o _ _ (List.all_eq_true.mp (by decide)), hlen, ← e]
    rw [show ([0x20, 0x20, 0x20, 0x20] : Bytes).length = 4 from rfl,
      tokensFrom_mark _ _ .lbracket _ rfl, hts, hlayout]

/-- Everything in front of the key list is read as comments and a table header. -/
theorem tokensFrom_head (o : Nat) (d : Drawing) (name newline : Text) (rest : Bytes)
    (hn : IsNewline newline) (hd : ∀ l ∈ d.diagram, CommentLine l) (h : IdentText name)
    (ha : isAscii name = true) :
    ∃ comments first t middle, (∀ c ∈ comments, isComment c = true) ∧ first.kind = .lbracket ∧
      t.text = name ∧ (t :: middle).map Token.kind = tableHeader ∧
      tokensFrom o 0 (encode (d.head name newline) ++ rest) =
        comments ++ first :: t ::
          (middle ++ tokensFrom (o + (encode (d.head name newline)).length) 0 rest) := by
  obtain ⟨comments, hc, hcomments⟩ := tokensFrom_commentLines (o + (encode newline).length)
    d.diagram newline (encode (entryOpening name) ++ rest) hn hd
  obtain ⟨first, t, middle, h1, h2, h3, hopening⟩ := tokensFrom_opening
    (o + (encode newline).length + (encode (ended newline d.diagram)).length) name rest h ha
  refine ⟨comments, first, t, middle, hc, h1, h2, h3, ?_⟩
  rw [Drawing.head, encode_append, encode_append, List.append_assoc, List.append_assoc,
    tokensFrom_spaces o _ _ (isSpaceByte_encode newline hn.gap.1), hcomments, hopening]
  simp only [List.length_append, Nat.add_assoc]

/-! ## The key list -/

/-- Whether keys are read back after drawing. -/
def survives (keys : List Text) : Bool :=
  keys.all isLasting && !endsBlank keys

theorem keysFrom_survives (keys : List Text) (t : Text)
    (h : Listed (endsBlank keys) (visible keys) t) (hk : ∀ k ∈ keys, KeyText k)
    (hs : survives keys = true) (o : Nat) (after : Bytes) :
    keysFrom (tokensFrom o 0 (encode t ++ 0x29 :: after)) =
      some (keys, tokensFrom (o + (encode t).length) 0 (0x29 :: after)) := by
  rw [survives, Bool.and_eq_true, Bool.not_eq_true', List.all_eq_true] at hs
  rw [visible, hs.2, if_neg (by simp)] at h
  exact keysFrom_listed keys t h hk hs.1 o after

/-- Keys that do not survive are read back as other keys, if at all. -/
theorem keysFrom_perishes (keys : List Text) (t : Text)
    (h : Listed (endsBlank keys) (visible keys) t) (hk : ∀ k ∈ keys, KeyText k)
    (hs : survives keys = false) (o : Nat) (after : Bytes) (ks : List Text) (rest : List Token)
    (hread : keysFrom (tokensFrom o 0 (encode t ++ 0x29 :: after)) = some (ks, rest)) :
    ks ≠ keys := by
  by_cases hblank : endsBlank keys = true
  · rw [visible, if_pos hblank] at h
    obtain ⟨k, hlast, hkb⟩ := (Option.any_eq_true _ _).mp hblank
    obtain ⟨c, hc, hcb⟩ := (Option.any_eq_true _ _).mp hkb
    have hkeys : keys.dropLast ++ [k] = keys := by
      obtain ⟨init, rfl⟩ := List.getLast?_eq_some_iff.mp hlast
      rw [List.dropLast_concat]
    have hdrop : ∀ x ∈ keys.dropLast, KeyText x := fun x hx => hk x (List.dropLast_subset _ hx)
    by_cases hall : ∀ x ∈ keys.dropLast, isLasting x = true
    · -- the keys in front are read back, and the last one is missing
      rw [keysFrom_listed _ t h hdrop hall] at hread
      obtain ⟨rfl, -⟩ := Prod.mk.inj (Option.some.inj hread)
      intro he
      have hlen := congrArg List.length hkeys
      rw [he, List.length_append, List.length_singleton] at hlen
      omega
    · obtain ⟨x, hx, hxl⟩ : ∃ x ∈ keys.dropLast, isLasting x = false := by simpa using hall
      have hextra : ([k] : List Text).head? ≠ some [lost] := by
        intro he
        rw [List.head?_cons, Option.some.injEq] at he
        rw [he, List.getLast?_singleton, Option.some.injEq] at hc
        rw [← hc] at hcb
        exact absurd hcb (by decide)
      have hne := keysFrom_listed_ne _ t h hdrop 0 (Or.inr ⟨x, hx, hxl⟩) [k] hextra o after ks rest
        hread
      rwa [hkeys] at hne
  · rw [visible, if_neg hblank] at h
    have hall : keys.all isLasting = false := by
      rw [survives, Bool.eq_false_iff.mpr hblank] at hs
      simpa using hs
    obtain ⟨x, hx, hxl⟩ := List.all_eq_false.mp hall
    have hne := keysFrom_listed_ne _ t h hk 0 (Or.inr ⟨x, hx, by simpa using hxl⟩) [] (by simp) o
      after ks rest hread
    rwa [List.append_nil] at hne

/-! ## The whole entry -/

/-- A drawing that came from a table of this name with these keys. -/
structure Drawn (d : Drawing) (name : Text) (keys : List Text) (newline : Text) : Prop where
  breaks : IsNewline newline
  comments : ∀ l ∈ d.diagram, CommentLine l
  named : IdentText name ∧ isAscii name = true
  keyed : ∀ k ∈ keys, KeyText k
  listed : Listed (endsBlank keys) (visible keys) (d.list newline)

theorem drawn_of_draw (g : Grid) (lead newline name : Text) (keys : List Text) (d : Drawing)
    (hn : IsNewline newline) (hlead : ['/', '/'] <+: lead) (hline : '\n' ∉ lead)
    (hname : IdentText name ∧ isAscii name = true) (hk : ∀ k ∈ keys, KeyText k)
    (h : draw g keys lead = .ok d) : Drawn d name keys newline := by
  obtain ⟨hcount, -, hlist⟩ := draw_ok g keys lead d h
  have hlines : ∀ k ∈ keys, '\n' ∉ k :=
    fun k hmem hlf => not_lineFeed_of_ink _ ((hk k hmem).ink _ hlf) rfl
  exact ⟨hn, commentLine_draw g keys lead d hlead hline hlines h, hname, hk,
    listed_keyList g keys d.keyList _ newline hn hcount hk hlist⟩

theorem encode_entryEnd : encode [')', ','] = [0x29, 0x2C] := by
  decide +kernel

/-- A drawn table is not taken for the comma of the table in front of it. -/
theorem leadsComma_entry (d : Drawing) (name newline : Text) (keys : List Text) (gap rest : Text)
    (h : Drawn d name keys newline) (hgap : ∀ c ∈ gap, isGapChar c = true) :
    leadsComma (gap ++ (d.body name newline ++ rest)) = false := by
  obtain ⟨comments, first, t, middle, hc, hfirst, -, -, hts⟩ := tokensFrom_head
    (0 + (encode gap).length) d name newline (encode (d.list newline ++ [')', ',']) ++ encode rest)
    h.breaks h.comments h.named.1 h.named.2
  rw [leadsComma, encode_append, tokensFrom_spaces 0 _ _ (isSpaceByte_encode gap hgap),
    encode_append, Drawing.body, encode_append, List.append_assoc, hts,
    startsComma_comments comments _ hc, startsComma, isComment, hfirst]
  rfl

theorem tokensFrom_list (o : Nat) (d : Drawing) (name newline : Text) (keys : List Text)
    (h : Drawn d name keys newline) (hs : survives keys = true) :
    ∃ inner close, close.kind = .rparen ∧
      (∀ after, keysFrom (inner ++ close :: after) = some (keys, close :: after)) ∧
      tokensFrom o 0 (encode (d.list newline ++ [')', ','])) =
        inner ++ [close, ⟨.comma, o + (encode (d.list newline)).length + 1, [0x2C]⟩] := by
  have hkeys := keysFrom_survives keys _ h.listed h.keyed hs o []
  rw [tokensFrom_mark _ 0x29 .rparen [] rfl] at hkeys
  obtain ⟨inner, close, after, hts, hrest, hclose, hall⟩ := keysFrom_local _ _ _ hkeys
  obtain ⟨rfl, rfl⟩ := List.cons.inj hrest
  refine ⟨inner, _, hclose, hall, ?_⟩
  have hts' : tokensFrom o 0 (encode (d.list newline) ++ [0x29]) =
      inner ++ [⟨.rparen, o + (encode (d.list newline)).length, [0x29]⟩] := hts
  have hsealed : Sealed (encode (d.list newline) ++ [0x29]) := by
    refine sealed_of_last o _ ?_
    intro u hu
    rw [hts', List.getLast?_append, List.getLast?_singleton] at hu
    rw [← Option.mem_some.mp hu]
    exact Or.inl rfl
  have hbytes : encode (d.list newline ++ [')', ',']) =
      (encode (d.list newline) ++ [0x29]) ++ [0x2C] := by
    rw [encode_append, encode_entryEnd]
    simp
  rw [hbytes, hsealed, hts', tokensFrom_mark _ 0x2C .comma [] rfl, tokensFrom, List.length_append,
    List.length_singleton, ← Nat.add_assoc]
  simp

theorem reads_entry (d : Drawing) (name newline : Text) (keys : List Text) (gap : Text)
    (h : Drawn d name keys newline) (hs : survives keys = true)
    (hgap : ∀ c ∈ gap, isGapChar c = true) :
    Segment.Reads ⟨gap ++ d.body name newline, name, keys, true⟩ := by
  obtain ⟨comments, first, t, middle, hc, hfirst, htext, hheader, hts⟩ := tokensFrom_head
    (0 + (encode gap).length) d name newline (encode (d.list newline ++ [')', ',']))
    h.breaks h.comments h.named.1 h.named.2
  obtain ⟨inner, close, hclose, hall, hlist⟩ := tokensFrom_list
    (0 + (encode gap).length + (encode (d.head name newline)).length) d name newline keys h hs
  have htokens : tokensFrom 0 0 (encode (gap ++ d.body name newline)) =
      comments ++ (first :: t :: (middle ++ (inner ++ [close])) ++ ([] ++ [⟨.comma,
        0 + (encode gap).length + (encode (d.head name newline)).length +
          (encode (d.list newline)).length + 1, [0x2C]⟩])) := by
    rw [encode_append, tokensFrom_spaces 0 _ _ (isSpaceByte_encode gap hgap), Drawing.body,
      encode_append, hts, hlist]
    simp
  have hpiece := PieceTokens.comma comments (first :: t :: (middle ++ (inner ++ [close]))) [] first
    t close ⟨.comma, 0 + (encode gap).length + (encode (d.head name newline)).length +
      (encode (d.list newline)).length + 1, [0x2C]⟩ keys (isGap_comments comments hc)
    ⟨middle, inner, rfl, hfirst, hheader, hclose, hall⟩ (by simp) rfl
  rw [← htokens] at hpiece
  have hreads := reads_of_tokens _ 0 _ true hpiece (by
    rw [encode_append, Drawing.body, encode_append, encode_append, encode_entryEnd]
    simp only [List.length_append, List.length_cons, List.length_nil]
    omega)
  rwa [htext] at hreads

end KeyTables
