import KeyTables.Proofs.Drawing.Entry
import KeyTables.Proofs.Token.Code

/-! The tokens of a drawn table, without their places.

* `tableForms`: a table as it is written: its header, its keys with a comma between any two of them,
  a parenthesis and a comma.
* `forms_listed`: the tokens of a text that shows keys.
* `tokensFrom_body`: the tokens of a drawn table are comments, a table header and a key list.
* `forms_list`: its key list shows the keys, if none of them holds a comment.
* `tokensFrom_entry`: if the keys survive, it is the table that is written. -/
namespace KeyTables
set_option autoImplicit false
open Cursor

/-- What is written for a key. -/
def keyForms (k : Text) : List (Token.Kind × Text) :=
  forms (encode (shown k))

def commaForm : Token.Kind × Text :=
  (.comma, [','])

def closeForm : Token.Kind × Text :=
  (.rparen, [')'])

def headerForms (name : Text) : List (Token.Kind × Text) :=
  [(.lbracket, ['[']), (.ident, name), (.rbracket, [']']), (.equals, ['=']),
   (.layout, ['L', 'A', 'Y', 'O', 'U', 'T']), (.lparen, ['('])]

/-- A table of this name with these keys. Between any two keys stands one comma. -/
def tableForms (name : Text) (keys : List Text) : List (Token.Kind × Text) :=
  headerForms name ++ (List.intercalate [commaForm] (keys.map keyForms) ++ [closeForm, commaForm])

/-! ## Keys without comments -/

/-- No comment is written for the key. -/
def Uncommented (k : Text) : Prop :=
  ∀ f ∈ keyForms k, f.1 ≠ .comment

theorem hasSlashPair_iff (k : Text) :
    hasSlashPair k = true ↔ ∃ s t, k = s ++ '/' :: '/' :: t := by
  constructor
  · intro h
    fun_induction hasSlashPair k with
    | case1 => simp at h
    | case2 t => exact ⟨[], t, rfl⟩
    | case3 c t hne ih =>
      obtain ⟨s, u, rfl⟩ := ih h
      exact ⟨c :: s, u, rfl⟩
  · rintro ⟨s, t, rfl⟩
    refine Decidable.byContradiction (fun hno => ?_)
    have := hasSlashPair_right s _ (Bool.eq_false_iff.mpr hno)
    simp [hasSlashPair] at this

/-- Two slashes in a row come from two slashes in a row. -/
theorem hasSlashPair_of_within (k : Text) (h : [0x2F, 0x2F] <:+: encode k) :
    hasSlashPair k = true := by
  obtain ⟨a, r, hbytes⟩ := h
  rw [List.append_assoc] at hbytes
  obtain ⟨s, u, rfl, -, hu⟩ := encode_cut k a 0x2F (0x2F :: r) (by decide) hbytes.symm
  obtain ⟨v, t, rfl, hv, -⟩ := encode_cut u [] 0x2F r (by decide) hu
  obtain rfl : v = [] := encode_injective v [] hv
  exact (hasSlashPair_iff _).mpr ⟨s, t, rfl⟩

theorem comment_within (o : Nat) (d : Bytes) (t : Token) (ht : t ∈ tokensFrom o 0 d)
    (hc : t.kind = .comment) : [0x2F, 0x2F] <:+: d := by
  have hspelled := spelled_of_mem o d t ht
  obtain ⟨before, after, hts⟩ := List.append_of_mem ht
  obtain ⟨a, rest, rfl, -⟩ := tokensFrom_cut o d before after t hts
  have hstart : [0x2F, 0x2F] <+: t.lexeme := by
    rw [hc] at hspelled
    generalize t.lexeme = lexeme at hspelled
    generalize hk : Token.Kind.comment = kind at hspelled
    cases hspelled with
    | mark b kind hp =>
      have := mark_all (fun _ kind => kind != .comment) (by decide) b kind hp
      simp [← hk] at this
    | comment body => exact ⟨body, rfl⟩
    | word w hw hword => exact absurd hk.symm (wordKind_ne_comment _)
    | stray b hb => simp at hk
  exact hstart.isInfix.trans (List.infix_append a t.lexeme rest |>.trans (by simp))

theorem apart_shown (k : Text) (h : hasSlashPair k = false) :
    ¬ [0x2F, 0x2F] <:+: encode (shown k) := by
  intro hslashes
  have hshown : hasSlashPair (shown k) = false := by
    unfold shown
    split
    · decide
    · exact h
  rw [hasSlashPair_of_within _ hslashes] at hshown
  simp at hshown

theorem uncommented_of_pairless (k : Text) (h : hasSlashPair k = false) : Uncommented k := by
  intro f hf hc
  obtain ⟨t, ht, rfl⟩ := List.mem_map.mp hf
  exact apart_shown k h (comment_within 0 _ t ht hc)

theorem uncommented_of_lasting (k : Text) (h : isLasting k = true) : Uncommented k := by
  refine uncommented_of_pairless k ?_
  rw [isLasting, Bool.and_eq_true, Bool.not_eq_true'] at h
  exact h.2

/-! ## The key list -/

theorem forms_join (a rest : Bytes) (ha : ∀ f ∈ forms a, f.1 ≠ .comment)
    (hrest : ∀ x ∈ rest.head?, isWordByte x = false ∧ isSlash x = false) :
    forms (a ++ rest) = forms a ++ forms rest := by
  have hjoin := tokensFrom_join 0 a rest (fun t ht => ha _ (List.mem_map_of_mem ht)) hrest
  unfold forms
  rw [hjoin, List.map_append, map_form (0 + a.length)]
  rfl

theorem forms_listed (keys : List Text) (t : Text) (h : Listed false keys t)
    (hk : ∀ k ∈ keys, Uncommented k) (after : Bytes) :
    forms (encode t ++ 0x29 :: after) =
      List.intercalate [commaForm] (keys.map keyForms) ++ forms (0x29 :: after) := by
  induction h with
  | nil gap hgap hbreak => exact forms_spaces _ _ (isSpaceByte_encode gap hgap)
  | cons gap k sep t keys hgap hsep ht ih =>
    have hrest := ih (fun x hx => hk x (List.mem_cons_of_mem k hx))
    have happ : encode (gap ++ (shown k ++ (sep ++ t))) ++ 0x29 :: after =
        encode gap ++ (encode (shown k) ++ (encode (sep ++ t) ++ 0x29 :: after)) := by
      simp
    have hends := ends_of_listed sep t keys after hsep ht
    rw [happ, forms_spaces _ _ (isSpaceByte_encode gap hgap),
      forms_join _ _ (hk k List.mem_cons_self) hends.apart]
    rcases hsep with ⟨rfl, rfl⟩ | ⟨n, rfl, hmore⟩
    · rw [List.nil_append, hrest]
      simp [List.intercalate, keyForms]
    · have hcomma : encode (List.replicate n ' ' ++ [','] ++ t) ++ 0x29 :: after =
          encode (List.replicate n ' ') ++ 0x2C :: (encode t ++ 0x29 :: after) := by
        rw [List.append_assoc, encode_append, List.singleton_append,
          encode_cons_ascii ',' t (by decide), List.append_assoc]
        rfl
      rw [hcomma, forms_spaces _ _ (isSpaceByte_replicate n), forms_mark 0x2C .comma _ rfl, hrest]
      cases keys with
      | nil => simp at hmore
      | cons l keys =>
        simp only [List.map_cons, intercalate_cons_cons, List.append_assoc]
        rfl

/-! ## Headers -/

theorem forms_header (first name : Token) (middle : List Token)
    (hspelled : ∀ t ∈ first :: name :: middle, Token.Spelled t.kind t.lexeme)
    (hfirst : first.kind = .lbracket) (hheader : (name :: middle).map Token.kind = tableHeader) :
    (first :: name :: middle).map Token.form = headerForms name.text := by
  obtain ⟨hname, hmiddle⟩ := List.cons.inj hheader
  obtain ⟨a, m1, rfl, ha, h1⟩ := List.map_eq_cons_iff.mp hmiddle
  obtain ⟨b, m2, rfl, hb, h2⟩ := List.map_eq_cons_iff.mp h1
  obtain ⟨c, m3, rfl, hc, h3⟩ := List.map_eq_cons_iff.mp h2
  obtain ⟨d, m4, rfl, hd, h4⟩ := List.map_eq_cons_iff.mp h3
  obtain rfl := List.map_eq_nil_iff.mp h4
  simp only [List.forall_mem_cons] at hspelled
  obtain ⟨s1, -, s3, s4, s5, s6, -⟩ := hspelled
  have t1 := text_of_mark first 0x5B s1 (by rw [hfirst]; decide)
  have t3 := text_of_mark a 0x5D s3 (by rw [ha]; decide)
  have t4 := text_of_mark b 0x3D s4 (by rw [hb]; decide)
  have t5 := text_of_layout c s5 hc
  have t6 := text_of_mark d 0x28 s6 (by rw [hd]; decide)
  simp only [List.map_cons, List.map_nil, Token.form, hfirst, hname, ha, hb, hc, hd, t1, t3, t4, t5,
    t6]
  rfl

/-! ## The whole table -/

/-- The key list ends on a line of its own, so nothing joins its last token. -/
theorem sealed_list (d : Drawing) (newline : Text) (hn : IsNewline newline) :
    Sealed (encode (d.list newline)) := by
  obtain ⟨cr, hcr, -⟩ := hn.split
  obtain ⟨lines, hlines⟩ : ∃ lines, newline ++ ended newline d.keyList = lines ++ ['\n'] := by
    rcases List.eq_nil_or_concat d.keyList with hnil | ⟨ls, l, hconcat⟩
    · exact ⟨cr, by rw [hnil, ← hcr]; simp [ended]⟩
    · have hline : l ++ newline = l ++ cr ++ ['\n'] := by rw [hcr, List.append_assoc]
      refine ⟨newline ++ (ended newline ls ++ (l ++ cr)), ?_⟩
      rw [hconcat, List.concat_eq_append, ended_concat, hline]
      simp
  have hlist : encode (d.list newline) = (encode lines ++ [0x0A]) ++ encode closingIndent := by
    rw [Drawing.list, ← List.append_assoc, hlines, encode_append, encode_append]
    rfl
  rw [hlist]
  exact (sealed_lineFeed _).append (sealed_spaces _ (isSpaceByte_encode _ isGapChar_closing))

section
variable (d : Drawing) (name newline : Text) (keys : List Text) (h : Drawn d name keys newline)
include h

/-- A drawn table is comments, a table header, and what stands from the parenthesis on. -/
theorem tokensFrom_body (o : Nat) : ∃ comments first t middle,
    (∀ c ∈ comments, isComment c = true) ∧ first.kind = .lbracket ∧ t.text = name ∧
      (t :: middle).map Token.kind = tableHeader ∧
      (first :: t :: middle).map Token.form = headerForms name ∧
      tokensFrom o 0 (encode (d.body name newline)) = comments ++ first :: t ::
        (middle ++ tokensFrom (o + (encode (d.head name newline)).length) 0
          (encode (d.list newline ++ [')', ',']))) := by
  obtain ⟨comments, first, t, middle, hc, hfirst, htext, hheader, hts⟩ := tokensFrom_head o d name
    newline (encode (d.list newline ++ [')', ','])) h.breaks h.comments h.named.1 h.named.2
  rw [← encode_append] at hts
  have hspelled : ∀ x ∈ first :: t :: middle, Token.Spelled x.kind x.lexeme := by
    intro x hx
    apply spelled_of_mem o (encode (d.head name newline ++ (d.list newline ++ [')', ','])))
    rw [hts]
    simp only [List.mem_append, List.mem_cons] at hx ⊢
    grind
  have hforms := forms_header first t middle hspelled hfirst hheader
  rw [htext] at hforms
  exact ⟨comments, first, t, middle, hc, hfirst, htext, hheader, hforms, hts⟩

theorem tokensFrom_listEnd (o : Nat) : tokensFrom o 0 (encode (d.list newline ++ [')', ','])) =
    tokensFrom o 0 (encode (d.list newline)) ++
      [⟨.rparen, o + (encode (d.list newline)).length, [0x29]⟩,
       ⟨.comma, o + (encode (d.list newline)).length + 1, [0x2C]⟩] := by
  rw [encode_append, encode_entryEnd, sealed_list d newline h.breaks,
    tokensFrom_mark _ 0x29 .rparen _ rfl, tokensFrom_mark _ 0x2C .comma _ rfl]
  rfl

theorem forms_listEnd : forms (encode (d.list newline ++ [')', ','])) =
    forms (encode (d.list newline)) ++ [closeForm, commaForm] := by
  unfold forms
  rw [tokensFrom_listEnd d name newline keys h, List.map_append]
  rfl

/-- The comma is the last token. -/
theorem sealed_body : Sealed (encode (d.body name newline)) := by
  obtain ⟨comments, first, t, middle, -, -, -, -, -, hbody⟩ :=
    tokensFrom_body d name newline keys h 0
  refine sealed_of_last 0 _ ?_
  intro u hu
  rw [hbody, tokensFrom_listEnd d name newline keys h] at hu
  refine Or.inl ?_
  simp only [List.getLast?_append, List.getLast?_cons, Option.mem_def] at hu
  obtain rfl := Option.some.inj hu
  rfl

theorem sealed_entryText : Sealed (encode (d.entryText name newline)) := by
  rw [Drawing.entryText_eq, encode_append]
  exact (sealed_body d name newline keys h).append
    (sealed_spaces _ (isSpaceByte_encode newline h.breaks.gap.1))

theorem forms_list (hb : endsBlank keys = false) (hk : ∀ k ∈ keys, Uncommented k) :
    forms (encode (d.list newline)) = List.intercalate [commaForm] (keys.map keyForms) := by
  have hlisted := h.listed
  rw [visible, hb, if_neg (by simp)] at hlisted
  have hforms := forms_listed keys _ hlisted hk []
  rw [(sealed_list d newline h.breaks).forms] at hforms
  exact List.append_cancel_right hforms

/-- The text of a drawn table whose keys survive is, behind comments, the table that is written. -/
theorem tokensFrom_entry (hs : survives keys = true) : ∃ comments body first t close comma,
    (∀ c ∈ comments, isComment c = true) ∧ TableTokens body first t close keys ∧ t.text = name ∧
      comma.kind = .comma ∧ comma.stop = comma.offset + 1 ∧
      (body ++ [comma]).map Token.form = tableForms name keys ∧
      tokensFrom 0 0 (encode (d.entryText name newline)) = comments ++ (body ++ [comma]) := by
  obtain ⟨comments, first, t, middle, hc, hfirst, htext, hheader, hforms, hbody⟩ :=
    tokensFrom_body d name newline keys h 0
  obtain ⟨inner, close, hclose, hall, hlist⟩ := tokensFrom_list
    (0 + (encode (d.head name newline)).length) d name newline keys h hs
  obtain ⟨hlasting, hends⟩ : (∀ k ∈ keys, isLasting k = true) ∧ endsBlank keys = false := by
    simpa [survives] using hs
  have hlistForms := forms_listEnd d name newline keys h
  rw [forms_list d name newline keys h hends (fun k hk => uncommented_of_lasting k (hlasting k hk)),
    ← map_form (0 + (encode (d.head name newline)).length), hlist] at hlistForms
  generalize hcomma : Token.mk .comma (0 + (encode (d.head name newline)).length +
    (encode (d.list newline)).length + 1) [0x2C] = comma at hlist hlistForms
  have hkind : comma.kind = .comma := by rw [← hcomma]
  have hspaces : ∀ o, tokensFrom o 0 (encode newline) = [] := by
    intro o
    have := tokensFrom_spaces o (encode newline) [] (isSpaceByte_encode newline h.breaks.gap.1)
    rwa [List.append_nil] at this
  refine ⟨comments, first :: t :: (middle ++ (inner ++ [close])), first, t, close, comma, hc,
    ⟨middle, inner, rfl, hfirst, hheader, hclose, hall⟩, htext, hkind, by rw [← hcomma]; rfl, ?_, ?_⟩
  · rw [tableForms, ← hforms, ← hlistForms]
    simp
  · rw [Drawing.entryText_eq, encode_append, sealed_body d name newline keys h, hspaces,
      List.append_nil, hbody, hlist]
    simp

end

end KeyTables
