import KeyTables.Proofs.Token.Uncommented

/-! The code of a source: its tokens without their places, comments and commas left out, and without
the lengths of placeholders.

* `Token.form`: a token without its place.
* `forms`: the tokens of some bytes without their places.
* `codeOf`: the code of a source.
* `weight_codeOf`: how often characters of a class stand in the code. -/
namespace KeyTables
set_option autoImplicit false

/-! ## Forms -/

/-- A token without its place. -/
def Token.form (t : Token) : Token.Kind × Text :=
  (t.kind, t.text)

def forms (d : Bytes) : List (Token.Kind × Text) :=
  (tokensFrom 0 0 d).map Token.form

theorem map_form (o : Nat) (d : Bytes) : (tokensFrom o 0 d).map Token.form = forms d := by
  rw [tokensFrom_relocate 0 o, List.map_map]
  rfl

theorem map_kind (o : Nat) (d : Bytes) :
    (tokensFrom o 0 d).map Token.kind = (forms d).map Prod.fst := by
  rw [← map_form o, List.map_map]
  rfl

theorem Sealed.forms {a : Bytes} (h : Sealed a) (b : Bytes) :
    KeyTables.forms (a ++ b) = KeyTables.forms a ++ KeyTables.forms b := by
  unfold KeyTables.forms
  rw [h, List.map_append, map_form (0 + a.length)]
  rfl

theorem forms_spaces (ws rest : Bytes) (h : ∀ b ∈ ws, isSpaceByte b = true) :
    forms (ws ++ rest) = forms rest := by
  unfold forms
  rw [tokensFrom_spaces 0 ws rest h, map_form]
  rfl

theorem forms_mark (b : UInt8) (kind : Token.Kind) (rest : Bytes) (h : punctuation? b = some kind) :
    forms (b :: rest) = (kind, [lossyChar b]) :: forms rest := by
  unfold forms
  rw [tokensFrom_mark 0 b kind rest h, List.map_cons, map_form, Token.form, Token.text,
    decodeLossy_singleton]
  rfl

/-! ## Texts of kinds -/

theorem text_of_mark (t : Token) (b : UInt8) (h : Token.Spelled t.kind t.lexeme)
    (hb : (b, t.kind) ∈ marks) : t.text = [lossyChar b] := by
  have hall : ∀ m ∈ marks, m.2.isMark = true := by decide
  have hunique : ∀ m ∈ marks, ∀ m' ∈ marks, m.2 = m'.2 → m.1 = m'.1 := by decide
  obtain ⟨x, hx, hp⟩ := lexeme_of_mark _ _ h (hall _ hb)
  obtain rfl : x = b := hunique _ (punctuation_mem x _ hp) _ hb rfl
  rw [Token.text, hx, decodeLossy_singleton]

theorem lookup_reserved (w : Bytes) (kind : Token.Kind) (h : reservedWords.lookup w = some kind) :
    (w, kind) ∈ reservedWords := by
  simp only [reservedWords, List.lookup_cons, List.lookup_nil] at h ⊢
  split at h
  · next he =>
    rw [eq_of_beq he, Option.some.inj h]
    exact List.mem_cons_self
  · split at h
    · next he =>
      rw [eq_of_beq he, Option.some.inj h]
      exact List.mem_cons_of_mem _ List.mem_cons_self
    · split at h
      · next he =>
        rw [eq_of_beq he, Option.some.inj h]
        exact List.mem_cons_of_mem _ (List.mem_cons_of_mem _ List.mem_cons_self)
      · simp at h

theorem wordKind_ne_eof (w : Bytes) : wordKind w ≠ .eof := by
  have hall : ∀ r ∈ reservedWords, r.2 ≠ .eof := by decide
  unfold wordKind
  split
  · next kind hk => exact hall _ (lookup_reserved w kind hk)
  · split <;> simp

theorem spelled_ne_eof (kind : Token.Kind) (lexeme : Bytes) (h : Token.Spelled kind lexeme) :
    kind ≠ .eof := by
  cases h with
  | mark b kind hp => simpa using mark_all (fun _ kind => kind != .eof) (by decide) b kind hp
  | comment body => simp
  | word w hw hword => exact wordKind_ne_eof lexeme
  | stray b hb => simp

theorem lexeme_of_blank (lexeme : Bytes) (h : Token.Spelled .blank lexeme) :
    ∀ b ∈ lexeme, b = 0x5F := by
  generalize hk : Token.Kind.blank = kind at h
  cases h with
  | mark b kind hp =>
    have := mark_all (fun _ kind => kind != .blank) (by decide) b kind hp
    simp [← hk] at this
  | comment body => simp at hk
  | word w hw hword =>
    have hall : ∀ r ∈ reservedWords, r.2 ≠ .blank := by decide
    unfold wordKind at hk
    split at hk
    · next kind hr => exact absurd hk.symm (hall _ (lookup_reserved lexeme kind hr))
    · split at hk
      · next hu => simpa using hu
      · simp at hk
  | stray b hb => simp at hk

theorem text_of_layout (t : Token) (h : Token.Spelled t.kind t.lexeme) (hk : t.kind = .layout) :
    t.text = ['L', 'A', 'Y', 'O', 'U', 'T'] := by
  have htext := Token.Spelled.text_eq t h (by rw [hk]; simp)
  rw [hk] at h
  suffices hlex : t.lexeme = encode ['L', 'A', 'Y', 'O', 'U', 'T'] by
    rw [htext, hlex]
    decide +kernel
  generalize t.lexeme = lexeme at h
  generalize hkind : Token.Kind.layout = kind at h
  cases h with
  | mark b kind hp =>
    have := mark_all (fun _ kind => kind != .layout) (by decide) b kind hp
    simp [← hkind] at this
  | comment body => simp at hkind
  | word w hw hword =>
    have hall : ∀ r ∈ reservedWords, r.2 = .layout → r.1 = encode ['L', 'A', 'Y', 'O', 'U', 'T'] := by
      decide +kernel
    unfold wordKind at hkind
    split at hkind
    · next kind hr => exact hall _ (lookup_reserved lexeme kind hr) hkind.symm
    · split at hkind <;> simp at hkind
  | stray b hb => simp at hkind

/-! ## Code -/

/-- Comments and commas are no code, and all placeholders are the same. -/
def code? (f : Token.Kind × Text) : Option (Token.Kind × Text) :=
  match f.1 with
  | .comment => none
  | .comma => none
  | .eof => none
  | .blank => some (.blank, [])
  | _ => some f

theorem kind_of_code (f f' : Token.Kind × Text) (h : code? f = some f') : f'.1 = f.1 := by
  unfold code? at h
  split at h
  · simp at h
  · simp at h
  · simp at h
  · next hk => rw [← Option.some.inj h, hk]
  · rw [Option.some.inj h]

/-- Tokens that are no code. -/
theorem code_nothing (ts : List Token) (h : ∀ t ∈ ts, t.kind = .comment ∨ t.kind = .comma) :
    (ts.map Token.form).filterMap code? = [] := by
  rw [List.filterMap_eq_nil_iff]
  intro f hf
  obtain ⟨t, ht, rfl⟩ := List.mem_map.mp hf
  unfold code? Token.form
  obtain hk | hk := h t ht
  · rw [hk]
  · rw [hk]

def codeOf (source : Bytes) : List (Token.Kind × Text) :=
  ((tokens source).map Token.form).filterMap code?

theorem codeOf_eq (d : Bytes) : codeOf d = (forms d).filterMap code? := by
  unfold codeOf tokens
  rw [List.map_append, List.filterMap_append]
  exact List.append_nil _

theorem codeOf_sealed (a b : Bytes) (h : Sealed a) : codeOf (a ++ b) = codeOf a ++ codeOf b := by
  rw [codeOf_eq, codeOf_eq, codeOf_eq, h.forms, List.filterMap_append]

/-- Code can be cut in front of every token. -/
theorem codeOf_cut (a b : Bytes) (before after : List Token) (t : Token)
    (h : tokensFrom 0 0 (a ++ b) = before ++ t :: after) (ht : t.offset = a.length) :
    codeOf (a ++ b) = codeOf a ++ codeOf b := by
  obtain ⟨a', rest, hfront, hlen, hbefore⟩ := tokensFrom_front 0 _ before after t h
  obtain ⟨rfl, -⟩ := List.append_inj hfront (by omega)
  obtain ⟨a', rest', hcut, hlen', -, hafter, -⟩ := tokensFrom_cut 0 _ before after t h
  obtain ⟨-, rfl⟩ := List.append_inj hcut (by omega)
  have hforms : forms (a ++ (t.lexeme ++ rest')) = forms a ++ forms (t.lexeme ++ rest') := by
    rw [← map_form t.offset (t.lexeme ++ rest'), hafter, forms, forms, h, hbefore, List.map_append]
  rw [codeOf_eq, codeOf_eq, codeOf_eq, hforms, List.filterMap_append]

theorem codeOf_spaces (ws : Bytes) (h : ∀ b ∈ ws, isSpaceByte b = true) : codeOf ws = [] := by
  have hforms := forms_spaces ws [] h
  rw [List.append_nil] at hforms
  rw [codeOf_eq, hforms]
  rfl

/-! ## Weights -/

/-- A class of characters that holds no space, no comma and no underscore, so that what is left out
of the code makes no difference. -/
def Telling (p : Char → Bool) : Prop :=
  ∀ c ∈ [' ', '\t', '\n', '\r', ',', '_'], p c = false

theorem telling_char (c : Char) (h : c ∉ [' ', '\t', '\n', '\r', ',', '_']) : Telling (· == c) := by
  intro x hx
  refine beq_eq_false_iff_ne.mpr (fun he => h ?_)
  rwa [he] at hx

/-- How often characters of a class stand in the texts. -/
def weight (p : Char → Bool) (fs : List (Token.Kind × Text)) : Nat :=
  (fs.flatMap Prod.snd).countP p

theorem weight_cons (p : Char → Bool) (f : Token.Kind × Text) (fs : List (Token.Kind × Text)) :
    weight p (f :: fs) = f.2.countP p + weight p fs := by
  rw [weight, List.flatMap_cons, List.countP_append]
  rfl

theorem weight_append (p : Char → Bool) (fs gs : List (Token.Kind × Text)) :
    weight p (fs ++ gs) = weight p fs + weight p gs := by
  rw [weight, List.flatMap_append, List.countP_append]
  rfl

theorem countP_eq_zero {α : Type} (p : α → Bool) (l : List α) (h : ∀ a ∈ l, p a = false) :
    l.countP p = 0 :=
  List.countP_eq_zero.mpr (fun a ha => by rw [h a ha]; simp)

/-- The characters of the tokens that are no comments. -/
def inkText (ts : List Token) : Text :=
  (inked ts).map lossyChar

theorem inkText_cons (t : Token) (ts : List Token) (h : Token.Spelled t.kind t.lexeme) :
    inkText (t :: ts) = (if t.kind = .comment then [] else t.text) ++ inkText ts := by
  unfold inkText inked
  rw [List.flatMap_cons, List.map_append]
  congr 1
  by_cases hc : t.kind = .comment
  · rw [if_pos hc, if_pos hc]
    rfl
  · rw [if_neg hc, if_neg hc, Token.Spelled.text_eq t h hc]

theorem inkText_append (ts us : List Token) : inkText (ts ++ us) = inkText ts ++ inkText us := by
  unfold inkText inked
  rw [List.flatMap_append, List.map_append]

theorem inkText_singleton (t : Token) (h : Token.Spelled t.kind t.lexeme) (hc : t.kind ≠ .comment) :
    inkText [t] = t.text := by
  rw [inkText_cons t [] h, if_neg hc]
  exact List.append_nil _

theorem weight_code (p : Char → Bool) (hp : Telling p) (ts : List Token)
    (hts : ∀ t ∈ ts, Token.Spelled t.kind t.lexeme) :
    weight p ((ts.map Token.form).filterMap code?) = (inkText ts).countP p := by
  induction ts with
  | nil => rfl
  | cons t ts ih =>
    have ht := hts t List.mem_cons_self
    have hrest := ih (fun x hx => hts x (List.mem_cons_of_mem t hx))
    rw [inkText_cons t ts ht, List.map_cons, List.filterMap_cons, List.countP_append, ← hrest]
    by_cases hcomment : t.kind = .comment
    · rw [code?, Token.form, hcomment, if_pos rfl]
      exact (Nat.zero_add _).symm
    rw [if_neg hcomment]
    by_cases hcomma : t.kind = .comma
    · have htext := text_of_mark t 0x2C ht (by rw [hcomma]; decide)
      rw [code?, Token.form, hcomma, htext, countP_eq_zero p _ ?_]
      · exact (Nat.zero_add _).symm
      · intro c hc
        rw [List.mem_singleton.mp hc]
        exact hp _ (by decide)
    by_cases hblank : t.kind = .blank
    · have htext := Token.Spelled.text_eq t ht hcomment
      rw [hblank] at ht
      rw [code?, Token.form, hblank, htext, countP_eq_zero p _ ?_]
      · exact weight_cons p _ _
      · intro c hc
        obtain ⟨b, hb, rfl⟩ := List.mem_map.mp hc
        rw [lexeme_of_blank _ ht b hb]
        exact hp _ (by decide)
    · have heof := spelled_ne_eof _ _ ht
      have hcode : code? t.form = some t.form := by
        unfold code? Token.form
        split <;> simp_all
      rw [hcode, weight_cons]
      rfl

theorem Telling.space {p : Char → Bool} (hp : Telling p) (b : UInt8)
    (h : isSpaceByte b = true) : p (lossyChar b) = false := by
  simp only [isSpaceByte, Bool.or_eq_true, beq_iff_eq] at h
  obtain ((rfl | rfl) | rfl) | rfl := h
  · exact hp _ (by decide)
  · exact hp _ (by decide)
  · exact hp _ (by decide)
  · exact hp _ (by decide)

theorem weight_codeOf (p : Char → Bool) (hp : Telling p) (d : Bytes) :
    weight p (codeOf d) = ((uncommented false d).map lossyChar).countP p := by
  have hcode := weight_code p hp (tokensFrom 0 0 d) (spelled_of_mem 0 d)
  have hforms : (tokensFrom 0 0 d).map Token.form = forms d := rfl
  rw [codeOf_eq, ← hforms, hcode, inkText, inked_tokensFrom, List.countP_map, List.countP_map,
    List.countP_filter]
  congr 1
  funext b
  cases hb : isSpaceByte b with
  | false => simp
  | true => simp [hp.space b hb]

end KeyTables
