import KeyTables.Proofs.Drawing.Forms

/-! Drawn tables of keys in canonical form are read back.

* `isCanonicalKey`: a key in ASCII without blanks and comments, which is empty, an identifier, or an
  identifier with arguments up to its last parenthesis.
* `keyText_of_canonical`, `isLasting_of_canonical`: such a key looks like one that was read, and it
  lasts.
* `survives_of_canonical`: all keys of a table that are canonical survive. -/
namespace KeyTables
set_option autoImplicit false
open Cursor

/-! ## Canonical form -/

/-- With `depth` parentheses open, the last token is the one that closes the outermost of them. -/
def closesLast : (depth : Nat) → List Token.Kind → Bool
  | _, [] => false
  | depth, .lparen :: kinds => closesLast (depth + 1) kinds
  | depth, .rparen :: kinds => if depth = 1 then kinds.isEmpty else closesLast (depth - 1) kinds
  | depth, _ :: kinds => closesLast depth kinds

/-- An identifier, or one directly followed by a parenthesis that the last token closes. -/
def isKeyShape : List Token.Kind → Bool
  | [.ident] => true
  | .ident :: .lparen :: kinds => closesLast 1 kinds
  | _ => false

/-- A text in ASCII that has no blanks. -/
def isSolid (t : Text) : Bool :=
  isAscii t && t.all fun c => !isBlank c

def isCanonicalKey (k : Text) : Bool :=
  k.isEmpty || (isSolid k && isKeyShape ((forms (encode k)).map Prod.fst) &&
    (forms (encode k)).all fun f => f.1 != .comment)

def isCanonicalName (name : Text) : Bool :=
  isSolid name && (forms (encode name)).map Prod.fst == [.ident]

/-! ## Solid texts -/

theorem isSpaceByte_solid (t : Text) (h : isSolid t = true) :
    ∀ b ∈ encode t, isSpaceByte b = false := by
  obtain ⟨ha, hb⟩ := Bool.and_eq_true_iff.mp h
  intro b hmem
  obtain ⟨c, hc, hbc⟩ := List.mem_flatMap.mp hmem
  have hlow : c.toNat < 0x80 := by simpa using List.all_eq_true.mp ha c hc
  have hblank : isBlank c = false := by simpa using List.all_eq_true.mp hb c hc
  rw [utf8EncodeChar_ascii c hlow, List.mem_singleton] at hbc
  refine Bool.eq_false_iff.mpr (fun hs => ?_)
  have hspaces : ∀ x : UInt8, isSpaceByte x = true → isBlank (lossyChar x) = true := by
    intro x hx
    simp only [isSpaceByte, Bool.or_eq_true, beq_iff_eq] at hx
    obtain ((rfl | rfl) | rfl) | rfl := hx <;> decide
  have hbad := hspaces b hs
  rw [hbc, lossyChar_ofNat c hlow, hblank] at hbad
  simp at hbad

/-- The tokens of a solid text without comments cover it. -/
theorem inkText_solid (o : Nat) (t : Text) (h : isSolid t = true)
    (hc : ∀ f ∈ forms (encode t), f.1 ≠ .comment) :
    inkText (tokensFrom o 0 (encode t)) = t := by
  have hnone : ∀ x ∈ tokensFrom 0 0 (encode t), x.kind ≠ .comment :=
    fun x hx => hc _ (List.mem_map_of_mem hx)
  have hspaces := isSpaceByte_solid t h
  rw [inkText, inked_tokensFrom, uncommented_eq_self 0 _ hnone,
    List.filter_eq_self.mpr (fun b hb => by rw [hspaces b hb]; rfl),
    map_lossyChar_encode t (Bool.and_eq_true_iff.mp h).1]

theorem pairless_of_uncommented (t : Text) (hc : ∀ f ∈ forms (encode t), f.1 ≠ .comment) :
    hasSlashPair t = false := by
  refine Bool.eq_false_iff.mpr (fun hpair => ?_)
  obtain ⟨s, r, rfl⟩ := (hasSlashPair_iff t).mp hpair
  have hself := uncommented_eq_self 0 _ (fun x hx => hc _ (List.mem_map_of_mem hx))
  have hlt := countP_uncommented_lt isSlash false (encode s) [] (encode r) (by simp)
    ⟨0x2F, by simp, rfl⟩
  have hbytes : encode (s ++ '/' :: '/' :: r) = encode s ++ (0x2F :: 0x2F :: [] ++ encode r) := by
    rw [encode_append, encode_cons_ascii '/' _ (by decide), encode_cons_ascii '/' _ (by decide)]
    rfl
  rw [← hbytes, hself] at hlt
  omega

/-! ## Arguments -/

theorem kind_cases (kind : Token.Kind) (kinds : List Token.Kind) (depth : Nat)
    (h : closesLast depth (kind :: kinds) = true) :
    kind = .lparen ∧ closesLast (depth + 1) kinds = true ∨
    kind = .rparen ∧ (depth = 1 ∧ kinds = [] ∨ depth ≠ 1 ∧ closesLast (depth - 1) kinds = true) ∨
    kind ≠ .lparen ∧ kind ≠ .rparen ∧ closesLast depth kinds = true := by
  unfold closesLast at h
  split at h
  · simp at *
  · next he =>
    obtain ⟨rfl, rfl⟩ := List.cons.inj he
    exact Or.inl ⟨rfl, h⟩
  · next he =>
    obtain ⟨rfl, rfl⟩ := List.cons.inj he
    refine Or.inr (Or.inl ⟨rfl, ?_⟩)
    split at h
    · next hd => exact Or.inl ⟨hd, List.isEmpty_iff.mp h⟩
    · next hd => exact Or.inr ⟨hd, h⟩
  · next x xs hl hr he =>
    obtain ⟨rfl, rfl⟩ := List.cons.inj he
    exact Or.inr (Or.inr ⟨hl, hr, h⟩)

/-- Arguments that end with their last parenthesis are read up to there. -/
theorem compoundFrom_closesLast (depth : Nat) (ts : List Token)
    (hts : ∀ t ∈ ts, Token.Spelled t.kind t.lexeme) (hc : ∀ t ∈ ts, t.kind ≠ .comment)
    (hdepth : 0 < depth) (h : closesLast depth (ts.map Token.kind) = true) :
    ∃ rest, compoundFrom depth ts = some (inkText ts, rest) := by
  induction ts generalizing depth with
  | nil => simp [closesLast] at h
  | cons t ts ih =>
    have hcomment := hc t List.mem_cons_self
    have htail := fun depth' => ih depth' (fun x hx => hts x (List.mem_cons_of_mem t hx))
      (fun x hx => hc x (List.mem_cons_of_mem t hx))
    have hink : inkText (t :: ts) = t.text ++ inkText ts := by
      rw [inkText_cons t ts (hts t List.mem_cons_self), if_neg hcomment]
    obtain ⟨hl, hrest⟩ | ⟨hr, ⟨hd, hnil⟩ | ⟨hd, hrest⟩⟩ | ⟨hl, hr, hrest⟩ :=
      kind_cases t.kind _ depth h
    · obtain ⟨rest, hih⟩ := htail (depth + 1) (by omega) hrest
      refine ⟨rest, ?_⟩
      rw [compoundFrom_step _ t ts hcomment (by rw [hl]; simp), hl, hink]
      rw [show (depth : Int) + parenStep .lparen = ((depth + 1 : Nat) : Int) from rfl, hih]
      rfl
    · obtain rfl := List.map_eq_nil_iff.mp hnil
      subst hd
      refine ⟨[t], ?_⟩
      rw [compoundFrom_close _ t [] ⟨hr, by rw [hr]; rfl⟩,
        inkText_singleton t (hts t List.mem_cons_self) hcomment]
    · obtain ⟨rest, hih⟩ := htail (depth - 1) (by omega) hrest
      have hstep : (depth : Int) + parenStep .rparen = ((depth - 1 : Nat) : Int) := by
        simp only [parenStep]
        omega
      refine ⟨rest, ?_⟩
      rw [compoundFrom_step _ t ts hcomment (by
        rw [hr, hstep]
        intro hzero
        have := hzero.2
        omega), hr, hstep, hih, hink]
      rfl
    · have hstep : parenStep t.kind = 0 := by
        unfold parenStep
        split <;> simp_all
      obtain ⟨rest, hih⟩ := htail depth hdepth hrest
      refine ⟨rest, ?_⟩
      rw [compoundFrom_step _ t ts hcomment (fun hx => hr hx.1), hstep, Int.add_zero, hih, hink]
      rfl

theorem keyText_of_arguments (t u : Token) (us : List Token)
    (hts : ∀ x ∈ t :: u :: us, Token.Spelled x.kind x.lexeme)
    (hc : ∀ x ∈ t :: u :: us, x.kind ≠ .comment) (ht : t.kind = .ident) (hu : u.kind = .lparen)
    (h : closesLast 1 (us.map Token.kind) = true) : KeyText (inkText (t :: u :: us)) := by
  obtain ⟨hspelledt, hspelled⟩ := List.forall_mem_cons.mp hts
  obtain ⟨hspelledu, hspelledus⟩ := List.forall_mem_cons.mp hspelled
  obtain ⟨hct, hcu, hcus⟩ : t.kind ≠ .comment ∧ u.kind ≠ .comment ∧ ∀ x ∈ us, x.kind ≠ .comment := by
    simpa using hc
  obtain ⟨rest, hread⟩ := compoundFrom_closesLast 1 us hspelledus hcus (by omega) h
  have hall : compoundFrom 0 (u :: us) = some (inkText (u :: us), rest) := by
    rw [compoundFrom_step 0 u us hcu (by rw [hu]; simp), hu, inkText_cons u us hspelledu,
      if_neg hcu]
    rw [show (0 : Int) + parenStep .lparen = ((1 : Nat) : Int) from rfl, hread]
    rfl
  obtain ⟨hcloses, hink⟩ := closes_of_compoundFrom 0 _ _ _ hspelled hall
  obtain ⟨body, hbody⟩ := compoundFrom_lparen u us _ rest hspelledu hu hall
  rw [hbody] at hcloses hink
  rw [inkText_cons t _ hspelledt, if_neg hct, hbody]
  exact .compound _ body (identText_of_spelled t hspelledt ht)
    (fun c hmem => hink c (List.mem_cons_of_mem _ hmem)) hcloses

/-! ## Canonical keys -/

theorem keyText_of_canonical (k : Text) (h : isCanonicalKey k = true) : KeyText k := by
  unfold isCanonicalKey at h
  simp only [Bool.or_eq_true, Bool.and_eq_true, List.isEmpty_iff, List.all_eq_true, bne_iff_ne] at h
  obtain rfl | ⟨⟨hsolid, hshape⟩, hnone⟩ := h
  · exact .unassigned
  have hink := inkText_solid 0 k hsolid hnone
  have hspelled := spelled_of_mem 0 (encode k)
  have hcomment : ∀ t ∈ tokensFrom 0 0 (encode k), t.kind ≠ .comment :=
    fun t ht => hnone _ (List.mem_map_of_mem ht)
  rw [← map_kind 0] at hshape
  generalize tokensFrom 0 0 (encode k) = ts at hink hspelled hcomment hshape
  rw [← hink]
  unfold isKeyShape at hshape
  split at hshape
  · next hkinds =>
    obtain ⟨t, rest, rfl, ht, hrest⟩ := List.map_eq_cons_iff.mp hkinds
    obtain rfl := List.map_eq_nil_iff.mp hrest
    have hspelledt := hspelled t List.mem_cons_self
    rw [inkText_singleton t hspelledt (hcomment t List.mem_cons_self)]
    exact .plain _ (identText_of_spelled t hspelledt ht)
  · next kinds hkinds =>
    obtain ⟨t, rest, rfl, ht, hrest⟩ := List.map_eq_cons_iff.mp hkinds
    obtain ⟨u, us, rfl, hu, rfl⟩ := List.map_eq_cons_iff.mp hrest
    exact keyText_of_arguments t u us hspelled hcomment ht hu hshape
  · simp at hshape

theorem isLasting_of_canonical (k : Text) (h : isCanonicalKey k = true) : isLasting k = true := by
  unfold isCanonicalKey at h
  simp only [Bool.or_eq_true, Bool.and_eq_true, List.isEmpty_iff, List.all_eq_true, bne_iff_ne] at h
  obtain rfl | ⟨⟨hsolid, -⟩, hnone⟩ := h
  · rfl
  · rw [isLasting, (Bool.and_eq_true_iff.mp hsolid).1, pairless_of_uncommented k hnone]
    rfl

theorem survives_of_canonical (keys : List Text) (h : ∀ k ∈ keys, isCanonicalKey k = true) :
    survives keys = true := by
  have hends : endsBlank keys = false := by
    refine Bool.eq_false_iff.mpr (fun hblank => ?_)
    obtain ⟨k, hk, hkb⟩ := (Option.any_eq_true _ _).mp hblank
    obtain ⟨c, hc, hcb⟩ := (Option.any_eq_true _ _).mp hkb
    have hcanonical := h k (List.mem_of_getLast? hk)
    have hmem := List.mem_of_getLast? hc
    unfold isCanonicalKey isSolid at hcanonical
    simp only [Bool.or_eq_true, Bool.and_eq_true, List.isEmpty_iff, List.all_eq_true] at hcanonical
    obtain rfl | ⟨⟨⟨-, hsolid⟩, -⟩, -⟩ := hcanonical
    · simp at hmem
    · have := hsolid c hmem
      rw [hcb] at this
      simp at this
  rw [survives, hends, List.all_eq_true.mpr (fun k hk => isLasting_of_canonical k (h k hk))]
  rfl

theorem identText_of_canonical (name : Text) (h : isCanonicalName name = true) :
    IdentText name ∧ isAscii name = true := by
  obtain ⟨hsolid, hkinds⟩ := Bool.and_eq_true_iff.mp h
  have hkinds' := eq_of_beq hkinds
  have hnone : ∀ f ∈ forms (encode name), f.1 ≠ .comment := by
    intro f hf hc
    have := List.mem_map_of_mem (f := Prod.fst) hf
    rw [hkinds', hc] at this
    simp at this
  have hink := inkText_solid 0 name hsolid hnone
  have hspelled := spelled_of_mem 0 (encode name)
  rw [← map_kind 0] at hkinds'
  generalize tokensFrom 0 0 (encode name) = ts at hink hspelled hkinds'
  obtain ⟨t, rest, rfl, ht, hrest⟩ := List.map_eq_cons_iff.mp hkinds'
  obtain rfl := List.map_eq_nil_iff.mp hrest
  rw [inkText_singleton t (hspelled t List.mem_cons_self) (by rw [ht]; simp)] at hink
  refine ⟨?_, (Bool.and_eq_true_iff.mp hsolid).1⟩
  rw [← hink]
  exact identText_of_spelled t (hspelled t List.mem_cons_self) ht

/-! ## Reading back -/

/-- The text of a drawn table whose name and keys are canonical is, behind comments, the table that
is written, and it is read as the table of this name with these keys, up to its last comma. -/
theorem drawn_table_read (g : Grid) (keys : List Text) (name lead newline : Text)
    (hcount : g.keyCount = keys.length) (hkeys : ∀ k ∈ keys, isCanonicalKey k = true)
    (hname : isCanonicalName name = true) (hlead : ['/', '/'] <+: lead) (hline : '\n' ∉ lead)
    (hn : newline = ['\n'] ∨ newline = ['\r', '\n']) :
    ∃ d comments body comma, draw g keys lead = .ok d ∧
      tokens (encode (d.entryText name newline)) = comments ++ (body ++ [comma]) ++
        [.ending (encode (d.entryText name newline)).length] ∧
      (∀ c ∈ comments, c.kind = .comment) ∧
      (body ++ [comma]).map Token.form = tableForms name keys ∧
      ∃ first t, body.head? = some first ∧ t.text = name ∧
        (keyTable ⟨body ++ [comma], .ending (encode (d.entryText name newline)).length⟩).value =
          some ⟨t, keys, first.offset, comma.stop⟩ := by
  obtain ⟨d, hd⟩ := draw_of_count g keys lead hcount
  have hdrawn := drawn_of_draw g lead newline name keys d hn hlead hline
    (identText_of_canonical name hname) (fun k hk => keyText_of_canonical k (hkeys k hk)) hd
  obtain ⟨comments, body, first, t, close, comma, hc, hbody, htext, hkind, hstop, hforms, htokens⟩ :=
    tokensFrom_entry d name newline keys hdrawn (survives_of_canonical keys hkeys)
  refine ⟨d, comments, body, comma, hd, by rw [tokens, htokens], ?_, hforms, first, t, ?_, htext, ?_⟩
  · intro c hmem
    simpa [isComment] using hc c hmem
  · obtain ⟨tail, rfl, -⟩ := hbody.ne_nil
    rfl
  · have htable := keyTable_table body first t close keys hbody [comma]
      (encode (d.entryText name newline)).length
    have hstarts : startsComma [comma] = true := by
      rw [startsComma, isComment, hkind]
      rfl
    have hpast : [comma].dropWhile isComment = [comma] := by
      rw [List.dropWhile_cons_of_neg (by rw [isComment, hkind]; decide)]
    simp only [hstarts, if_true, hpast, List.headD_cons] at htable
    rw [htable, hstop]

/-- Rows of different lengths, nested arguments, and a key that is not assigned. -/
theorem drawn_table_ragged : ∃ d comments body comma,
    draw [[.key], [.blank, .key, .key]] ["LT(F(1),(A))".toList, [], ['/']] ['/', '/'] = .ok d ∧
      tokens (encode (d.entryText ['B', '0'] ['\r', '\n'])) = comments ++ (body ++ [comma]) ++
        [.ending (encode (d.entryText ['B', '0'] ['\r', '\n'])).length] ∧
      (∀ c ∈ comments, c.kind = .comment) ∧
      (body ++ [comma]).map Token.form =
        tableForms ['B', '0'] ["LT(F(1),(A))".toList, [], ['/']] ∧
      ∃ first t, body.head? = some first ∧ t.text = ['B', '0'] ∧
        (keyTable ⟨body ++ [comma],
          .ending (encode (d.entryText ['B', '0'] ['\r', '\n'])).length⟩).value =
            some ⟨t, ["LT(F(1),(A))".toList, [], ['/']], first.offset, comma.stop⟩ :=
  drawn_table_read [[.key], [.blank, .key, .key]] ["LT(F(1),(A))".toList, [], ['/']] ['B', '0']
    ['/', '/'] ['\r', '\n'] (by decide) (by decide +kernel) (by decide +kernel) (by decide)
    (by decide) (Or.inr rfl)

end KeyTables
