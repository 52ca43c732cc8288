import KeyTables.Block.Reader

/-! Reading keys. A key is a placeholder of underscores, a single identifier, or an identifier with
arguments in parentheses; the latter is read up to the parenthesis that balances its first one and
written without comments and blanks.

* `compoundKey`: one key with arguments.
* `keyList`: the keys up to the closing parenthesis. -/
namespace KeyTables
set_option autoImplicit false

namespace Cursor

/-! ## Compound keys -/

/-- What a token adds to the number of open parentheses. -/
def parenStep : Token.Kind → Int
  | .lparen => 1
  | .rparen => -1
  | _ => 0

/-- The texts of the tokens up to the closing parenthesis that leaves none open, comments left out,
and the tokens from that parenthesis on. -/
def compoundFrom (depth : Int) : List Token → Option (Text × List Token)
  | [] => none
  | t :: ts =>
    if t.kind = .comment then compoundFrom depth ts
    else if t.kind = .rparen ∧ depth + parenStep t.kind = 0 then some (t.text, t :: ts)
    else
      match compoundFrom (depth + parenStep t.kind) ts with
      | none => none
      | some (s, rest) => some (t.text ++ s, rest)

theorem length_compoundFrom_le (depth : Int) (ts : List Token) (s : Text) (rest : List Token)
    (h : compoundFrom depth ts = some (s, rest)) : rest.length ≤ ts.length := by
  induction ts generalizing depth s with
  | nil => simp [compoundFrom] at h
  | cons t ts ih =>
    rw [compoundFrom] at h
    split at h
    · have := ih _ _ h
      simp only [List.length_cons]
      omega
    · split at h
      · simp only [Option.some.injEq, Prod.mk.injEq] at h
        exact Nat.le_of_eq (congrArg List.length h.2.symm)
      · split at h
        · simp at h
        · rename_i hrest
          simp only [Option.some.injEq, Prod.mk.injEq] at h
          rw [h.2] at hrest
          have := ih _ _ hrest
          simp only [List.length_cons]
          omega

/-- The current token and its arguments as one key. The cursor ends on the last parenthesis, or on
the ending token if the arguments are never closed. -/
def compoundKey (c : Cursor) : Parsed (Option Text) :=
  match compoundFrom 0 c.ahead.tail with
  | none => ⟨none, c.exhausted, []⟩
  | some (s, rest) => ⟨some (c.curr.text ++ s), ⟨rest, c.last⟩, []⟩

/-! ## Lists of keys -/

/-- The keys up to the first closing parenthesis outside all compound keys, and the tokens from it
on. Tokens that are no keys are passed over. -/
def keysFrom (ts : List Token) : Option (List Text × List Token) :=
  match ts with
  | [] => none
  | t :: ts =>
    if t.kind = .rparen then some ([], t :: ts)
    else if t.kind = .blank then
      match keysFrom ts with
      | none => none
      | some (keys, rest) => some ([] :: keys, rest)
    else if t.kind = .ident then
      if (ts.head?.map Token.kind) = some .lparen then
        match _closed : compoundFrom 0 ts with
        | none => none
        | some (s, closing) =>
          match keysFrom closing.tail with
          | none => none
          | some (keys, rest) => some ((t.text ++ s) :: keys, rest)
      else
        match keysFrom ts with
        | none => none
        | some (keys, rest) => some (t.text :: keys, rest)
    else keysFrom ts
termination_by ts.length
decreasing_by
  · simp
  · have hlen := length_compoundFrom_le _ _ _ _ _closed
    simp only [List.length_cons, List.length_tail]
    omega
  · simp
  · simp

/-- The keys after the current token. The cursor ends on the closing parenthesis, or on the ending
token if there is none. -/
def keyList (c : Cursor) : Parsed (Option (List Text)) :=
  match keysFrom c.ahead.tail with
  | none => ⟨none, c.exhausted, []⟩
  | some (keys, rest) => ⟨some keys, ⟨rest, c.last⟩, []⟩

theorem length_keysFrom_le (ts : List Token) (keys : List Text) (rest : List Token)
    (h : keysFrom ts = some (keys, rest)) : rest.length ≤ ts.length := by
  fun_induction keysFrom ts generalizing keys with
  | case1 => simp at h
  | case2 t ts ht =>
    simp only [Option.some.injEq, Prod.mk.injEq] at h
    exact Nat.le_of_eq (congrArg List.length h.2.symm)
  | case3 => simp at h
  | case4 t ts _ _ keys' rest' he ih =>
    simp only [Option.some.injEq, Prod.mk.injEq] at h
    have := ih keys' (h.2 ▸ he)
    simp only [List.length_cons]
    omega
  | case5 => simp at h
  | case6 => simp at h
  | case7 t ts _ _ _ _ s closing hc keys' rest' he ih =>
    simp only [Option.some.injEq, Prod.mk.injEq] at h
    have h1 := ih keys' (h.2 ▸ he)
    have h2 := length_compoundFrom_le _ _ _ _ hc
    simp only [List.length_tail] at h1
    simp only [List.length_cons]
    omega
  | case8 => simp at h
  | case9 t ts _ _ _ _ keys' rest' he ih =>
    simp only [Option.some.injEq, Prod.mk.injEq] at h
    have := ih keys' (h.2 ▸ he)
    simp only [List.length_cons]
    omega
  | case10 t ts _ _ _ ih =>
    have := ih keys h
    simp only [List.length_cons]
    omega

theorem length_keyList_le (c : Cursor) : (keyList c).cursor.ahead.length ≤ c.ahead.length := by
  rw [keyList]
  split
  · exact Nat.zero_le _
  · rename_i h
    have := length_keysFrom_le _ _ _ h
    simp only [List.length_tail] at this
    simp only
    omega

end Cursor

end KeyTables
