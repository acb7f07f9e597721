import UtilityCss.Text.Find

/-!
# Calls in a text

A call is a name, an opening parenthesis and all up to the parenthesis that closes it.
`replaceCalls` writes something else in the place of every call of a function.
-/

namespace UtilityCss

namespace Chars

/-- The text up to the parenthesis that closes an open one, and the text behind it. Parentheses
between two equal characters of `quotes` do not count; `depth` more of them are open, and `quote`
is what is open of those. -/
def cutCall (quotes : List Char) (depth : Nat) (quote : Option Char) :
    List Char → Option (List Char × List Char)
  | [] => none
  | c :: s =>
    let put := Option.map fun p : List Char × List Char => (c :: p.1, p.2)
    match quote with
    | some q => put (cutCall quotes depth (if c == q then none else some q) s)
    | none =>
      if quotes.contains c then put (cutCall quotes depth (some c) s)
      else if c == '(' then put (cutCall quotes (depth + 1) none s)
      else if c == ')' then
        match depth with
        | 0 => some ([], s)
        | d + 1 => put (cutCall quotes d none s)
      else put (cutCall quotes depth none s)

theorem append_of_cutCall {quotes : List Char} {depth : Nat} {quote : Option Char}
    {s args rest : List Char} (h : cutCall quotes depth quote s = some (args, rest)) :
    args ++ ')' :: rest = s := by
  induction s generalizing depth quote args rest with
  | nil => simp [cutCall] at h
  | cons c s ih =>
    have put {d : Nat} {q : Option Char}
        (h : (cutCall quotes d q s).map (fun p => (c :: p.1, p.2)) = some (args, rest)) :
        args ++ ')' :: rest = c :: s := by
      obtain ⟨⟨a, b⟩, hab, heq⟩ := Option.map_eq_some_iff.1 h
      obtain ⟨rfl, rfl⟩ := Prod.mk.inj heq
      simp [ih hab]
    unfold cutCall at h
    split at h
    · exact put h
    · split at h
      · exact put h
      · split at h
        · exact put h
        · split at h
          · rename_i hc
            split at h
            · obtain ⟨rfl, rfl⟩ := Prod.mk.inj (Option.some.inj h)
              simp only [beq_iff_eq] at hc
              simp [hc]
            · exact put h
          · exact put h

/-- A character that an identifier goes on with. -/
def continuesName (c : Char) : Bool := c.isAlphanum || c == '-' || c == '_'

/-- Writes `resolve args` in the place of every call `name(args)`. A name that is the end of a
longer identifier is no call, and nothing is one behind a call that is not closed. `atBoundary`
says that no identifier goes on here. -/
def replaceCalls {ε : Type} (name : List Char) (resolve : List Char → Except ε (List Char))
    (atBoundary : Bool) : List Char → Except ε (List Char)
  | [] => .ok []
  | c :: s =>
    match h : (name ++ ['(']).isPrefixOf? (c :: s) with
    | none => (replaceCalls name resolve (!continuesName c) s).map (c :: ·)
    | some rest =>
      have := length_isPrefixOf? h
      if atBoundary then
        match hcut : cutCall ['"', '\''] 0 none rest with
        | none => .ok (c :: s)
        | some (args, behind) => do
          have := congrArg List.length (append_of_cutCall hcut)
          let value ← resolve args
          let tail ← replaceCalls name resolve true behind
          .ok (value ++ tail)
      else (replaceCalls name resolve true rest).map (name ++ '(' :: ·)
termination_by s => s.length
decreasing_by
  all_goals
    simp only [List.length_append, List.length_cons, List.length_nil] at *
    omega

end Chars

namespace Text

/-- The text between two equal quotes, if it is between such. -/
def unquote? (s : String) : Option String :=
  (afterLead? "\"" s).bind (beforeTail? "\"") <|> (afterLead? "'" s).bind (beforeTail? "'")

end Text

end UtilityCss
