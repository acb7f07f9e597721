/-!
# Finding and cutting

Cuts of a text at the first or last place where a character or a phrase stands, tests for how a
text begins and ends, and replacement of a phrase. Each cut returns the text before and the text
after the place.
-/

namespace UtilityCss

namespace Chars

/-- The text before and after the first character that satisfies `p`; the character is dropped. -/
def cutAt (p : Char → Bool) : List Char → Option (List Char × List Char)
  | [] => none
  | c :: s => if p c then some ([], s) else (cutAt p s).map fun (a, b) => (c :: a, b)

/-- The text before and after the last character that satisfies `p`. -/
def cutAtLast (p : Char → Bool) (s : List Char) : Option (List Char × List Char) :=
  (cutAt p s.reverse).map fun (a, b) => (b.reverse, a.reverse)

/-- The text before and after the first occurrence of `phrase`. -/
def cutPhrase (phrase : List Char) : List Char → Option (List Char × List Char)
  | [] => if phrase.isEmpty then some ([], []) else none
  | c :: s => match phrase.isPrefixOf? (c :: s) with
    | some rest => some ([], rest)
    | none => (cutPhrase phrase s).map fun (a, b) => (c :: a, b)

theorem length_isPrefixOf? {phrase s rest : List Char}
    (h : phrase.isPrefixOf? s = some rest) : s.length = phrase.length + rest.length := by
  induction phrase generalizing s with
  | nil =>
    cases h
    exact (Nat.zero_add _).symm
  | cons p phrase ih =>
    cases s with
    | nil => cases h
    | cons c s =>
      change (if p == c then phrase.isPrefixOf? s else none) = some rest at h
      split at h
      · have := ih h
        simp only [List.length_cons]
        omega
      · cases h

theorem length_cutPhrase {phrase s a b : List Char} (h : cutPhrase phrase s = some (a, b)) :
    b.length ≤ s.length := by
  induction s generalizing a b with
  | nil =>
    simp only [cutPhrase] at h
    split at h <;> simp_all
  | cons c s ih =>
    simp only [cutPhrase] at h
    split at h
    · rename_i rest hr
      have := length_isPrefixOf? hr
      simp only [List.length_cons] at this ⊢
      obtain ⟨-, rfl⟩ := by simpa using h
      omega
    · simp only [Option.map_eq_some_iff, Prod.exists] at h
      obtain ⟨a', b', h', heq⟩ := h
      cases heq
      have := ih h'
      simp only [List.length_cons]
      omega

end Chars

namespace Text

def startsWith (s lead : String) : Bool := lead.toList.isPrefixOf s.toList

def endsWith (s tail : String) : Bool := tail.toList.isSuffixOf s.toList

/-- What follows `lead`, if the text begins with it. -/
def afterLead? (lead s : String) : Option String :=
  (lead.toList.isPrefixOf? s.toList).map String.ofList

/-- What precedes `tail`, if the text ends with it. -/
def beforeTail? (tail s : String) : Option String :=
  (tail.toList.isSuffixOf? s.toList).map String.ofList

def asStrings (p : List Char × List Char) : String × String :=
  (String.ofList p.1, String.ofList p.2)

def cutAt (p : Char → Bool) (s : String) : Option (String × String) :=
  (Chars.cutAt p s.toList).map asStrings

def cutAtLast (p : Char → Bool) (s : String) : Option (String × String) :=
  (Chars.cutAtLast p s.toList).map asStrings

def cutPhrase (phrase s : String) : Option (String × String) :=
  (Chars.cutPhrase phrase.toList s.toList).map asStrings

def containsPhrase (s phrase : String) : Bool :=
  (Chars.cutPhrase phrase.toList s.toList).isSome

def containsChar (s : String) (c : Char) : Bool := s.toList.contains c

def all (p : Char → Bool) (s : String) : Bool := s.toList.all p

/-- The text with every character `c` written as `phrase`. -/
def replaceChar (c : Char) (phrase s : String) : String :=
  String.ofList (s.toList.flatMap fun d => if d == c then phrase.toList else [d])

/-- The first characters of a text, for an error message. -/
def excerpt (s : List Char) : String := String.ofList (s.take 40)

end Text

end UtilityCss
