import UtilityCss.Proofs.Stylesheet.Clean
import UtilityCss.Proofs.Text.Blank
import UtilityCss.Theme.Reference

/-!
# The variables that a text reads

A text reads a variable wherever `var(` stands in it and a name with two dashes in front follows, with
at most white space in between. A name goes on as long as it can: over letters, digits, dashes,
underscores and backslashes, and over whatever follows a backslash. A node reads what its texts do.
-/

namespace UtilityCss

/-- Whether all characters of a text are such that a name goes on with them; `escaped` says that a
backslash stands in front of the text. -/
def isNameText (escaped : Bool) : List Char → Bool
  | [] => true
  | c :: s => (isNameChar c || c == '\\' || escaped) && isNameText (c == '\\') s

def IsLongestName (text name : List Char) : Prop :=
  (name <+: text ∧ isNameText false name) ∧
    ∀ other, other <+: text → isNameText false other → other <+: name

def BeginsWithVariable (text name : List Char) : Prop :=
  ∃ blanks behind, text = blanks ++ behind ∧ (∀ c ∈ blanks, isBlank c) ∧ "--".toList <+: behind ∧
    IsLongestName behind name

def ReadsVariable (text key : String) : Prop :=
  ∃ before behind, text.toList = before ++ "var(".toList ++ behind ∧
    BeginsWithVariable behind key.toList

/-- Whether a node reads a variable, apart from what is inside it: in the value of a declaration, in
the name of a custom property, in the parameters of an at-rule or in a selector. -/
def Node.Reads (key : String) : Node → Prop
  | .decl property value _ =>
    ReadsVariable value key ∨ (Text.startsWith property "--" ∧ ReadsVariable property key)
  | .atRule _ params _ => ReadsVariable params key
  | .statement _ params => ReadsVariable params key
  | .rule selector _ => ReadsVariable selector key
  | .comment _ => False

namespace Chars

variable {s t name : List Char}

theorem takeName_isPrefix (escaped : Bool) (s : List Char) : takeName escaped s <+: s := by
  induction s generalizing escaped with
  | nil => exact List.prefix_refl _
  | cons c s ih =>
    rw [takeName]
    split
    · exact List.cons_prefix_cons.2 ⟨rfl, ih _⟩
    · exact List.nil_prefix

theorem isNameText_takeName (escaped : Bool) (s : List Char) :
    isNameText escaped (takeName escaped s) := by
  induction s generalizing escaped with
  | nil => rfl
  | cons c s ih =>
    rw [takeName]
    split
    · next h => rw [isNameText, h, ih, Bool.true_and]
    · rfl

theorem prefix_takeName_of_isNameText {escaped : Bool} (ht : t <+: s) (hname : isNameText escaped t) :
    t <+: takeName escaped s := by
  induction s generalizing t escaped with
  | nil =>
    rw [List.prefix_nil.1 ht]
    exact List.nil_prefix
  | cons c s ih =>
    cases t with
    | nil => exact List.nil_prefix
    | cons c' t =>
      obtain ⟨rfl, htail⟩ := List.cons_prefix_cons.1 ht
      obtain ⟨hc, hgoes⟩ := Bool.and_eq_true_iff.1 hname
      rw [takeName, if_pos hc]
      exact List.cons_prefix_cons.2 ⟨rfl, ih htail hgoes⟩

theorem isLongestName_iff : IsLongestName s name ↔ takeName false s = name := by
  constructor
  · rintro ⟨⟨hs, hname⟩, hlongest⟩
    have hle := hlongest _ (takeName_isPrefix false s) (isNameText_takeName false s)
    exact hle.eq_of_length_le (prefix_takeName_of_isNameText hs hname).length_le
  · rintro rfl
    exact ⟨⟨takeName_isPrefix false s, isNameText_takeName false s⟩, fun _ ht hname =>
      prefix_takeName_of_isNameText ht hname⟩

theorem variableName?_eq_some_iff : variableName? s = some name ↔ BeginsWithVariable s name := by
  rw [variableName?]
  constructor
  · intro h
    obtain ⟨hdashes, hname⟩ := Option.ite_none_right_eq_some.1 h
    refine ⟨s.takeWhile isBlank, trimStart s, List.takeWhile_append_dropWhile.symm,
      List.all_eq_true.1 List.all_takeWhile, List.isPrefixOf_iff_prefix.1 hdashes, ?_⟩
    exact isLongestName_iff.2 (Option.some.inj hname)
  · rintro ⟨blanks, behind, rfl, hblanks, hdashes, hname⟩
    have htrim : trimStart (blanks ++ behind) = behind := by
      rw [trimStart, List.dropWhile_append_of_pos hblanks]
      obtain ⟨rest, rfl⟩ := hdashes
      rfl
    rw [htrim, if_pos (List.isPrefixOf_iff_prefix.2 hdashes), isLongestName_iff.1 hname]

theorem mem_varReferences : name ∈ varReferences s ↔
    ∃ before behind, s = before ++ "var(".toList ++ behind ∧ BeginsWithVariable behind name := by
  induction s with
  | nil =>
    refine ⟨nofun, ?_⟩
    rintro ⟨before, behind, h, -⟩
    simp at h
  | cons c s ih =>
    -- A place is at the start of the text or behind its first character.
    have hsplit : (∃ before behind, c :: s = before ++ "var(".toList ++ behind ∧
        BeginsWithVariable behind name) ↔
        (∃ behind, "var(".toList.isPrefixOf? (c :: s) = some behind ∧
          variableName? behind = some name) ∨ name ∈ varReferences s := by
      rw [ih]
      constructor
      · rintro ⟨before, behind, h, hname⟩
        cases before with
        | nil =>
          exact .inl ⟨behind, List.isPrefixOf?_eq_some_iff_append_eq.2 h.symm,
            variableName?_eq_some_iff.2 hname⟩
        | cons c' before => exact .inr ⟨before, behind, (List.cons.inj h).2, hname⟩
      · rintro (⟨behind, h, hname⟩ | ⟨before, behind, rfl, hname⟩)
        · exact ⟨[], behind, (List.append_eq_of_isPrefixOf?_eq_some h).symm,
            variableName?_eq_some_iff.1 hname⟩
        · exact ⟨c :: before, behind, rfl, hname⟩
    rw [hsplit, varReferences]
    split
    · next rest h =>
      rw [List.mem_append, Option.mem_toList, h]
      simp only [Option.some.injEq, exists_eq_left']
    · next h =>
      rw [h]
      simp only [reduceCtorEq, false_and, exists_false, false_or]

end Chars

theorem mem_varReferences {text key : String} : key ∈ varReferences text ↔ ReadsVariable text key := by
  rw [varReferences, ReadsVariable, ← Chars.mem_varReferences, List.mem_map]
  constructor
  · rintro ⟨name, hname, rfl⟩
    rwa [String.toList_ofList]
  · intro h
    exact ⟨key.toList, h, String.ofList_toList⟩

/-- What the code lists for a node is what the node reads. -/
theorem Node.mem_references {n : Node} {key : String} : key ∈ n.references ↔ n.Reads key := by
  cases n with
  | decl property value important =>
    rw [references, Reads, List.mem_append, mem_varReferences]
    split
    · next h => simp [h, mem_varReferences]
    · next h => simp [h]
  | atRule name params ns => exact mem_varReferences
  | statement name params => exact mem_varReferences
  | rule selector ns => exact mem_varReferences
  | comment text => exact iff_of_false List.not_mem_nil id

end UtilityCss
