import UtilityCss.Proofs.Candidate.Reading
import UtilityCss.Proofs.Text.Pieces

/-!
# Texts in readings of class names

The names in a reading of a class name are plain ones, whatever the class name, and a text in brackets
stands for a part of it that has passed the checks.
-/

namespace UtilityCss

def CandidateValue.inBrackets? : CandidateValue → Option String
  | named _ _ => none
  | arbitrary s _ => some s

/-- Whether a name is a plain one and a fraction can be part of a theme key, or else a text in brackets
is as asked. -/
def CandidateValue.Holds (P : String → Prop) : CandidateValue → Prop
  | named s fraction => isPlainName s ∧ ∀ f ∈ fraction, IsKeyText f
  | arbitrary s _ => P s

/-- Whether the names of a candidate's form are names and its texts in brackets are as asked. The value
of a property is checked as it stands. -/
def CandidateForm.Holds (P : String → Prop) : CandidateForm → Prop
  | static _ _ => True
  | functional _ value modifier _ => (∀ v ∈ value, v.Holds P) ∧ ∀ m ∈ modifier, m.Holds P
  | property name value modifier =>
    isPropertyName name ∧ (isPlainValue value ∧ P value) ∧ ∀ m ∈ modifier, m.Holds P

section Argument

variable {P Q : String → Prop} {s : String} {a : Argument}

theorem isTame_of_isPlainName (h : isPlainName s) : IsTame s := by
  rw [isPlainName] at h
  rw [Bool.and_eq_true] at h
  intro c hc
  exact Chars.isTame_of (p := fun c => c.isAlphanum || ['-', '_', '.', '%'].contains c) (by decide)
    (List.all_eq_true.1 h.2 c hc)

theorem isInfix_trim (s : List Char) : Chars.trim s <:+: s := by
  obtain ⟨u, -, hs⟩ := Chars.exists_trimStart s
  obtain ⟨v, -, ht⟩ := Chars.exists_trimEnd (Chars.trimStart s)
  refine ⟨u, v, ?_⟩
  rw [Chars.trim, List.append_assoc, ← ht, ← hs]

theorem Argument.Holds.text (hP : TextLaws P) (h : a.Holds P) : P a.text := by
  cases a with
  | named => exact hP.tame (isTame_of_isPlainName h)
  | arbitrary => exact h

theorem Argument.Holds.trim_text (hP : TextLaws P) (h : a.Holds fun s => P (Text.trim s)) :
    P (Text.trim a.text) := by
  cases a with
  | arbitrary => exact h
  | named s =>
    refine hP.tame fun c hc => ?_
    rw [Text.trim, String.toList_ofList] at hc
    exact isTame_of_isPlainName h c ((isInfix_trim _).subset hc)

end Argument

section StandsFor

variable {k : TextKind} {raw s : String}

/-- What a text in brackets stands for is closed, unless it reaches outside. -/
theorem StandsFor.passes (h : StandsFor raw s) (hout : ¬ ReachesOut k s) : Passes k s := by
  cases h with
  | decoded _ hplain => exact passes_of_isPlainValue hplain hout
  | reference _ hbalanced => exact passes_call (by decide) rfl hbalanced hout
  | decodedReference _ hbalanced => exact passes_call (by decide) rfl hbalanced hout

theorem trim_reference (s : String) : Text.trim ("var(" ++ s ++ ")") = "var(" ++ s ++ ")" := by
  have htext : ("var(" ++ s ++ ")").toList = "var(".toList ++ s.toList ++ [')'] := by simp
  have hstart : Chars.trimStart ("var(".toList ++ s.toList ++ [')']) =
      "var(".toList ++ s.toList ++ [')'] := rfl
  rw [← String.toList_inj, Text.trim, String.toList_ofList, htext, Chars.trim, hstart,
    Chars.trimEnd_concat (by decide)]

theorem StandsFor.passes_trim (h : StandsFor raw s) (hout : ¬ ReachesOut k (Text.trim s)) :
    Passes k (Text.trim s) := by
  cases h with
  | decoded _ hplain => exact passes_trim_of_isPlainValue hplain hout
  | reference _ hbalanced =>
    rw [trim_reference] at hout ⊢
    exact passes_call (by decide) rfl hbalanced hout
  | decodedReference _ hbalanced =>
    rw [trim_reference] at hout ⊢
    exact passes_call (by decide) rfl hbalanced hout

end StandsFor

section CallFree

namespace Chars

/-- Whether a text is what another one becomes when blanks and underscores are put into it, each in the
place of a part of it or between two parts. -/
inductive Marks : List Char → List Char → Prop where
  | nil : Marks [] []
  | kept {s t : List Char} (c : Char) (h : Marks s t) : Marks (c :: s) (c :: t)
  | put {s t : List Char} {c : Char} (w : List Char) (hc : c = ' ' ∨ c = '_') (h : Marks s t) :
    Marks (w ++ s) (c :: t)

variable {s t u read : List Char} {may : List Char → Char → Prop}

private theorem Marks.isPrefix (h : Marks s t) (hblank : ' ' ∉ u) (hunderscore : '_' ∉ u)
    (hu : u <+: t) : u <+: s := by
  induction h generalizing u with
  | nil => exact hu
  | kept c _ ih =>
    rcases List.prefix_cons_iff.1 hu with rfl | ⟨u, rfl, htail⟩
    · exact List.nil_prefix
    · rw [List.mem_cons, not_or] at hblank hunderscore
      exact List.cons_prefix_cons.2 ⟨rfl, ih hblank.2 hunderscore.2 htail⟩
  | put w hc _ ih =>
    rcases List.prefix_cons_iff.1 hu with rfl | ⟨u, rfl, -⟩
    · exact List.nil_prefix
    · rw [List.mem_cons, not_or] at hblank hunderscore
      rcases hc with rfl | rfl
      · exact absurd rfl hblank.1
      · exact absurd rfl hunderscore.1

/-- What stands in a text and has no blank and no underscore stood there before these were put in. -/
theorem Marks.isInfix (h : Marks s t) (hblank : ' ' ∉ u) (hunderscore : '_' ∉ u) (hu : u <:+: t) :
    u <:+: s := by
  induction h with
  | nil => exact hu
  | kept c h ih =>
    rcases List.infix_cons_iff.1 hu with hu | hu
    · exact (Marks.isPrefix (.kept c h) hblank hunderscore hu).isInfix
    · exact (ih hu).trans (List.suffix_cons ..).isInfix
  | put w hc h ih =>
    rcases List.infix_cons_iff.1 hu with hu | hu
    · exact (Marks.isPrefix (.put w hc h) hblank hunderscore hu).isInfix
    · exact (ih hu).trans (List.suffix_append ..).isInfix

private theorem marks_decodeUnderscores (d : Option Nat) (s : List Char) :
    Marks s (decodeUnderscores d s) := by
  fun_induction decodeUnderscores d s with
  | case1 => exact .nil
  | case2 d c s ih => exact .kept c ih
  | case3 s ih => exact .put ['\\', '_'] (.inr rfl) ih
  | case4 s ih => exact .kept 'u' (.kept 'r' (.kept 'l' (.kept '(' ih)))
  | case5 c s _ _ ih =>
    split
    · exact .put [c] (.inl rfl) ih
    · exact .kept c ih

theorem Spaced.marks (h : Spaced may read s t) : Marks s t := by
  induction h with
  | nil => exact .nil
  | kept _ ih => exact .kept _ ih
  | spaced _ hw _ ih =>
    simp only [List.mem_cons, List.not_mem_nil, or_false] at hw
    rcases hw with rfl | rfl | rfl
    · exact .put [] (.inl rfl) (.kept _ ih)
    · exact .kept _ (.put [] (.inl rfl) ih)
    · exact .put [] (.inl rfl) (.kept _ (.put [] (.inl rfl) ih))

theorem mem_callPhrases_plain : ∀ phrase ∈ callPhrases, ' ' ∉ phrase.toList ∧ '_' ∉ phrase.toList := by
  decide

theorem IsCallFree.of_marks (h : Marks s t) (hs : IsCallFree s) : IsCallFree t :=
  fun phrase hphrase hwithin => hs phrase hphrase
    (h.isInfix (mem_callPhrases_plain phrase hphrase).1 (mem_callPhrases_plain phrase hphrase).2 hwithin)

theorem IsCallFree.decodeArbitrary (hs : IsCallFree s) : IsCallFree (decodeArbitrary s) := by
  rw [Chars.decodeArbitrary]
  split
  · exact hs
  · have hdecoded := hs.of_marks (marks_decodeUnderscores none s)
    dsimp only
    split
    · exact hdecoded.of_marks (spaced_spaceOperators _).marks
    · exact hdecoded

end Chars

variable {raw s t : String}

theorem IsCallFree.of_isWithin (hs : IsCallFree s) (h : IsWithin t s) : IsCallFree t :=
  Chars.IsCallFree.of_infix hs h

theorem IsCallFree.trim (hs : IsCallFree s) : IsCallFree (Text.trim s) := by
  rw [IsCallFree, Text.trim, String.toList_ofList]
  exact Chars.IsCallFree.of_infix hs (isInfix_trim s.toList)

theorem IsCallFree.decodeArbitrary (hs : IsCallFree s) : IsCallFree (decodeArbitrary s) := by
  rw [IsCallFree, UtilityCss.decodeArbitrary, String.toList_ofList]
  exact Chars.IsCallFree.decodeArbitrary hs

/-- No call begins in what a text in brackets stands for if none begins in the class name. The decoding
may put a boundary in front of a name, and so a name counts wherever it stands. -/
theorem StandsFor.isCallFree (h : StandsFor raw s) (hraw : IsCallFree raw) : IsCallFree s := by
  cases h with
  | decoded hinner => exact (hraw.of_isWithin hinner).decodeArbitrary
  | reference hinner =>
    exact textLaws_isCallFree.surround (hraw.of_isWithin hinner) (by decide)
  | decodedReference hinner =>
    exact textLaws_isCallFree.surround (hraw.of_isWithin hinner).decodeArbitrary (by decide)

end CallFree

section Value

variable {P Q : String → Prop} {v : CandidateValue} {c : Candidate}

theorem CandidateValue.Holds.imp (h : v.Holds P) (hPQ : ∀ s ∈ v.inBrackets?, P s → Q s) :
    v.Holds Q := by
  cases v with
  | named => exact h
  | arbitrary => exact hPQ _ rfl h

theorem CandidateForm.Holds.imp {form : CandidateForm} (h : form.Holds P) (hPQ : ∀ s, P s → Q s) :
    form.Holds Q := by
  cases form with
  | static => trivial
  | functional =>
    exact ⟨fun v hv => (h.1 v hv).imp fun s _ => hPQ s, fun m hm => (h.2 m hm).imp fun s _ => hPQ s⟩
  | property => exact ⟨h.1, ⟨h.2.1.1, hPQ _ h.2.1.2⟩, fun m hm => (h.2.2 m hm).imp fun s _ => hPQ s⟩

theorem CandidateForm.Holds.value (h : c.form.Holds P) : ∀ v ∈ c.value?, v.Holds P := by
  rw [Candidate.value?]
  split
  · next hform =>
    rw [hform] at h
    exact h.1
  · nofun

theorem CandidateForm.Holds.modifier (h : c.form.Holds P) : ∀ m ∈ c.modifier?, m.Holds P := by
  rw [Candidate.modifier?]
  split
  · next hform =>
    rw [hform] at h
    exact h.2
  · next hform =>
    rw [hform] at h
    exact h.2.2
  · nofun

end Value

section Form

variable {s name raw : String} {form : CandidateForm} {modifier : Option Argument}

theorem isWithin_of_splitArgument? (h : splitArgument? s = some (name, modifier)) :
    IsWithin name s ∧ ∀ m ∈ modifier, m.Holds (StandsFor s) := by
  obtain ⟨text, hread, rfl⟩ := append_of_splitArgument? h
  refine ⟨isWithin_of_eq (u := "") (by rw [String.empty_append]), ?_⟩
  refine holds_of_readOptional? hread fun inner hinner => ?_
  cases hinner
  exact isWithin_of_eq (u := name ++ "/") (v := "") (by simp [String.append_assoc])

private theorem holds_of_readProperty? (h : readProperty? s = some form) :
    form.Holds (StandsFor s) := by
  obtain ⟨⟨text, modifier⟩, hsplit, h⟩ := Option.bind_eq_some_iff.1 h
  obtain ⟨inner, hinner, h⟩ := Option.bind_eq_some_iff.1 h
  obtain ⟨⟨name, value⟩, hcut, h⟩ := Option.bind_eq_some_iff.1 h
  obtain ⟨hvalid, h⟩ := Option.ite_none_right_eq_some.1 h
  cases h
  rw [Bool.and_eq_true, Bool.and_eq_true] at hvalid
  obtain ⟨htext, hmodifier⟩ := isWithin_of_splitArgument? hsplit
  have hvalue : IsWithin value inner := by
    have hsplit := (Text.cutAt_char_eq_some_iff.1 hcut).2
    refine isWithin_of_eq (u := name ++ ":") (v := "") ?_
    rw [← String.toList_inj, hsplit]
    simp
  have hstands := StandsFor.decoded ((hvalue.trans (isWithin_of_between? hinner)).trans htext) hvalid.2
  exact ⟨hvalid.1.1, ⟨hvalid.2, hstands⟩, hmodifier⟩

namespace Utilities

variable {us : Utilities} {negative : Bool}

private theorem holds_plainValue {P : String → Prop} {value : String} (hvalue : isPlainName value)
    (hmodifier : ∀ m ∈ modifier, m.Holds P) : (plainValue value modifier).Holds P := by
  refine ⟨hvalue, ?_⟩
  split
  · next m =>
    rintro _ ⟨⟩
    have hm : isPlainName m := hmodifier _ rfl
    exact isKeyText_append.2 ⟨isKeyText_append.2 ⟨(isTame_of_isPlainName hvalue).isKeyText, by decide⟩,
      (isTame_of_isPlainName hm).isKeyText⟩
  · nofun

private theorem holds_of_mem_readFunctional (h : form ∈ us.readFunctional s negative) :
    form.Holds (StandsFor s) := by
  obtain ⟨name, modifier, hsplit, ⟨root, text, hint, -, hstands, rfl⟩ | h⟩ := mem_readFunctional h
  · obtain ⟨hname, hmodifier⟩ := isWithin_of_splitArgument? hsplit
    refine ⟨?_, hmodifier⟩
    rintro _ ⟨⟩
    exact hstands.mono hname
  · obtain ⟨root, value, -, hplain, rfl⟩ := mem_readWithName h
    obtain ⟨-, hmodifier⟩ := isWithin_of_splitArgument? hsplit
    refine ⟨fun v hv => ?_, hmodifier⟩
    obtain ⟨name, rfl, rfl⟩ := Option.map_eq_some_iff.1 hv
    exact holds_plainValue hplain hmodifier

/-- The names of a form that is read are names, and its texts in brackets stand for parts of the text
that is read. -/
theorem holds_of_mem_readForms (h : form ∈ us.readForms s) : form.Holds (StandsFor s) := by
  rw [readForms] at h
  split at h
  · exact absurd h List.not_mem_nil
  · split at h
    · exact holds_of_readProperty? (Option.mem_toList.1 h)
    · cases hcut : cutNegative s with
      | mk name negative =>
        rw [hcut] at h
        rcases List.mem_append.1 h with h | h
        · obtain ⟨-, h⟩ := List.mem_ite_nil_right.1 h
          obtain rfl := List.mem_singleton.1 h
          trivial
        · have hname : IsWithin name s :=
            isWithin_of_eq (v := "") (by rw [String.append_empty, append_of_cutNegative hcut])
          exact (holds_of_mem_readFunctional h).imp fun _ hstands => hstands.mono hname

end Utilities

private theorem isWithin_of_cutImportant {text : String} {important : Bool}
    (h : cutImportant s = (text, important)) : IsWithin text s := by
  obtain ⟨rest, hs, hcut⟩ | ⟨-, rest, hs, hcut⟩ | ⟨-, -, hcut⟩ := cutImportant_cases s
  · cases h.symm.trans hcut
    exact isWithin_of_eq (u := "") (by rw [String.empty_append, hs])
  · cases h.symm.trans hcut
    exact isWithin_of_eq (v := "") (by rw [String.append_empty, hs])
  · cases h.symm.trans hcut
    exact List.infix_refl _

theorem Chars.isInfix_of_mem_segmentFrom {sep : Char} {n : Nesting} {s part : List Char}
    (h : part = (segmentFrom sep n s).1 ∨ part ∈ (segmentFrom sep n s).2) : part <:+: s := by
  have hjoin := join_segmentFrom sep n s
  rw [← hjoin]
  rcases h with rfl | h
  · exact (List.prefix_append ..).isInfix
  · obtain ⟨front, back, hparts⟩ := List.append_of_mem h
    rw [hparts, List.flatMap_append, List.flatMap_cons]
    exact ⟨(segmentFrom sep n s).1 ++ front.flatMap (sep :: ·) ++ [sep], back.flatMap (sep :: ·),
      by simp⟩

theorem isWithin_of_mem_segment {sep : Char} {part : String} (h : part ∈ segment s sep) :
    IsWithin part s := by
  obtain ⟨part, hpart, rfl⟩ := List.mem_map.1 h
  rw [IsWithin, String.toList_ofList]
  exact Chars.isInfix_of_mem_segmentFrom (List.mem_cons.1 hpart)

variable {us : Utilities} {vs : Variants} {c : Candidate}

/-- The texts of a reading stand for parts of the class name, and its variants are read in it. -/
theorem holds_of_mem_readCandidates (h : c ∈ readCandidates us vs raw) :
    c.form.Holds (StandsFor raw) ∧
      ∀ v ∈ c.variants, ∃ text, IsWithin text raw ∧ vs.read? text = some v := by
  obtain ⟨text, hcut, hform, -, hvariants⟩ := mem_readCandidates h
  have hlast : IsWithin (splitVariants raw).2 raw := by
    rw [splitVariants, List.getLastD_eq_getLast?]
    cases hlast : (segment raw ':').getLast? with
    | none => exact List.nil_infix
    | some part => exact isWithin_of_mem_segment (List.mem_of_getLast? hlast)
  refine ⟨(Utilities.holds_of_mem_readForms hform).imp fun _ hstands =>
    hstands.mono ((isWithin_of_cutImportant hcut).trans hlast), fun v hv => ?_⟩
  obtain ⟨part, hpart, hread⟩ := exists_of_mem_mapM hvariants hv
  exact ⟨part, isWithin_of_mem_segment (List.dropLast_subset _ hpart), hread⟩

end Form

end UtilityCss
