import UtilityCss.Proofs.Candidate.Texts
import UtilityCss.Utility.Builtin
import UtilityCss.Variant.Builtin

/-!
# Readings spell the class name

Every reading of a class name has all of it: one variant for each separator, the important mark, and
the parts of the utility, which spell what is left. Two readings differ in the kind of the utility or
in its name. The root `@` takes its value without a dash, so that it must not be the name of a
functional utility.
-/

namespace UtilityCss

def Argument.spelling? : Argument → Option String
  | named s => some s
  | arbitrary _ => none

def CandidateValue.spelling? : CandidateValue → Option String
  | named s _ => some s
  | arbitrary _ _ => none

/-- How a part is written behind its lead, if it is there. A text in brackets has been decoded and
does not tell how it was written. -/
def spellBehind? {α : Type} (lead : String) (spelling? : α → Option String) :
    Option α → Option String
  | none => some ""
  | some a => (spelling? a).map (lead ++ ·)

def sign (negative : Bool) : String := if negative then "-" else ""

/-- How a utility is written if nothing in it is in brackets. -/
def CandidateForm.spelling? : CandidateForm → Option String
  | static root negative => some (sign negative ++ root)
  | functional root value modifier negative => do
    let value ← spellBehind? "-" (·.spelling?) value
    let modifier ← spellBehind? "/" (·.spelling?) modifier
    return sign negative ++ (root ++ value ++ modifier)
  | property _ _ _ => none

/-- The kind and the name of the utility. -/
def CandidateForm.utility? : CandidateForm → Option (UtilityKind × String)
  | static root _ => some (.static, root)
  | functional root _ _ _ => some (.functional, root)
  | property _ _ _ => none

def Argument.IsPlain : Argument → Prop
  | named s => isPlainName s
  | arbitrary _ => True

def CandidateValue.IsPlain : CandidateValue → Prop
  | named s _ => isPlainName s
  | arbitrary _ _ => True

def Variant.IsPlain : Variant → Prop
  | static _ => True
  | functional _ value modifier => (∀ a ∈ value, a.IsPlain) ∧ ∀ a ∈ modifier, a.IsPlain
  | compound _ modifier inner => (∀ a ∈ modifier, a.IsPlain) ∧ inner.IsPlain
  | arbitrary _ _ => True

def CandidateForm.IsPlain : CandidateForm → Prop
  | static _ _ => True
  | functional _ value modifier _ => (∀ v ∈ value, v.IsPlain) ∧ ∀ a ∈ modifier, a.IsPlain
  | property _ _ modifier => ∀ a ∈ modifier, a.IsPlain

def CandidateForm.HasFraction : CandidateForm → Prop
  | functional _ (some (.named s fraction)) modifier _ =>
    ∀ text, fraction = some text ↔ ∃ m, modifier = some (.named m) ∧ text = s ++ "/" ++ m
  | _ => True

/-- Whether a text can be read as a utility: it is how the utility is written, the names in it are
names, and the utility is registered. -/
structure CandidateForm.IsFaithful (us : Utilities) (s : String) (form : CandidateForm) : Prop where
  spelled : ∀ text ∈ form.spelling?, text = s
  plain : form.IsPlain
  fraction : form.HasFraction
  registered : ∀ kind root, form.utility? = some (kind, root) → us.has root kind

/-- Whether `part` is the text `s` with its one important mark. The mark is behind the text, and it is
in front only of a part that does not end in one. -/
def IsMarked (important : Bool) (s part : String) : Prop :=
  if important then part = s ++ "!" ∨ (Text.endsWith part "!" = false ∧ part = "!" ++ s)
  else part = s

/-- Whether a candidate has all of a class name: a variant for each separator, the important mark of
the last part, and what is left of that as its utility. -/
structure Candidate.IsFaithful (us : Utilities) (raw : String) (c : Candidate) : Prop where
  raw_eq : c.raw = raw
  length_variants : c.variants.length = separatorCount raw ':'
  variants_plain : ∀ v ∈ c.variants, v.IsPlain
  important_iff : c.important ↔
    Text.startsWith (lastPart raw ':') "!" ∨ Text.endsWith (lastPart raw ':') "!"
  form : ∃ s, IsMarked c.important s (lastPart raw ':') ∧ c.form.IsFaithful us s

section Modifier

variable {s name : String} {a : Argument} {modifier : Option Argument}

theorem Argument.Holds.isPlain {P : String → Prop} (h : a.Holds P) : a.IsPlain := by
  cases a with
  | named => exact h
  | arbitrary => trivial

private theorem spelling_of_readArgument? (h : readArgument? s = some a) :
    ∀ text ∈ a.spelling?, text = s := by
  obtain ⟨rfl, -⟩ | ⟨text, -, rfl⟩ := readArgument?_cases h
  · rintro _ ⟨⟩
    rfl
  · nofun

theorem isPlain_of_splitArgument? (h : splitArgument? s = some (name, modifier)) :
    ∀ a ∈ modifier, a.IsPlain := by
  exact fun m hm => ((isWithin_of_splitArgument? h).2 m hm).isPlain

theorem spelling_of_splitArgument? (h : splitArgument? s = some (name, modifier)) :
    ∀ text ∈ spellBehind? "/" (·.spelling?) modifier, name ++ text = s := by
  obtain ⟨source, hread, rfl⟩ := append_of_splitArgument? h
  cases source with
  | none =>
    cases hread
    rintro _ ⟨⟩
    rfl
  | some source =>
    obtain ⟨a, ha, rfl⟩ := Option.map_eq_some_iff.1 hread
    intro text htext
    obtain ⟨written, hwritten, rfl⟩ := Option.map_eq_some_iff.1 htext
    rw [spelling_of_readArgument? ha written hwritten]
    rfl

end Modifier

namespace Utilities

variable {us : Utilities} {s name : String} {modifier : Option Argument} {negative : Bool}
  {form : CandidateForm}

theorem spelling_plainValue (value : Option String) :
    spellBehind? "-" (·.spelling?) (value.map (plainValue · modifier)) =
      some (value.elim "" ("-" ++ ·)) := by
  cases value <;> rfl

private theorem hasFraction_plainValue (root : String) (value : Option String) :
    (CandidateForm.functional root (value.map (plainValue · modifier)) modifier
      negative).HasFraction := by
  cases value with
  | none => trivial
  | some value =>
    intro text
    split
    · next m =>
      rw [Option.some_inj]
      constructor
      · rintro rfl
        exact ⟨m, rfl, rfl⟩
      · rintro ⟨m', hm', rfl⟩
        cases hm'
        rfl
    · next hmodifier =>
      constructor
      · nofun
      · rintro ⟨m, rfl, -⟩
        exact absurd rfl (hmodifier m)

private theorem isFaithful_of_mem_readWithName (hat : us.has "@" .functional = false)
    (hmodifier : ∀ a ∈ modifier, a.IsPlain)
    (hspelled : ∀ text ∈ spellBehind? "/" (·.spelling?) modifier, name ++ text = s)
    (h : form ∈ us.readWithName name modifier negative) :
    form.IsFaithful us (sign negative ++ s) := by
  obtain ⟨root, value, hroot, hplain, rfl⟩ := mem_readWithName h
  obtain ⟨hknown, rfl⟩ := mem_findRoots hat hroot
  refine ⟨fun text htext => ?_, ⟨fun v hv => ?_, hmodifier⟩, hasFraction_plainValue root value, ?_⟩
  · rw [CandidateForm.spelling?, spelling_plainValue] at htext
    obtain ⟨_, hvalue, htext⟩ := Option.bind_eq_some_iff.1 htext
    obtain ⟨written, hwritten, htext⟩ := Option.bind_eq_some_iff.1 htext
    cases hvalue
    rw [← hspelled written hwritten]
    exact (Option.some.inj htext).symm
  · obtain ⟨value, rfl, rfl⟩ := Option.map_eq_some_iff.1 hv
    exact hplain
  · rintro _ _ ⟨⟩
    exact hknown

private theorem isFaithful_of_mem_readFunctional (hat : us.has "@" .functional = false)
    (h : form ∈ us.readFunctional s negative) : form.IsFaithful us (sign negative ++ s) := by
  obtain ⟨name, modifier, hsplit, ⟨root, text, hint, hknown, -, rfl⟩ | h⟩ := mem_readFunctional h
  · refine ⟨nofun, ⟨?_, isPlain_of_splitArgument? hsplit⟩, trivial, ?_⟩
    · rintro _ ⟨⟩
      trivial
    · rintro _ _ ⟨⟩
      exact hknown
  · exact isFaithful_of_mem_readWithName hat (isPlain_of_splitArgument? hsplit)
      (spelling_of_splitArgument? hsplit) h

private theorem isFaithful_of_readProperty? (h : readProperty? s = some form) :
    form.IsFaithful us s := by
  obtain ⟨⟨text, modifier⟩, hsplit, h⟩ := Option.bind_eq_some_iff.1 h
  obtain ⟨inner, -, h⟩ := Option.bind_eq_some_iff.1 h
  obtain ⟨⟨name, value⟩, -, h⟩ := Option.bind_eq_some_iff.1 h
  obtain ⟨-, h⟩ := Option.ite_none_right_eq_some.1 h
  cases h
  exact ⟨nofun, isPlain_of_splitArgument? hsplit, trivial, nofun⟩

private theorem isFaithful_of_mem_readForms (hat : us.has "@" .functional = false)
    (h : form ∈ us.readForms s) : form.IsFaithful us s := by
  rw [readForms] at h
  split at h
  · exact absurd h List.not_mem_nil
  · split at h
    · exact isFaithful_of_readProperty? (Option.mem_toList.1 h)
    · cases hcut : cutNegative s with
      | mk name negative =>
        obtain rfl := append_of_cutNegative hcut
        rw [hcut] at h
        rcases List.mem_append.1 h with h | h
        · obtain ⟨hstatic, h⟩ := List.mem_ite_nil_right.1 h
          obtain rfl := List.mem_singleton.1 h
          rw [Bool.and_eq_true] at hstatic
          refine ⟨?_, trivial, trivial, ?_⟩
          · rintro _ ⟨⟩
            rfl
          · rintro _ _ ⟨⟩
            exact hstatic.1
        · exact isFaithful_of_mem_readFunctional hat h

private theorem utility_of_mem_readFunctional (h : form ∈ us.readFunctional s negative) :
    ∃ root, form.utility? = some (.functional, root) := by
  obtain ⟨_, _, -, ⟨root, text, hint, -, -, rfl⟩ | h⟩ := mem_readFunctional h
  · exact ⟨root, rfl⟩
  · obtain ⟨root, value, -, -, rfl⟩ := mem_readWithName h
    exact ⟨root, rfl⟩

theorem nodup_toList (form? : Option CandidateForm) :
    (form?.toList.map (·.utility?)).Nodup := by
  cases form? with
  | none => exact List.nodup_nil
  | some form => exact List.nodup_singleton _

private theorem nodup_readWithName (hat : us.has "@" .functional = false) :
    ((us.readWithName name modifier negative).map (·.utility?)).Nodup := by
  have hroots : (us.readWithName name modifier negative).map (·.utility?) =
      (((findRoots (us.has · .functional) name).filter (·.2.all isPlainName)).map Prod.fst).map
        fun root => some (.functional, root) := by
    rw [readWithName_eq, List.map_map, List.map_map]
    rfl
  have hsub := (List.filter_sublist (p := (·.2.all isPlainName))
    (l := findRoots (us.has · .functional) name)).map Prod.fst
  rw [hroots]
  exact (hsub.nodup (nodup_findRoots hat)).map fun _ _ h => (Prod.mk.inj (Option.some.inj h)).2

theorem nodup_readFunctional (hat : us.has "@" .functional = false) :
    ((us.readFunctional s negative).map (·.utility?)).Nodup := by
  rw [readFunctional]
  split
  · exact List.nodup_nil
  · split
    · exact nodup_toList _
    · split
      · exact nodup_toList _
      · exact nodup_readWithName hat

private theorem nodup_readForms (hat : us.has "@" .functional = false) (s : String) :
    ((us.readForms s).map (·.utility?)).Nodup := by
  rw [readForms]
  split
  · exact List.nodup_nil
  · split
    · exact nodup_toList _
    · dsimp only
      split
      · rw [List.singleton_append, List.map_cons, List.nodup_cons]
        refine ⟨fun hmem => ?_, nodup_readFunctional hat⟩
        obtain ⟨form, hform, heq⟩ := List.mem_map.1 hmem
        obtain ⟨root, hroot⟩ := utility_of_mem_readFunctional hform
        rw [hroot] at heq
        cases heq
      · exact nodup_readFunctional hat

end Utilities

section Variants

variable {vs : Variants} {v : Variant}

private theorem isPlain_of_readArbitraryVariant? {inner : String}
    (h : readArbitraryVariant? inner = some v) :
    v.IsPlain := by
  rw [readArbitraryVariant?] at h
  obtain ⟨-, h⟩ := Option.ite_none_left_eq_some.1 h
  obtain ⟨-, h⟩ := Option.ite_none_left_eq_some.1 h
  cases h
  trivial

private theorem isPlain_of_read? {text : String} (h : vs.read? text = some v) : v.IsPlain := by
  refine Variants.readFrom?_induction ?_ ?_ ?_ ?_ (List.infix_refl text.toList) h
  · intro inner v _ h
    exact isPlain_of_readArbitraryVariant? h
  · intro root
    trivial
  · intro root value modifier hvalue hmodifier
    exact ⟨fun a ha => (hvalue a ha).isPlain, fun a ha => (hmodifier a ha).isPlain⟩
  · intro root modifier w hmodifier _ hw
    exact ⟨fun a ha => (hmodifier a ha).isPlain, hw⟩

end Variants

section Candidates

variable {us : Utilities} {vs : Variants} {raw : String} {c : Candidate}

/-- There is a variant for each separator, and the last part has no separator behind it. -/
theorem splitVariants_eq (raw : String) :
    (splitVariants raw).1.length = separatorCount raw ':' ∧
      (splitVariants raw).2 = lastPart raw ':' := by
  have hsep : Chars.IsSeparator ':' := by decide
  constructor
  · rw [splitVariants, List.length_dropLast, length_segment hsep, Nat.add_sub_cancel]
  · exact getLastD_segment hsep raw

private theorem isMarked_of_cutImportant {s text : String} {important : Bool}
    (h : cutImportant s = (text, important)) :
    IsMarked important text s ∧
      (important ↔ Text.startsWith s "!" ∨ Text.endsWith s "!") := by
  obtain ⟨rest, hs, hcut⟩ | ⟨hend, rest, hs, hcut⟩ | ⟨hend, hstart, hcut⟩ := cutImportant_cases s
  · cases h.symm.trans hcut
    refine ⟨.inl hs, fun _ => .inr (Text.endsWith_iff.2 ⟨_, hs⟩), fun _ => rfl⟩
  · cases h.symm.trans hcut
    exact ⟨.inr ⟨hend, hs⟩, fun _ => .inl (Text.startsWith_iff.2 ⟨_, hs⟩), fun _ => rfl⟩
  · cases h.symm.trans hcut
    rw [hend, hstart]
    exact ⟨rfl, nofun, nofun⟩

theorem isFaithful_of_mem_readCandidates (hat : us.has "@" .functional = false)
    (h : c ∈ readCandidates us vs raw) : c.IsFaithful us raw := by
  obtain ⟨text, hcut, hform, hraw, hvariants⟩ := mem_readCandidates h
  obtain ⟨hlength, hlast⟩ := splitVariants_eq raw
  rw [hlast] at hcut
  obtain ⟨hmarked, himportant⟩ := isMarked_of_cutImportant hcut
  have hvariantsLength := (forall₂_of_mapM hvariants).length_eq
  have hvariantsPlain : ∀ v ∈ c.variants, v.IsPlain := by
    intro v hv
    obtain ⟨part, -, hread⟩ := exists_of_mem_mapM hvariants hv
    exact isPlain_of_read? hread
  exact ⟨hraw, hvariantsLength.symm.trans hlength, hvariantsPlain, himportant, text, hmarked,
    Utilities.isFaithful_of_mem_readForms hat hform⟩

private theorem nodup_readCandidates (hat : us.has "@" .functional = false) :
    ((readCandidates us vs raw).map (·.form.utility?)).Nodup := by
  rw [readCandidates]
  dsimp only
  split
  · exact List.nodup_nil
  · split
    · exact List.nodup_nil
    · rw [List.map_map]
      exact Utilities.nodup_readForms hat _

/-- Without a functional utility `@`, every reading of a class name is faithful to it, and no two
readings have a utility of one kind and name. -/
theorem readCandidates_faithful (us : Utilities) (vs : Variants) (raw : String)
    (hat : us.has "@" .functional = false) :
    (∀ c ∈ readCandidates us vs raw, c.IsFaithful us raw) ∧
      ((readCandidates us vs raw).map (·.form.utility?)).Nodup :=
  ⟨fun _ h => isFaithful_of_mem_readCandidates hat h, nodup_readCandidates hat⟩

theorem readCandidates_faithful_margin :
    Utilities.builtin.has "@" .functional = false ∧
    ∃ c ∈ readCandidates Utilities.builtin (Variants.builtin {} .media) "hover:-mt-4!",
      c.IsFaithful Utilities.builtin "hover:-mt-4!" ∧ c.form.spelling? = some "-mt-4" := by
  have hat : Utilities.builtin.has "@" .functional = false := by decide +kernel
  have hmem : ⟨.functional "mt" (some (.named "4" none)) none true, [.static "hover"], true,
      "hover:-mt-4!"⟩ ∈
        readCandidates Utilities.builtin (Variants.builtin {} .media) "hover:-mt-4!" := by
    decide +kernel
  exact ⟨hat, _, hmem, (readCandidates_faithful _ _ _ hat).1 _ hmem, rfl⟩

end Candidates

end UtilityCss
