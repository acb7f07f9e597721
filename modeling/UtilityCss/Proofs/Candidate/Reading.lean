import Mathlib.Data.List.Forall2
import UtilityCss.Candidate.Parser
import UtilityCss.Proofs.Candidate.Plain
import UtilityCss.Proofs.Candidate.Root
import UtilityCss.Proofs.Text.Find
import UtilityCss.Proofs.Text.Separator

/-!
# What a reading of a class name comes from

One lemma for each step in which a class name is read: what the step takes off, and what it leaves.
-/

namespace UtilityCss

def IsWithin (s t : String) : Prop := s.toList <:+: t.toList

/-- What a text in brackets of a class name stands for, as far as it is checked: the text decoded, or the
variable that it names. -/
inductive StandsFor (raw : String) : String → Prop where
  | decoded {inner : String} (hinner : IsWithin inner raw) (hplain : isPlainValue (decodeArbitrary inner)) :
    StandsFor raw (decodeArbitrary inner)
  | reference {inner : String} (hinner : IsWithin inner raw) (hbalanced : isBalanced inner) :
    StandsFor raw ("var(" ++ inner ++ ")")
  | decodedReference {inner : String} (hinner : IsWithin inner raw)
      (hbalanced : isBalanced (decodeArbitrary inner)) :
    StandsFor raw ("var(" ++ decodeArbitrary inner ++ ")")

def Argument.inBrackets? : Argument → Option String
  | named _ => none
  | arbitrary s => some s

/-- Whether a name is a plain one, or else a text in brackets is as asked. -/
def Argument.Holds (P : String → Prop) : Argument → Prop
  | named s => isPlainName s
  | arbitrary s => P s

section Within

variable {s t raw text opening closing inner : String}

theorem IsWithin.trans (h : IsWithin s t) (ht : IsWithin t raw) : IsWithin s raw :=
  List.IsInfix.trans h ht

theorem isWithin_of_eq {u v : String} (h : t = u ++ s ++ v) : IsWithin s t :=
  ⟨u.toList, v.toList, by rw [h]; simp⟩

theorem StandsFor.mono (h : StandsFor s text) (hs : IsWithin s raw) : StandsFor raw text := by
  cases h with
  | decoded hinner hplain => exact .decoded (hinner.trans hs) hplain
  | reference hinner hbalanced => exact .reference (hinner.trans hs) hbalanced
  | decodedReference hinner hbalanced => exact .decodedReference (hinner.trans hs) hbalanced

theorem isWithin_of_between? (h : between? opening closing s = some inner) : IsWithin inner s := by
  obtain ⟨rest, hrest, h⟩ := Option.bind_eq_some_iff.1 h
  rw [Text.afterLead?_eq_some_iff.1 hrest, Text.beforeTail?_eq_some_iff.1 h]
  exact isWithin_of_eq (String.append_assoc ..).symm

theorem isWithin_splitTypeHint (s : String) : IsWithin (splitTypeHint s).2 s := by
  rw [splitTypeHint]
  split
  · next rest hrest =>
    split
    · exact List.infix_refl _
    · have hbehind : ':' :: rest <:+ s.toList := hrest ▸ List.drop_suffix ..
      rw [IsWithin, String.toList_ofList]
      exact ((List.suffix_cons ':' rest).trans hbehind).isInfix
  · exact List.infix_refl _

end Within

section Parts

variable {s name text raw : String} {a : Argument} {modifier : Option Argument} {P Q : String → Prop}

theorem Argument.Holds.imp (h : a.Holds P) (hPQ : ∀ s ∈ a.inBrackets?, P s → Q s) : a.Holds Q := by
  cases a with
  | named => exact h
  | arbitrary => exact hPQ _ rfl h

/-- A name is read as it is written. -/
theorem readArgument?_cases (h : readArgument? s = some a) :
    (a = .named s ∧ isPlainName s) ∨ ∃ text, StandsFor s text ∧ a = .arbitrary text := by
  rw [readArgument?] at h
  split at h
  · next hinner =>
    obtain ⟨hplain, h⟩ := Option.ite_none_right_eq_some.1 h
    exact .inr ⟨_, .decoded (isWithin_of_between? hinner) hplain, (Option.some.inj h).symm⟩
  · next hinner =>
    obtain ⟨hname, h⟩ := Option.ite_none_right_eq_some.1 h
    rw [isVariableName, Bool.and_eq_true] at hname
    exact .inr ⟨_, .reference (isWithin_of_between? hinner) hname.2, (Option.some.inj h).symm⟩
  · obtain ⟨hplain, h⟩ := Option.ite_none_right_eq_some.1 h
    exact .inl ⟨(Option.some.inj h).symm, hplain⟩

private theorem holds_of_readArgument? (h : readArgument? s = some a) : a.Holds (StandsFor s) := by
  obtain ⟨rfl, hplain⟩ | ⟨text, hstands, rfl⟩ := readArgument?_cases h
  · exact hplain
  · exact hstands

theorem holds_of_readOptional? {text : Option String} (h : readOptional? text = some modifier)
    (hwithin : ∀ s ∈ text, IsWithin s raw) : ∀ a ∈ modifier, a.Holds (StandsFor raw) := by
  cases text with
  | none =>
    cases h
    nofun
  | some s =>
    obtain ⟨a, ha, rfl⟩ := Option.map_eq_some_iff.1 h
    rintro _ ⟨⟩
    exact (holds_of_readArgument? ha).imp fun _ _ hstands => hstands.mono (hwithin s rfl)

private theorem standsFor_expandVariable (hwithin : IsWithin text s)
    (hplain : isPlainValue (decodeArbitrary text)) :
    StandsFor s (expandVariable (decodeArbitrary text)) := by
  rw [expandVariable]
  split
  · exact .decodedReference hwithin (isPlainValue_iff.1 hplain).2.1
  · exact .decoded hwithin hplain

theorem exists_of_readArbitrary? {value : CandidateValue} (h : readArbitrary? s = some value) :
    ∃ text hint, StandsFor s text ∧ value = .arbitrary text hint := by
  rw [readArbitrary?] at h
  cases hsquare : between? "[" "]" s with
  | some inner =>
    have hwithin := (isWithin_splitTypeHint inner).trans (isWithin_of_between? hsquare)
    simp only [hsquare] at h
    generalize splitTypeHint inner = typed at h hwithin
    obtain ⟨hplain, h⟩ := Option.ite_none_right_eq_some.1 h
    exact ⟨_, _, standsFor_expandVariable hwithin hplain, (Option.some.inj h).symm⟩
  | none =>
    cases hround : between? "(" ")" s with
    | some inner =>
      have hwithin := (isWithin_splitTypeHint inner).trans (isWithin_of_between? hround)
      simp only [hsquare, hround] at h
      generalize splitTypeHint inner = typed at h hwithin
      obtain ⟨hname, h⟩ := Option.ite_none_right_eq_some.1 h
      rw [isVariableName, Bool.and_eq_true] at hname
      exact ⟨_, _, .decodedReference hwithin (isBalanced_decodeArbitrary hname.2),
        (Option.some.inj h).symm⟩
    | none =>
      simp only [hsquare, hround] at h
      cases h

theorem Chars.append_of_splitModifier? {s name : List Char} {modifier : Option (List Char)}
    (h : splitModifier? s = some (name, modifier)) : s = name ++ modifier.elim [] ('/' :: ·) := by
  have hjoin := join_segmentFrom '/' {} s
  rw [splitModifier?, segment] at h
  split at h
  · next hparts =>
    cases h
    obtain ⟨rfl, hnone⟩ := List.cons.inj hparts
    rw [hnone] at hjoin
    exact hjoin.symm
  · next hparts =>
    cases h
    obtain ⟨rfl, hone⟩ := List.cons.inj hparts
    rw [hone] at hjoin
    simpa using hjoin.symm
  · cases h

private theorem Chars.isInfix_name_of_splitModifier? {s name : List Char}
    {modifier : Option (List Char)}
    (h : splitModifier? s = some (name, modifier)) : name <:+: s := by
  rw [append_of_splitModifier? h]
  exact (List.prefix_append ..).isInfix

private theorem Chars.isInfix_modifier_of_splitModifier? {s name modifier : List Char}
    (h : splitModifier? s = some (name, some modifier)) : modifier <:+: s := by
  rw [append_of_splitModifier? h]
  exact ((List.suffix_cons _ _).trans (List.suffix_append ..)).isInfix

/-- The modifier is behind a slash. -/
theorem append_of_splitArgument? (h : splitArgument? s = some (name, modifier)) :
    ∃ text, readOptional? text = some modifier ∧ s = name ++ text.elim "" ("/" ++ ·) := by
  obtain ⟨⟨front, rest⟩, hsplit, h⟩ := Option.bind_eq_some_iff.1 h
  obtain ⟨read, hread, h⟩ := Option.bind_eq_some_iff.1 h
  cases h
  refine ⟨_, hread, ?_⟩
  rw [← String.toList_inj, Chars.append_of_splitModifier? hsplit, String.toList_append,
    String.toList_ofList]
  cases rest with
  | none => rfl
  | some rest => simp

/-- The mark behind a text is taken off before the one in front of it. -/
theorem cutImportant_cases (s : String) :
    (∃ text, s = text ++ "!" ∧ cutImportant s = (text, true)) ∨
    (Text.endsWith s "!" = false ∧ ∃ text, s = "!" ++ text ∧ cutImportant s = (text, true)) ∨
    (Text.endsWith s "!" = false ∧ Text.startsWith s "!" = false ∧ cutImportant s = (s, false)) := by
  have hnotBehind (h : Text.beforeTail? "!" s = none) : Text.endsWith s "!" = false := by
    rw [← Bool.not_eq_true, Text.endsWith_iff]
    rintro ⟨rest, hrest⟩
    rw [Text.beforeTail?_eq_some_iff.2 hrest] at h
    cases h
  have hnotFront (h : Text.afterLead? "!" s = none) : Text.startsWith s "!" = false := by
    rw [← Bool.not_eq_true, Text.startsWith_iff]
    rintro ⟨rest, hrest⟩
    rw [Text.afterLead?_eq_some_iff.2 hrest] at h
    cases h
  rw [cutImportant]
  split
  · next rest hbehind => exact .inl ⟨rest, Text.beforeTail?_eq_some_iff.1 hbehind, rfl⟩
  · next rest hbehind hfront =>
    exact .inr (.inl ⟨hnotBehind hbehind, rest, Text.afterLead?_eq_some_iff.1 hfront, rfl⟩)
  · next hbehind hfront => exact .inr (.inr ⟨hnotBehind hbehind, hnotFront hfront, rfl⟩)

/-- A sign is a dash. -/
theorem append_of_cutNegative {negative : Bool} (h : cutNegative s = (name, negative)) :
    s = (if negative then "-" else "") ++ name := by
  rw [cutNegative.eq_def] at h
  split at h
  · next c rest hs =>
    split at h
    · cases h
      exact (String.empty_append).symm
    · cases h
      rw [← String.toList_inj, hs]
      simp
  · cases h
    exact (String.empty_append).symm

end Parts

namespace Utilities

variable {us : Utilities} {s name : String} {modifier : Option Argument} {negative : Bool}
  {form : CandidateForm}

/-- Every split of the name into a known root and a plain value or none is a reading. -/
theorem readWithName_eq : us.readWithName name modifier negative =
    ((findRoots (us.has · .functional) name).filter (·.2.all isPlainName)).map fun (root, value) =>
      .functional root (value.map (plainValue · modifier)) modifier negative := by
  rw [readWithName, ← List.filterMap_eq_map, List.filterMap_filter]
  congr 1
  funext (root, value)
  cases value with
  | none => rfl
  | some value => rfl

theorem mem_readWithName (h : form ∈ us.readWithName name modifier negative) :
    ∃ root value, (root, value) ∈ findRoots (us.has · .functional) name ∧ value.all isPlainName ∧
      form = .functional root (value.map (plainValue · modifier)) modifier negative := by
  rw [readWithName_eq] at h
  obtain ⟨⟨root, value⟩, hmem, rfl⟩ := List.mem_map.1 h
  obtain ⟨hroot, hplain⟩ := List.mem_filter.1 hmem
  exact ⟨root, value, hroot, hplain, rfl⟩

theorem of_readWithArbitrary? {opening : String}
    (h : us.readWithArbitrary? opening name modifier negative = some form) :
    ∃ root text hint, us.has root .functional ∧ StandsFor name text ∧
      form = .functional root (some (.arbitrary text hint)) modifier negative := by
  obtain ⟨⟨root, rest⟩, hcut, h⟩ := Option.bind_eq_some_iff.1 h
  obtain ⟨hroot, h⟩ := Option.ite_none_right_eq_some.1 h
  obtain ⟨value, hvalue, h⟩ := Option.bind_eq_some_iff.1 h
  obtain ⟨text, hint, hstands, rfl⟩ := exists_of_readArbitrary? hvalue
  have hwithin : IsWithin (opening ++ rest) name := by
    refine isWithin_of_eq (u := root ++ "-") (v := "") ?_
    rw [Text.append_of_cutPhrase hcut]
    simp only [String.append_assoc, String.append_empty]
  exact ⟨root, text, hint, hroot, hstands.mono hwithin, (Option.some.inj h).symm⟩

/-- A functional utility is read with a value in brackets in one way, or else with a name. -/
theorem mem_readFunctional (h : form ∈ us.readFunctional s negative) :
    ∃ name modifier, splitArgument? s = some (name, modifier) ∧
      ((∃ root text hint, us.has root .functional ∧ StandsFor name text ∧
        form = .functional root (some (.arbitrary text hint)) modifier negative) ∨
      form ∈ us.readWithName name modifier negative) := by
  rw [readFunctional] at h
  split at h
  · exact absurd h List.not_mem_nil
  · next name modifier hsplit =>
    refine ⟨name, modifier, hsplit, ?_⟩
    split at h
    · exact .inl (of_readWithArbitrary? (Option.mem_toList.1 h))
    · split at h
      · exact .inl (of_readWithArbitrary? (Option.mem_toList.1 h))
      · exact .inr h

end Utilities

namespace Variants

variable {vs : Variants} {v : Variant} {P : Variant → Prop}

theorem assemble?_cases {root : String} {value modifier : Option String} {inner : Option Variant}
    (h : vs.assemble? root value modifier inner = some v) :
    v = .static root ∨
    (∃ value' modifier', readOptional? value = some value' ∧
      readOptional? modifier = some modifier' ∧ v = .functional root value' modifier') ∨
    ∃ w ∈ inner, vs.compoundsWith root w ∧
      ∃ modifier', readOptional? modifier = some modifier' ∧ v = .compound root modifier' w := by
  obtain ⟨kind, -, h⟩ := Option.bind_eq_some_iff.1 h
  cases kind with
  | static =>
    obtain ⟨-, h⟩ := Option.ite_none_left_eq_some.1 h
    exact .inl (Option.some.inj h).symm
  | functional =>
    obtain ⟨value', hvalue, h⟩ := Option.bind_eq_some_iff.1 h
    obtain ⟨modifier', hmodifier, h⟩ := Option.bind_eq_some_iff.1 h
    exact .inr (.inl ⟨value', modifier', hvalue, hmodifier, (Option.some.inj h).symm⟩)
  | compound =>
    obtain ⟨w, hw, h⟩ := Option.bind_eq_some_iff.1 h
    obtain ⟨hcompounds, h⟩ := Option.ite_none_right_eq_some.1 h
    obtain ⟨modifier', hmodifier, h⟩ := Option.bind_eq_some_iff.1 h
    exact .inr (.inr ⟨w, hw, hcompounds, modifier', hmodifier, (Option.some.inj h).symm⟩)

/-- What holds of variants in brackets and of names, and of a compound if it holds of the variant
inside, holds of all variants that are read somewhere in a text. -/
theorem readFrom?_induction {raw : String}
    (arbitrary : ∀ inner v, IsWithin inner raw → readArbitraryVariant? inner = some v → P v)
    (static : ∀ root, P (.static root))
    (functional : ∀ root value modifier, (∀ a ∈ value, a.Holds (StandsFor raw)) →
      (∀ a ∈ modifier, a.Holds (StandsFor raw)) → P (.functional root value modifier))
    (compound : ∀ root modifier w, (∀ a ∈ modifier, a.Holds (StandsFor raw)) →
      vs.compoundsWith root w → P w → P (.compound root modifier w))
    {input : List Char} (hwithin : input <:+: raw.toList) (h : vs.readFrom? input = some v) : P v := by
  fun_induction vs.readFrom? input generalizing v with
  | case1 input inner hinner =>
    refine arbitrary inner v ((isWithin_of_between? hinner).trans ?_) h
    rwa [IsWithin, String.toList_ofList]
  | case2 => cases h
  | case3 => cases h
  | case4 input _ name modifier hsplit known root value hroot =>
    rename_i ih
    have hname : name <:+: raw.toList :=
      (Chars.isInfix_name_of_splitModifier? hsplit).trans hwithin
    have hbehind (value : List Char) (hvalue : (root, some value) ∈ Chars.findRoots known name) :
        value <:+: raw.toList :=
      (Chars.isInfix_of_mem_findRoots hvalue).trans hname
    have hvalues {value : Option (List Char)} (hvalue : ∀ s ∈ value, s <:+: raw.toList) :
        ∀ s ∈ value.map String.ofList, IsWithin s raw := by
      intro _ htext
      obtain ⟨s, hs, rfl⟩ := Option.map_eq_some_iff.1 htext
      rw [IsWithin, String.toList_ofList]
      exact hvalue s hs
    have hmodifiers : ∀ s ∈ modifier.map String.ofList, IsWithin s raw := by
      refine hvalues fun s hs => ?_
      rw [Option.mem_def.1 hs] at hsplit
      exact (Chars.isInfix_modifier_of_splitModifier? hsplit).trans hwithin
    have hmem := List.mem_of_mem_head? hroot
    obtain rfl | ⟨value', modifier', hvalue, hmodifier, rfl⟩ |
      ⟨w, hw, hcompounds, modifier', hmodifier, rfl⟩ := assemble?_cases h
    · exact static _
    · refine functional _ _ _ (holds_of_readOptional? hvalue (hvalues fun s hs => hbehind s ?_))
        (holds_of_readOptional? hmodifier hmodifiers)
      rwa [Option.mem_def.1 hs] at hmem
    · refine compound _ _ w (holds_of_readOptional? hmodifier hmodifiers) hcompounds ?_
      cases value with
      | none => exact absurd hw (Option.not_mem_none w)
      | some value => exact ih value hroot (hbehind value hmem) hw

end Variants

theorem forall₂_of_mapM {α β : Type} {f : α → Option β} {as : List α} {bs : List β}
    (h : as.mapM f = some bs) : List.Forall₂ (fun a b => f a = some b) as bs := by
  induction as generalizing bs with
  | nil =>
    cases h
    exact .nil
  | cons a as ih =>
    rw [List.mapM_cons] at h
    obtain ⟨b, hb, h⟩ := Option.bind_eq_some_iff.1 h
    obtain ⟨bs', hbs', h⟩ := Option.bind_eq_some_iff.1 h
    cases h
    exact .cons hb (ih hbs')

theorem exists_of_mem_mapM {α β : Type} {f : α → Option β} {as : List α} {bs : List β}
    (h : as.mapM f = some bs) {b : β} (hb : b ∈ bs) : ∃ a ∈ as, f a = some b := by
  have hall := forall₂_of_mapM h
  clear h
  induction hall with
  | nil => exact absurd hb List.not_mem_nil
  | cons hread hrest ih =>
    rcases List.mem_cons.1 hb with rfl | hb
    · exact ⟨_, List.mem_cons_self, hread⟩
    · obtain ⟨a, ha, hread⟩ := ih hb
      exact ⟨a, List.mem_cons_of_mem _ ha, hread⟩

section Candidates

variable {us : Utilities} {vs : Variants} {raw : String} {c : Candidate}

/-- A reading of a class name is a reading of what is left behind the variants and without the mark,
with a reading of each variant. -/
theorem mem_readCandidates (h : c ∈ readCandidates us vs raw) :
    ∃ text, cutImportant (splitVariants raw).2 = (text, c.important) ∧ c.form ∈ us.readForms text ∧
      c.raw = raw ∧ (splitVariants raw).1.mapM vs.read? = some c.variants := by
  cases hcut : cutImportant (splitVariants raw).2 with
  | mk text important =>
    rw [readCandidates] at h
    dsimp only at h
    rw [hcut] at h
    split at h
    · exact absurd h List.not_mem_nil
    · split at h
      · exact absurd h List.not_mem_nil
      · next variants hvariants =>
        obtain ⟨form, hform, rfl⟩ := List.mem_map.1 h
        exact ⟨text, rfl, hform, rfl, hvariants⟩

theorem of_mem_readCandidates (h : c ∈ readCandidates us vs raw) :
    ∃ text, c.form ∈ us.readForms text ∧ c.raw = raw ∧
      ∀ v ∈ c.variants, ∃ text ∈ (splitVariants raw).1, vs.read? text = some v := by
  obtain ⟨text, -, hform, hraw, hvariants⟩ := mem_readCandidates h
  exact ⟨text, hform, hraw, fun v hv => exists_of_mem_mapM hvariants hv⟩

end Candidates

end UtilityCss
