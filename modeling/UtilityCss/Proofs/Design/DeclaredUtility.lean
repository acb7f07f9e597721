import UtilityCss.Proofs.Design.Applied
import UtilityCss.Proofs.Text.Find
import UtilityCss.Proofs.Text.Nesting

/-!
# Class names of declared utilities

The name of a utility that a stylesheet declares and the class name that is to stand for its body are
read by rules of their own. Nothing in a name cuts it when it is read as a class name: it holds no
variant, no mark and no bracket, and it is looked up before a slash in it makes a modifier of what is
behind it. Only one dash in front is taken off as a sign, and then another name is looked up.
-/

namespace UtilityCss

/-- Whether a name is one dash in front of another name. -/
def IsNegation (name : String) : Prop := ∃ c rest, name.toList = '-' :: c :: rest ∧ c ≠ '-'

namespace UtilityName

section Name

variable {us : Utilities} {vs : Variants} {name : String}

theorem eq_fixed_of_readUtility {root : String} {body : List Node} {recipe : Recipe}
    (h : readUtility name body = .ok (root, recipe)) (hplain : Text.beforeTail? "-*" name = none) :
    isUtilityName name ∧ root = name ∧ recipe = .fixed body := by
  rw [readUtility, hplain] at h
  dsimp only at h
  split at h
  · next hname =>
    cases h
    exact ⟨hname, rfl, rfl⟩
  · cases h

theorem notMem_of_isUtilityName (h : isUtilityName name) {c : Char}
    (hc : (c.isAlphanum || ['-', '_', '.', '/'].contains c) = false) : c ∉ name.toList := by
  rw [isUtilityName] at h
  intro hmem
  split at h
  · cases h
  · simp only [Bool.and_eq_true, Text.all, List.all_eq_true] at h
    rw [h.2 c hmem] at hc
    cases hc

theorem splitVariants_of_isUtilityName (h : isUtilityName name) : splitVariants name = ([], name) := by
  have hspecial : ∀ c ∈ ['\\', ':', '"', '\'', '(', '[', '\x7b', ')', ']', '\x7d'],
      (c.isAlphanum || ['-', '_', '.', '/'].contains c) = false := by decide
  obtain ⟨hwhole, huncut⟩ : Chars.IsWhole name.toList ∧ Chars.IsUncut ':' {} name.toList :=
    Chars.isWhole_of_forall fun c hc hmem => notMem_of_isUtilityName h (hspecial c hmem) hc
  rw [splitVariants, segment, Chars.segment_of_isUncut hwhole huncut, List.map_singleton,
    String.ofList_toList]
  rfl

theorem cutImportant_of_isUtilityName (h : isUtilityName name) :
    cutImportant name = (name, false) := by
  have hmark : '!' ∉ name.toList := notMem_of_isUtilityName h rfl
  have hbehind : Text.beforeTail? "!" name = none :=
    congrArg (Option.map String.ofList) (Chars.isSuffixOf?_singleton_of_notMem hmark)
  have hfront : Text.afterLead? "!" name = none :=
    congrArg (Option.map String.ofList) (Chars.isPrefixOf?_singleton_of_notMem hmark)
  rw [cutImportant, hbehind, hfront]

theorem readCandidates_of_isUtilityName (h : isUtilityName name) :
    readCandidates us vs name = (us.readForms name).map (⟨·, [], false, name⟩) := by
  rw [readCandidates, splitVariants_of_isUtilityName h]
  dsimp only
  rw [cutImportant_of_isUtilityName h]
  rfl

theorem cutNegative_cases (name : String) :
    (¬ IsNegation name ∧ cutNegative name = (name, false)) ∨
      (IsNegation name ∧ ∃ s, name.toList = '-' :: s ∧ cutNegative name = (String.ofList s, true)) := by
  rw [cutNegative.eq_def, IsNegation]
  split
  · next c rest hname =>
    split
    · next hc =>
      refine .inl ⟨?_, rfl⟩
      rintro ⟨d, tail, htail, hd⟩
      obtain ⟨rfl, -⟩ : c = d ∧ rest = tail := by simpa [hname] using htail
      exact hd (eq_of_beq hc)
    · next hc => exact .inr ⟨⟨c, rest, hname, by simpa using hc⟩, c :: rest, hname, rfl⟩
  · next hname =>
    refine .inl ⟨?_, rfl⟩
    rintro ⟨c, rest, hrest, -⟩
    exact hname c rest hrest

private theorem isNegation_iff : IsNegation name ↔ (cutNegative name).2 := by
  obtain ⟨hsign, hcut⟩ | ⟨hsign, s, -, hcut⟩ := cutNegative_cases name
  · rw [hcut]
    exact ⟨fun h => absurd h hsign, nofun⟩
  · rw [hcut]
    exact ⟨fun _ => rfl, fun _ => hsign⟩

instance : DecidablePred IsNegation := fun _ => decidable_of_iff' _ isNegation_iff

theorem readForms_of_isUtilityName (h : isUtilityName name) {root : String} {negative : Bool}
    (hsign : cutNegative name = (root, negative)) :
    us.readForms name = (if us.has root .static then [.static root negative] else []) ++
      us.readFunctional root negative := by
  have hbracket : '[' ∉ name.toList := notMem_of_isUtilityName h rfl
  have hempty : name.isEmpty = false := by
    rw [← Bool.not_eq_true, String.isEmpty_iff]
    rintro rfl
    cases h
  have hproperty : Text.startsWith name "[" = false := by
    rw [← Bool.not_eq_true, Text.startsWith, List.isPrefixOf_iff_prefix]
    exact fun hlead => hbracket (hlead.subset (List.mem_singleton.2 rfl))
  have hroot : Text.containsChar root '[' = false := by
    rw [← Bool.not_eq_true, Text.containsChar, List.contains_iff_mem]
    rcases cutNegative_cases name with ⟨-, heq⟩ | ⟨-, s, hs, heq⟩
    · obtain ⟨rfl, -⟩ := Prod.mk.inj (heq.symm.trans hsign)
      exact hbracket
    · obtain ⟨rfl, -⟩ := Prod.mk.inj (heq.symm.trans hsign)
      rw [String.toList_ofList]
      exact fun hmem => hbracket (hs ▸ List.mem_cons_of_mem _ hmem)
  rw [Utilities.readForms, hempty, hproperty, hsign]
  simp [hroot]

end Name

end UtilityName

open UtilityName

private theorem findSome?_congr {α β : Type} {f g : α → Option β} {as : List α}
    (h : ∀ a ∈ as, f a = g a) :
    as.findSome? f = as.findSome? g := by
  induction as with
  | nil => rfl
  | cons a as ih =>
    obtain ⟨ha, has⟩ := List.forall_mem_cons.1 h
    rw [List.findSome?_cons, List.findSome?_cons, ha, ih has]

namespace Utilities

variable {us : Utilities} {t : Theme} {name n : String} {recipe : Recipe} {kind : UtilityKind}
  {c : Candidate}

theorem has_add : (us.add name recipe).has n kind =
    (us.has n kind || (recipe.kind == kind && name == n)) := by
  simp [add, has]

theorem readFunctional_congr {us' : Utilities} (h : ∀ n, us.has n .functional = us'.has n .functional) :
    us.readFunctional = us'.readFunctional := by
  funext s negative
  simp only [readFunctional, readWithArbitrary?, readWithName, h]

private theorem exists_of_mem_readFunctional {form : CandidateForm} {negative : Bool}
    (h : form ∈ us.readFunctional name negative) :
    ∃ root value modifier, form = .functional root value modifier negative := by
  obtain ⟨text, modifier, -, ⟨root, value, hint, -, -, rfl⟩ | h⟩ := mem_readFunctional h
  · exact ⟨root, _, modifier, rfl⟩
  · obtain ⟨root, value, -, -, rfl⟩ := mem_readWithName h
    exact ⟨root, _, modifier, rfl⟩

/-- What a recipe and its place in the cascade give, if it is of a kind and makes any nodes. -/
def given? (t : Theme) (kind : UtilityKind) (c : Candidate) (entry : Recipe × Nat) :
    Option (List Node × Nat) :=
  if entry.1.kind == kind then
    ((entry.1.nodes? t c).filter (!·.isEmpty)).map (·, entry.2)
  else none

theorem generate?_eq : us.generate? t n kind c = (us.recipes n).findSome? (given? t kind c) := by
  refine congrArg (List.findSome? · (us.recipes n)) (funext fun (recipe, order) => ?_)
  rw [given?]
  dsimp only
  cases recipe.kind == kind
  · rfl
  · cases recipe.nodes? t c with
    | none => rfl
    | some ns => cases ns <;> rfl

theorem generate?_add : (us.add name recipe).generate? t n kind c =
    (us.generate? t n kind c).or
      (if name == n then given? t kind c (recipe, us.entries.length) else none) := by
  have hrecipes : (us.add name recipe).recipes n =
      us.recipes n ++ if name == n then [(recipe, us.entries.length)] else [] := by
    rw [recipes, add, List.zipIdx_append, List.filterMap_append, recipes, List.zipIdx_singleton,
      List.filterMap_cons, Nat.zero_add]
    dsimp only
    cases name == n <;> rfl
  rw [generate?_eq, hrecipes, List.findSome?_append, ← generate?_eq]
  cases name == n
  · rfl
  · exact congrArg _ List.findSome?_singleton

private theorem generate?_add_of_name_ne (h : name ≠ n) :
    (us.add name recipe).generate? t n kind c = us.generate? t n kind c := by
  rw [generate?_add, beq_false_of_ne h]
  exact Option.or_none

private theorem generate?_add_of_kind_ne (h : recipe.kind ≠ kind) :
    (us.add name recipe).generate? t n kind c = us.generate? t n kind c := by
  have hgiven (order : Nat) : given? t kind c (recipe, order) = none :=
    if_neg (mt beq_iff_eq.1 h)
  rw [generate?_add, hgiven, ite_self]
  exact Option.or_none

private theorem generate?_of_has_eq_false (h : us.has n kind = false) :
    us.generate? t n kind c = none := by
  rw [has, List.any_eq_false] at h
  rw [generate?_eq, List.findSome?_eq_none_iff]
  intro entry hmem
  obtain ⟨⟨⟨m, recipe⟩, order⟩, hentry, hrecipe⟩ := List.mem_filterMap.1 hmem
  obtain ⟨hname, hrecipe⟩ := Option.ite_none_right_eq_some.1 hrecipe
  cases hrecipe
  have hkind := h (m, recipe) (List.fst_mem_of_mem_zipIdx hentry)
  dsimp only at hkind
  rw [hname, Bool.and_true] at hkind
  exact if_neg hkind

theorem generate?_add_fixed {body : List Node} (hnew : us.has name .static = false)
    (hc : c.negative = false) (hbody : body ≠ []) :
    (us.add name (.fixed body)).generate? t name .static c = some (body, us.entries.length) := by
  have hgiven : given? t .static c (.fixed body, us.entries.length) =
      some (body, us.entries.length) := by
    simp [given?, Recipe.kind, Recipe.nodes?, hc, hbody]
  rw [generate?_add, generate?_of_has_eq_false hnew, beq_self_eq_true, if_pos rfl, hgiven]
  rfl

end Utilities

namespace DesignSystem

variable {d : DesignSystem} {name root : String} {body : List Node} {recipe : Recipe}

/-- The design system with one more utility. -/
def withUtility (d : DesignSystem) (name : String) (recipe : Recipe) : DesignSystem :=
  { d with utilities := d.utilities.add name recipe }

/-- Under a name that is no negation a utility is found before all other readings. -/
theorem compile?_withUtility (hname : isUtilityName name) (hsign : ¬ IsNegation name)
    (hnew : d.utilities.has name .static = false) (hbody : body ≠ []) :
    ((d.withUtility name (.fixed body)).compile? name).map (·.nodes) = some body := by
  obtain ⟨-, hcut⟩ | ⟨hnegation, -⟩ := cutNegative_cases name
  · have hhas : (d.withUtility name (.fixed body)).utilities.has name .static := by
      rw [withUtility, Utilities.has_add]
      simp [Recipe.kind]
    have hgenerate : (d.withUtility name (.fixed body)).generate?
        ⟨.static name false, [], false, name⟩ = some (body, d.utilities.entries.length) :=
      Utilities.generate?_add_fixed hnew rfl hbody
    rw [compile?, candidates, readCandidates_of_isUtilityName hname,
      readForms_of_isUtilityName hname hcut, if_pos hhas, List.singleton_append, List.map_cons,
      List.findSome?_cons, compileReading?, hgenerate]
    rfl
  · exact absurd hnegation hsign

section Negation

variable {negative : Bool} (hname : isUtilityName name) (hcut : cutNegative name = (root, negative))
  (hne : name ≠ root)

include hname hcut hne

theorem candidates_withUtility :
    (d.withUtility name (.fixed body)).candidates name = d.candidates name := by
  have hstatic : (d.withUtility name (.fixed body)).utilities.has root .static =
      d.utilities.has root .static := by
    rw [withUtility, Utilities.has_add, beq_false_of_ne hne, Bool.and_false, Bool.or_false]
  have hfunctional : (d.withUtility name (.fixed body)).utilities.readFunctional =
      d.utilities.readFunctional :=
    Utilities.readFunctional_congr fun n => by
      rw [withUtility, Utilities.has_add]
      exact Bool.or_false _
  rw [candidates, candidates, readCandidates_of_isUtilityName hname,
    readCandidates_of_isUtilityName hname, readForms_of_isUtilityName hname hcut,
    readForms_of_isUtilityName hname hcut, hstatic, hfunctional]

theorem generate?_withUtility {c : Candidate} (hc : c ∈ d.candidates name) :
    (d.withUtility name (.fixed body)).generate? c = d.generate? c := by
  rw [candidates, readCandidates_of_isUtilityName hname, readForms_of_isUtilityName hname hcut] at hc
  obtain ⟨form, hform, rfl⟩ := List.mem_map.1 hc
  rcases List.mem_append.1 hform with hform | hform
  · split at hform
    · obtain rfl := List.mem_singleton.1 hform
      exact Utilities.generate?_add_of_name_ne hne
    · exact absurd hform List.not_mem_nil
  · obtain ⟨n, value, modifier, rfl⟩ := Utilities.exists_of_mem_readFunctional hform
    exact Utilities.generate?_add_of_kind_ne nofun

end Negation

/-- Under a name that is a negation a utility is not looked up. -/
theorem compile?_withUtility_of_isNegation (hname : isUtilityName name) (hsign : IsNegation name) :
    (d.withUtility name (.fixed body)).compile? name = d.compile? name := by
  obtain ⟨hplain, -⟩ | ⟨-, s, hs, hcut⟩ := cutNegative_cases name
  · exact absurd hsign hplain
  · have hne : name ≠ String.ofList s := by
      intro heq
      rw [heq, String.toList_ofList] at hs
      exact List.cons_ne_self _ _ hs.symm
    rw [compile?, compile?, candidates_withUtility hname hcut hne]
    refine findSome?_congr fun c hc => ?_
    rw [compileReading?, compileReading?, generate?_withUtility hname hcut hne hc]
    rfl

/-- A name that a stylesheet may declare a utility by stands for its body as a class name exactly if it
is no negation, or if it has stood for it before: the declaration of a negation changes nothing. -/
theorem compile?_declared_iff (h : readUtility name body = .ok (root, recipe))
    (hplain : Text.beforeTail? "-*" name = none) (hnew : d.utilities.has name .static = false)
    (hbody : body ≠ []) :
    (((d.withUtility root recipe).compile? name).map (·.nodes) = some body ↔
      ¬ IsNegation name ∨ (d.compile? name).map (·.nodes) = some body) ∧
    (IsNegation name → (d.withUtility root recipe).compile? name = d.compile? name) := by
  obtain ⟨hname, rfl, rfl⟩ := eq_fixed_of_readUtility h hplain
  by_cases hsign : IsNegation root
  · rw [compile?_withUtility_of_isNegation hname hsign, or_iff_right (not_not_intro hsign)]
    exact ⟨Iff.rfl, fun _ => rfl⟩
  · rw [compile?_withUtility hname hsign hnew hbody]
    exact ⟨⟨fun _ => .inl hsign, fun _ => rfl⟩, fun h => absurd h hsign⟩

theorem compile?_declared_iff_fraction :
    readUtility "w-1/2" [.plain "color" "red"] = .ok ("w-1/2", .fixed [.plain "color" "red"]) ∧
    (((builtin {} .media).withUtility "w-1/2" (.fixed [.plain "color" "red"])).compile? "w-1/2").map
      (·.nodes) = some [.plain "color" "red"] := by
  have hread : readUtility "w-1/2" [.plain "color" "red"] =
      .ok ("w-1/2", .fixed [.plain "color" "red"]) := rfl
  have hplain : Text.beforeTail? "-*" "w-1/2" = none := by decide
  have hnew : (builtin {} .media).utilities.has "w-1/2" .static = false := by decide +kernel
  have hsign : ¬ IsNegation "w-1/2" := by decide
  exact ⟨hread, (compile?_declared_iff hread hplain hnew (List.cons_ne_nil _ _)).1.2 (.inl hsign)⟩

/-- A negation that is declared, and whose class name stands for nothing. -/
theorem compile?_declared_eq_none :
    readUtility "-foo" [.plain "color" "red"] = .ok ("-foo", .fixed [.plain "color" "red"]) ∧
    Text.beforeTail? "-*" "-foo" = none ∧
    (builtin {} .media).utilities.has "-foo" .static = false ∧
    ((builtin {} .media).withUtility "-foo" (.fixed [.plain "color" "red"])).compile? "-foo" = none := by
  have hname : isUtilityName "-foo" := by decide
  have hsign : IsNegation "-foo" := by decide
  have hnone : (builtin {} .media).compile? "-foo" = none := by
    rw [← Option.isNone_iff_eq_none]
    decide +kernel
  refine ⟨rfl, by decide, by decide +kernel, ?_⟩
  rw [compile?_withUtility_of_isNegation hname hsign, hnone]

end DesignSystem

end UtilityCss
