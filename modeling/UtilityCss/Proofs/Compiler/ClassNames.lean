import UtilityCss.Proofs.Compiler.VariantBlock
import UtilityCss.Proofs.Design.Sort
import UtilityCss.Proofs.Stylesheet.Spot

/-!
# The rules for class names

The output depends on the set of the class names that stand for something, and the order of the
rules for two of them does not depend on the others. Of the marks for these rules, however many there
are and wherever they stand, a compiled stylesheet keeps the first, and its place is where the rules
are put. What is around it does not depend on the class names.
-/

namespace UtilityCss

theorem nodup_eraseDups {α : Type} [BEq α] [LawfulBEq α] (as : List α) : as.eraseDups.Nodup := by
  match as with
  | [] => exact List.nodup_nil
  | a :: as =>
    rw [List.eraseDups_cons]
    refine List.nodup_cons.2 ⟨?_, nodup_eraseDups _⟩
    simp [List.mem_eraseDups]
termination_by as.length
decreasing_by exact Nat.lt_succ_of_le (List.length_filter_le _ _)

section Mark

variable {ns : List Node} {s : Spot} {m : Node}

theorem not_isUtilitiesMark_rule (selector : String) (ns : List Node) :
    ¬ (Node.rule selector ns).isUtilitiesMark := Bool.false_ne_true

theorem not_isUtilitiesMark_atRule (name params : String) (ns : List Node) :
    ¬ (Node.atRule name params ns).isUtilitiesMark := Bool.false_ne_true

theorem keepFirst_of_isFirst (h : s.IsFirst Node.isUtilitiesMark ns m) :
    keepFirst Node.isUtilitiesMark ns = (s.without Node.isUtilitiesMark).fill [m] := by
  obtain ⟨rfl, hm, hbefore⟩ := h
  rw [keepFirst, placeEach_fill not_isUtilitiesMark_rule not_isUtilitiesMark_atRule hm hbefore]

theorem isFirst_keepFirst (h : s.IsFirst Node.isUtilitiesMark ns m) :
    (s.without Node.isUtilitiesMark).IsFirst Node.isUtilitiesMark
      (keepFirst Node.isUtilitiesMark ns) m := by
  refine ⟨keepFirst_of_isFirst h, h.2.1, ?_⟩
  rw [Spot.before_without]
  exact not_isMarker_removeEach not_isUtilitiesMark_rule not_isUtilitiesMark_atRule _

theorem placeAtFirst_of_isFirst (new : List Node) (h : s.IsFirst Node.isUtilitiesMark ns m) :
    (placeAtFirst Node.isUtilitiesMark new ns).1 = (s.without Node.isUtilitiesMark).fill new := by
  obtain ⟨rfl, hm, hbefore⟩ := h
  rw [placeAtFirst, placeEach_fill not_isUtilitiesMark_rule not_isUtilitiesMark_atRule hm hbefore]

end Mark

namespace Compiler

variable (c : Compiler)

/-- A trimmed text among some names that stands for something. -/
def IsCompiled (names : List String) (raw : String) : Prop :=
  raw ≠ "" ∧ (∃ name ∈ names, Text.trim name = raw) ∧ (c.system.compile? raw).isSome

theorem mem_classNames {names : List String} {raw : String} :
    raw ∈ classNames names ↔ raw ≠ "" ∧ ∃ name ∈ names, Text.trim name = raw := by
  rw [classNames]
  rw [List.mem_eraseDups, (sortBy_perm _).mem_iff, List.mem_filter, List.mem_map]
  simp [and_comm]

def unsorted (names : List String) : List CompiledCandidate :=
  (classNames names).filterMap c.system.compile?

theorem mem_unsorted {names : List String} {cc : CompiledCandidate} :
    cc ∈ c.unsorted names ↔
      c.IsCompiled names cc.candidate.raw ∧ c.system.compile? cc.candidate.raw = some cc := by
  rw [unsorted]
  rw [List.mem_filterMap]
  constructor
  · rintro ⟨raw, hraw, hcc⟩
    obtain rfl := c.system.raw_of_compile? hcc
    obtain ⟨hne, hmem⟩ := mem_classNames.1 hraw
    exact ⟨⟨hne, hmem, by rw [hcc]; rfl⟩, hcc⟩
  · rintro ⟨⟨hne, hmem, -⟩, hcc⟩
    exact ⟨_, mem_classNames.2 ⟨hne, hmem⟩, hcc⟩

theorem nodup_unsorted (names : List String) : (c.unsorted names).Nodup := by
  apply (nodup_eraseDups _).filterMap
  intro raw raw' cc h h'
  rw [← c.system.raw_of_compile? h, c.system.raw_of_compile? h']

theorem eq_of_compare {names : List String} :
    ∀ a ∈ c.unsorted names, ∀ b ∈ c.unsorted names, c.system.compare a b = .eq → a = b := by
  intro a ha b hb hab
  have hraw := c.system.raw_eq_of_compare hab
  have ha := (c.mem_unsorted.1 ha).2
  rw [hraw, (c.mem_unsorted.1 hb).2] at ha
  exact (Option.some.inj ha).symm

variable {c}

private theorem unsorted_subset {A B : List String}
    (h : ∀ raw, c.IsCompiled A raw → c.IsCompiled B raw) :
    c.unsorted A ⊆ c.unsorted B := by
  intro cc hcc
  obtain ⟨hA, hcc⟩ := c.mem_unsorted.1 hcc
  exact c.mem_unsorted.2 ⟨h _ hA, hcc⟩

theorem compiled_sublist {A B : List String} (h : ∀ raw, c.IsCompiled A raw → c.IsCompiled B raw) :
    (c.compiled A).Sublist (c.compiled B) :=
  sortBy_sublist_of_subperm (List.subperm_of_subset (c.nodup_unsorted A) (unsorted_subset h))
    c.eq_of_compare

theorem compiled_eq {A B : List String} (h : ∀ raw, c.IsCompiled A raw ↔ c.IsCompiled B raw) :
    c.compiled A = c.compiled B := by
  have hsub := compiled_sublist fun raw => (h raw).1
  exact hsub.eq_of_length_le (compiled_sublist fun raw => (h raw).2).length_le

variable (c)

/-- The rules are those for the names that stand for something, each once, in the order of the design
system. -/
theorem utilityRules_eq_map (names : List String) :
    ∃ cs : List CompiledCandidate, c.utilityRules names = cs.map (·.rule) ∧
      (∀ cc, cc ∈ cs ↔ c.IsCompiled names cc.candidate.raw ∧
        c.system.compile? cc.candidate.raw = some cc) ∧
      cs.Pairwise fun a b => c.system.compare a b = .lt := by
  have hperm : (c.compiled names).Perm (c.unsorted names) := sortBy_perm _
  refine ⟨c.compiled names, rfl, fun cc => hperm.mem_iff.trans c.mem_unsorted, ?_⟩
  have hsorted : (c.compiled names).Pairwise fun a b => (c.system.compare a b).isLE = true :=
    pairwise_sortBy _
  have hnodup : (c.compiled names).Nodup := hperm.nodup_iff.2 (c.nodup_unsorted names)
  refine (hsorted.and hnodup).imp_of_mem fun {a b} ha hb => ?_
  rintro ⟨hle, hne⟩
  cases hcompare : c.system.compare a b with
  | lt => rfl
  | eq => exact absurd (c.eq_of_compare a (hperm.subset ha) b (hperm.subset hb) hcompare) hne
  | gt =>
    rw [hcompare] at hle
    cases hle

/-- Names with the same compiled class names among them give the same stylesheet, and the rules for
fewer class names stand in the order that they have among the rules for more. -/
theorem build_congr_and_utilityRules_sublist (A B : List String) :
    ((∀ raw, c.IsCompiled A raw ↔ c.IsCompiled B raw) → c.build A = c.build B) ∧
      ((∀ raw, c.IsCompiled A raw → c.IsCompiled B raw) →
        (c.utilityRules A).Sublist (c.utilityRules B)) := by
  constructor
  · intro h
    unfold build output assembled utilityRules
    rw [compiled_eq h]
  · intro h
    exact (compiled_sublist h).map _

/-- Order, blanks and repetitions do not matter. -/
theorem build_congr_and_utilityRules_sublist_flex :
    let c : Compiler := ⟨.builtin {} .media, [.statement "tailwind" "utilities"], []⟩
    c.build ["flex", "md:p-4"] = c.build [" md:p-4 ", "", "flex", "flex"] ∧
      (c.utilityRules ["flex"]).Sublist (c.utilityRules ["flex", "md:p-4"]) := by
  intro c
  have hflex : Text.trim "flex" = "flex" := by decide
  have hp : Text.trim "md:p-4" = "md:p-4" := by decide
  have hp' : Text.trim " md:p-4 " = "md:p-4" := by decide
  have hempty : Text.trim "" = "" := by decide
  refine ⟨(c.build_congr_and_utilityRules_sublist _ _).1 ?_,
    (c.build_congr_and_utilityRules_sublist _ _).2 ?_⟩
  · intro raw
    simp only [IsCompiled, List.mem_cons, List.not_mem_nil, or_false, exists_eq_or_imp,
      exists_eq_left, hflex, hp, hp', hempty]
    grind
  · intro raw
    simp only [IsCompiled, List.mem_cons, List.not_mem_nil, or_false, exists_eq_or_imp,
      exists_eq_left, hflex, hp]
    grind

variable {c} {css base : String} {r : Resolver}

/-- The rules for class names stand at the place of the first mark of the expanded stylesheet and
nowhere else. Without a mark they are left out. All other nodes stay as they are, apart from the
further marks, which are removed. -/
theorem assembled_eq_fill (h : compile css base r = .ok c) :
    ∃ ns ms, authored css base r = .ok ns ∧ expand c.system ns = .ok ms ∧
      ((∀ n ∈ allNodes ms, ¬ n.isUtilitiesMark) →
        c.nodes = ms ∧ ∀ names, c.assembled names = ms) ∧
      ((∃ n ∈ allNodes ms, n.isUtilitiesMark) →
        ∃ s m, Spot.IsFirst Node.isUtilitiesMark ms s m) ∧
      ∀ s m, Spot.IsFirst Node.isUtilitiesMark ms s m →
        c.nodes = (s.without Node.isUtilitiesMark).fill [m] ∧
        ∀ names, c.assembled names =
          (s.without Node.isUtilitiesMark).fill (c.utilityRules names) := by
  obtain ⟨ns, ms, hns, hms, hnodes⟩ := exists_authored h
  refine ⟨ns, ms, hns, hms, fun hnone => ?_, exists_isFirst, fun s m hfirst => ?_⟩
  · have hkept : c.nodes = ms := by
      rw [hnodes, keepFirst, placeEach_of_forall_not _ hnone]
    refine ⟨hkept, fun names => ?_⟩
    rw [assembled, hkept, placeAtFirst, placeEach_of_forall_not _ hnone]
  · refine ⟨hnodes.trans (keepFirst_of_isFirst hfirst), fun names => ?_⟩
    rw [assembled, hnodes, placeAtFirst_of_isFirst _ (isFirst_keepFirst hfirst),
      Spot.without_without not_isUtilitiesMark_rule not_isUtilitiesMark_atRule]

def markedStyles : String :=
  "@media print \x7b .a \x7b color: red; \x7d @tailwind utilities; \x7d @tailwind utilities;"

/-- The rules for a class name are put into the block. -/
theorem assembled_eq_fill_print :
    ∃ (c : Compiler) (s : Spot) (m : Node), compile markedStyles "" .refusing = .ok c ∧
      m.isUtilitiesMark ∧ c.nodes = s.fill [m] ∧
      c.assembled ["flex"] = s.fill (c.utilityRules ["flex"]) := by
  obtain ⟨c, hc, hmark⟩ := exists_of_compile markedStyles
    (fun c => (allNodes c.nodes).any Node.isUtilitiesMark) (by decide +kernel)
  obtain ⟨n, hn, hnmark⟩ := List.any_eq_true.1 hmark
  obtain ⟨-, ms, -, -, hnone, hfirst, hplace⟩ := assembled_eq_fill hc
  obtain ⟨s, m, hsm⟩ : ∃ s m, Spot.IsFirst Node.isUtilitiesMark ms s m := by
    by_cases hmet : ∃ n ∈ allNodes ms, n.isUtilitiesMark
    · exact hfirst hmet
    · have hnot : ∀ n ∈ allNodes ms, ¬ n.isUtilitiesMark := fun n hn hmark => hmet ⟨n, hn, hmark⟩
      rw [(hnone hnot).1] at hn
      exact absurd hnmark (hnot n hn)
  exact ⟨c, _, m, hc, hsm.2.1, (hplace s m hsm).1, (hplace s m hsm).2 ["flex"]⟩

end Compiler

end UtilityCss
