import UtilityCss.Proofs.Stylesheet.Spot
import UtilityCss.Proofs.Text.Blank
import UtilityCss.Stylesheet.Property

/-!
# What becomes of definitions of properties

A definition is taken out of a forest with all that is inside it, and nothing else is. Of several
definitions of a name the first one in document order counts. What is written for the registered
properties defines each of them once: taking the definitions out of that gives the same registry, and
leaves the block that sets the properties to their initial values.
-/

namespace UtilityCss

/-- A node in a forest with the heads of the nodes around it, the outermost one first. -/
structure Situated where
  around : List Node
  node : Node

mutual

def Node.situated : Node → List Situated
  | .rule sel ns => ⟨[], .rule sel ns⟩ :: (situatedNodes ns).map fun p =>
    ⟨.rule sel [] :: p.around, p.node⟩
  | .atRule name params ns => ⟨[], .atRule name params ns⟩ :: (situatedNodes ns).map fun p =>
    ⟨.atRule name params [] :: p.around, p.node⟩
  | n => [⟨[], n⟩]

/-- All nodes of a forest in document order. -/
def situatedNodes : List Node → List Situated
  | [] => []
  | n :: ns => n.situated ++ situatedNodes ns

end

/-- Whether a node defines a property. -/
def Node.definesProperty (n : Node) : Bool := n.property?.isSome

namespace Situated

/-- What a node is by itself, behind what is around it. -/
def path (p : Situated) : List Node := p.around ++ [p.node.head]

def isOutside (p : Situated) : Bool := p.around.all (!·.definesProperty)

def inside (n : Node) (p : Situated) : Situated := ⟨n.head :: p.around, p.node⟩

end Situated

/-- All nodes of a forest by themselves, in document order. -/
def outline (ns : List Node) : List (List Node) := (situatedNodes ns).map Situated.path

/-- The definitions of properties that are not inside of other ones, in document order. -/
def outerDefinitions (ns : List Node) : List (String × PropertyDefinition) :=
  ((situatedNodes ns).filter Situated.isOutside).filterMap (·.node.property?)

/-- Whether a name begins as that of a custom property, and has no white space at its ends. -/
def IsVariableName (name : String) : Prop := Text.startsWith name "--" ∧ Text.trim name = name

namespace PropertyRegistry

/-- The registries into which the definitions of forests are taken, one forest after the other. -/
inductive IsExtracted : PropertyRegistry → Prop
  | empty : IsExtracted []
  | extract {r : PropertyRegistry} (h : IsExtracted r) (ns : List Node) :
    IsExtracted (extractProperties r ns).2

/-- What holds of the names in a registry. -/
structure IsProper (r : PropertyRegistry) : Prop where
  nodup : (r.map Prod.fst).Nodup
  named : ∀ p ∈ r, IsVariableName p.1

end PropertyRegistry

section Forest

variable {n : Node} {ns ms : List Node}

theorem situatedNodes_cons (n : Node) (ns : List Node) : situatedNodes (n :: ns) =
    ⟨[], n⟩ :: ((situatedNodes n.children).map (Situated.inside n) ++ situatedNodes ns) := by
  cases n <;> rfl

theorem outline_cons (n : Node) (ns : List Node) : outline (n :: ns) =
    [n.head] :: ((outline n.children).map (n.head :: ·) ++ outline ns) := by
  rw [outline, situatedNodes_cons, List.map_cons, List.map_append, List.map_map, outline, outline,
    List.map_map]
  rfl

theorem Node.definesProperty_withChildren (n : Node) (ns : List Node) :
    (n.withChildren ns).definesProperty = n.definesProperty := by
  cases n with
  | atRule name params inner =>
    rw [withChildren, definesProperty, definesProperty, property?, property?, isAt, isAt, atName?,
      atName?]
    split
    · dsimp only
      split <;> rfl
    · rfl
  | _ => rfl

theorem Node.definesProperty_head (n : Node) : n.head.definesProperty = n.definesProperty :=
  n.definesProperty_withChildren []

theorem Node.children_removeEach (p : Node → Bool) (n : Node) :
    (n.withChildren (removeEach p n.children)).children = removeEach p n.children := by
  cases n <;> rfl

theorem withoutProperties_eq (ns : List Node) :
    withoutProperties ns = removeEach Node.definesProperty ns := rfl

private theorem not_definesProperty_removeEach (ns : List Node) :
    ∀ n ∈ allNodes (removeEach Node.definesProperty ns), ¬ n.definesProperty := by
  induction ns using forest_induction with
  | nil => exact nofun
  | cons n ns ihn ih =>
    rw [removeEach_cons, forall_allNodes_append]
    refine ⟨?_, ih⟩
    split
    · exact nofun
    · next hn =>
      rw [forall_allNodes_cons, Node.definesProperty_withChildren, Node.children_removeEach]
      exact ⟨hn, ihn, nofun⟩

theorem outline_removeEach (ns : List Node) : outline (removeEach Node.definesProperty ns) =
    (outline ns).filter fun path => path.all (!·.definesProperty) := by
  induction ns using forest_induction with
  | nil => rfl
  | cons n ns ihn ih =>
    have hinner : (fun path => path.all (!·.definesProperty)) ∘ (n.head :: ·) =
        fun path : List Node => !n.definesProperty && path.all (!·.definesProperty) :=
      funext fun path => by simp [Node.definesProperty_head]
    rw [removeEach_cons, outline_cons, List.filter_cons, List.filter_append, List.filter_map, hinner,
      ← ih]
    cases hn : n.definesProperty with
    | true => simp [Node.definesProperty_head, hn]
    | false =>
      rw [if_neg Bool.false_ne_true, List.singleton_append, outline_cons, Node.children_removeEach, ihn,
        Node.head_withChildren]
      simp [Node.definesProperty_head, hn]

private theorem outerDefinitions_cons (n : Node) (ns : List Node) : outerDefinitions (n :: ns) =
    n.property?.toList ++ ((if n.definesProperty then [] else outerDefinitions n.children) ++
      outerDefinitions ns) := by
  have hinner : Situated.isOutside ∘ Situated.inside n = fun p => !n.definesProperty && p.isOutside :=
    funext fun p => by simp [Situated.isOutside, Situated.inside, Node.definesProperty_head]
  have hself : Situated.isOutside ⟨[], n⟩ := rfl
  rw [outerDefinitions, situatedNodes_cons, List.filter_cons, if_pos hself, List.filter_append,
    List.filter_map, hinner, List.filterMap_cons, List.filterMap_append, List.filterMap_map,
    outerDefinitions, outerDefinitions]
  dsimp only
  cases hp : n.property? with
  | none => simp [Node.definesProperty, hp, Function.comp_def, Situated.inside]
  | some p => simp [Node.definesProperty, hp]

private theorem definedProperties_eq (ns : List Node) :
    definedProperties ns = outerDefinitions ns := by
  induction ns using forest_induction with
  | nil => rfl
  | cons n ns ihn ih =>
    rw [definedProperties, visited_cons, outerDefinitions_cons, ← ih, ← ihn, List.filterMap_cons,
      List.filterMap_append]
    cases hp : n.property? with
    | none => simp [Node.definesProperty, hp, definedProperties]
    | some p => simp [Node.definesProperty, hp, definedProperties]

end Forest

section Registry

variable {r : PropertyRegistry} {p : String × PropertyDefinition}
  {ps : List (String × PropertyDefinition)} {name : String}

theorem any_fst_eq_true_iff : r.any (·.1 == name) ↔ name ∈ r.map Prod.fst := by
  rw [List.any_eq_true, List.mem_map]
  exact exists_congr fun p => and_congr_right fun _ => beq_iff_eq

private theorem lookup_register :
    (r.register p).lookup name = (r.lookup name).or ([p].lookup name) := by
  rw [PropertyRegistry.register]
  split
  · next h =>
    obtain ⟨key, definition⟩ := p
    cases hfound : r.lookup name with
    | some => rfl
    | none =>
      obtain ⟨q, hq, rfl⟩ := List.mem_map.1 (any_fst_eq_true_iff.1 h)
      have hne : (name == q.1) = false := by
        simpa using List.lookup_eq_none_iff.1 hfound q hq
      rw [List.lookup_cons, hne]
      rfl
  · exact List.lookup_append

theorem lookup_foldl_register (r : PropertyRegistry) (ps : List (String × PropertyDefinition))
    (name : String) :
    (ps.foldl PropertyRegistry.register r).lookup name = (r.lookup name).or (ps.lookup name) := by
  induction ps generalizing r with
  | nil => exact (Option.or_none).symm
  | cons p ps ih =>
    rw [List.foldl_cons, ih, lookup_register, Option.or_assoc, ← List.lookup_append]
    rfl

theorem map_fst_foldl_register (r : PropertyRegistry) (ps : List (String × PropertyDefinition)) :
    (ps.foldl PropertyRegistry.register r).map Prod.fst = r.map Prod.fst ++
      ((ps.map Prod.fst).filter (· ∉ r.map Prod.fst)).eraseDups := by
  induction ps generalizing r with
  | nil => simp
  | cons p ps ih =>
    rw [List.foldl_cons, ih, PropertyRegistry.register, List.map_cons, List.filter_cons]
    by_cases hp : p.1 ∈ r.map Prod.fst
    · rw [if_pos (any_fst_eq_true_iff.2 hp), if_neg (by simpa using hp)]
    · have hnew : ((ps.map Prod.fst).filter (· ∉ (r ++ [p]).map Prod.fst)) =
          ((ps.map Prod.fst).filter (· ∉ r.map Prod.fst)).filter (!· == p.1) := by
        rw [List.filter_filter, List.map_append]
        refine List.filter_congr fun name _ => ?_
        have hmem : name ∈ r.map Prod.fst ++ [p].map Prod.fst ↔ name = p.1 ∨ name ∈ r.map Prod.fst := by
          rw [List.mem_append, or_comm]
          exact or_congr_left List.mem_singleton
        grind
      rw [if_neg (mt any_fst_eq_true_iff.1 hp), if_pos (by simpa using hp), List.eraseDups_cons, hnew,
        List.map_append, List.map_singleton, List.append_assoc]
      rfl

/-- Definitions of distinct new names are all added. -/
theorem foldl_register_eq_append (h : ((r ++ ps).map Prod.fst).Nodup) :
    ps.foldl PropertyRegistry.register r = r ++ ps := by
  induction ps generalizing r with
  | nil => exact (List.append_nil r).symm
  | cons p ps ih =>
    have hnew : p.1 ∉ r.map Prod.fst := by
      rw [List.map_append, List.nodup_append] at h
      exact fun hmem => h.2.2 p.1 hmem p.1 List.mem_cons_self rfl
    rw [List.foldl_cons, PropertyRegistry.register, if_neg (mt any_fst_eq_true_iff.1 hnew), ih]
    · exact List.append_assoc r [p] ps
    · rwa [List.append_assoc]

theorem PropertyRegistry.IsProper.register (h : r.IsProper) (hp : IsVariableName p.1) :
    (r.register p).IsProper := by
  rw [PropertyRegistry.register]
  split
  · exact h
  · next hnew =>
    refine ⟨?_, List.forall_mem_append.2 ⟨h.named, List.forall_mem_singleton.2 hp⟩⟩
    rw [List.map_append, List.nodup_append]
    refine ⟨h.nodup, List.pairwise_singleton _ _, ?_⟩
    rintro name hmem _ hname rfl
    rw [List.map_singleton, List.mem_singleton] at hname
    exact hnew (any_fst_eq_true_iff.2 (hname ▸ hmem))

end Registry

section Name

variable {s : String} {n : Node} {ns : List Node} {p : String × PropertyDefinition}
  {r : PropertyRegistry}

private theorem isVariableName_trim (h : Text.startsWith s "--") :
    IsVariableName (Text.trim s) := by
  obtain ⟨t, ht⟩ := List.isPrefixOf_iff_prefix.1 h
  have htrim : Chars.trim s.toList = "--".toList ++ Chars.trimEnd t := by
    rw [← ht]
    exact (Chars.trim_cons rfl _).trans (congrArg _ (Chars.trimEnd_cons rfl t))
  refine ⟨?_, ?_⟩
  · simp [Text.startsWith, Text.trim, htrim]
  · rw [Text.trim, Text.trim, String.toList_ofList, Chars.trim_trim]

private theorem isVariableName_of_property? (h : n.property? = some p) : IsVariableName p.1 := by
  unfold Node.property? at h
  dsimp only at h
  obtain ⟨-, h⟩ := Option.ite_none_right_eq_some.1 h
  obtain ⟨hlead, h⟩ := Option.ite_none_right_eq_some.1 h
  rw [← Option.some.inj h]
  exact isVariableName_trim hlead

theorem PropertyRegistry.IsProper.extract (h : r.IsProper) (ns : List Node) :
    (extractProperties r ns).2.IsProper :=
  List.foldlRecOn (definedProperties ns) PropertyRegistry.register h fun _ hr p hp => by
    obtain ⟨n, -, hproperty⟩ := List.mem_filterMap.1 hp
    exact hr.register (isVariableName_of_property? hproperty)

private theorem PropertyRegistry.IsExtracted.isProper (h : r.IsExtracted) : r.IsProper := by
  induction h with
  | empty => exact ⟨List.nodup_nil, List.forall_mem_nil _⟩
  | extract _ ns ih => exact ih.extract ns

end Name

section Emission

variable {name : String} {r : PropertyRegistry} {ns : List Node} {enter : Node → Bool}

private theorem property?_atRule (h : Text.startsWith name "--") (ns : List Node) :
    (Node.atRule "property" name ns).property? = some (Text.trim name, .ofNodes ns) :=
  (if_pos rfl).trans (if_pos h)

theorem property?_node (h : IsVariableName name) (d : PropertyDefinition) :
    (d.node name).property? = some (name, d) := by
  obtain ⟨hlead, htrim⟩ := h
  rw [PropertyDefinition.node, property?_atRule hlead, htrim]
  obtain ⟨grammar, inherits, initial⟩ := d
  cases inherits <;> cases initial <;> rfl

theorem not_definesProperty_decls (hns : ∀ n ∈ ns, n.isDecl) :
    ∀ n ∈ allNodes ns, ¬ n.definesProperty := by
  induction ns with
  | nil => exact nofun
  | cons n ns ih =>
    obtain ⟨hn, hrest⟩ := List.forall_mem_cons.1 hns
    cases n with
    | decl => exact forall_allNodes_cons.2 ⟨Bool.false_ne_true, nofun, ih hrest⟩
    | _ => cases hn

theorem not_definesProperty_propertyFallback (r : PropertyRegistry) :
    ∀ n ∈ allNodes [propertyFallback r], ¬ n.definesProperty := by
  have hsupports : ¬ (propertyFallback r).definesProperty := Bool.false_ne_true
  have hdecls : ∀ n ∈ r.map fun p => Node.plain p.1 (p.2.initial.getD "initial"), n.isDecl := by
    intro n hn
    obtain ⟨p, -, rfl⟩ := List.mem_map.1 hn
    rfl
  have hnil : ∀ n ∈ allNodes [], ¬ n.definesProperty := List.forall_mem_nil _
  refine forall_allNodes_cons.2 ⟨hsupports, forall_allNodes_cons.2 ⟨Bool.false_ne_true,
    forall_allNodes_cons.2 ⟨Bool.false_ne_true, not_definesProperty_decls hdecls, hnil⟩, hnil⟩, hnil⟩

private theorem removeEach_eq_nil {p : Node → Bool} (h : ∀ n ∈ ns, p n) : removeEach p ns = [] := by
  induction ns with
  | nil => rfl
  | cons n ns ih =>
    obtain ⟨hn, hns⟩ := List.forall_mem_cons.1 h
    rw [removeEach_cons, if_pos hn, ih hns]
    rfl

theorem filterMap_property?_eq_nil (h : ∀ n ∈ ns, ¬ n.definesProperty) :
    ns.filterMap Node.property? = [] := by
  refine List.filterMap_eq_nil_iff.2 fun n hn => ?_
  simpa [Node.definesProperty] using h n hn

private theorem isDecl_of_mem_children_node {name : String} {d : PropertyDefinition} {n : Node}
    (h : n ∈ (d.node name).children) : n.isDecl := by
  obtain ⟨grammar, inherits, initial⟩ := d
  cases initial with
  | none =>
    rcases List.mem_pair.1 h with rfl | rfl <;> rfl
  | some value =>
    rcases List.mem_cons.1 h with rfl | h
    · rfl
    · rcases List.mem_pair.1 h with rfl | rfl <;> rfl

theorem filterMap_visited_nodes (h : ∀ p ∈ r, IsVariableName p.1) :
    (visited enter (r.map fun (name, d) => d.node name)).filterMap Node.property? = r := by
  induction r with
  | nil => rfl
  | cons p r ih =>
    obtain ⟨hp, hr⟩ := List.forall_mem_cons.1 h
    have hinner : (if enter (p.2.node p.1) then visited enter (p.2.node p.1).children else []).filterMap
        Node.property? = [] := by
      split
      · exact filterMap_property?_eq_nil fun n hn => not_definesProperty_decls
          (fun _ => isDecl_of_mem_children_node) n ((visited_sublist _ _).subset hn)
      · rfl
    rw [List.map_cons, visited_cons, List.filterMap_cons, List.filterMap_append, ih hr, hinner,
      property?_node hp]
    rfl

theorem filterMap_visited_propertyNodes (h : r.IsProper) (enter : Node → Bool) :
    (visited enter (propertyNodes r)).filterMap Node.property? = r := by
  rw [propertyNodes]
  split
  · next hempty => exact (List.isEmpty_iff.1 hempty).symm
  · rw [← List.singleton_append, visited_append, List.filterMap_append, filterMap_visited_nodes h.named,
      filterMap_property?_eq_nil fun n hn =>
        not_definesProperty_propertyFallback r n ((visited_sublist _ _).subset hn)]
    rfl

private theorem extractProperties_propertyNodes (h : r.IsProper) (hr : r ≠ []) :
    extractProperties [] (propertyNodes r) = ([propertyFallback r], r) := by
  have hnodes : propertyNodes r = [propertyFallback r] ++ r.map fun (name, d) => d.node name :=
    if_neg (mt List.isEmpty_iff.1 hr)
  have hdefine : ∀ n ∈ r.map fun (name, d) => d.node name, n.definesProperty := by
    intro n hn
    obtain ⟨p, hp, rfl⟩ := List.mem_map.1 hn
    rw [Node.definesProperty, property?_node (h.named p hp)]
    rfl
  have hdefined : definedProperties (propertyNodes r) = r := filterMap_visited_propertyNodes h _
  have hrest : withoutProperties (propertyNodes r) = [propertyFallback r] := by
    rw [withoutProperties_eq, hnodes, removeEach_append,
      removeEach_eq_self (not_definesProperty_propertyFallback r), removeEach_eq_nil hdefine,
      List.append_nil]
  rw [extractProperties, hrest, hdefined, foldl_register_eq_append]
  · rfl
  · exact h.nodup

end Emission

/-- Taking the definitions of properties out of a forest leaves none at any depth, and every other node
that is not inside of one, in order and under the same nodes. The registry gets the distinct names of
the definitions that it has no definition of yet, in the order of their first definitions, and these
count. What is written for the registered properties defines each of them once: taking the definitions
out of it gives the registry back, and leaves the block that sets the initial values. -/
theorem extractProperties_complete_inverse :
    (∀ (r : PropertyRegistry) (ns : List Node),
      (∀ n ∈ allNodes (extractProperties r ns).1, ¬ n.definesProperty) ∧
      outline (extractProperties r ns).1 =
        ((outline ns).filter fun path => path.all (!·.definesProperty)) ∧
      (extractProperties r ns).2.map Prod.fst = r.map Prod.fst ++
        (((outerDefinitions ns).map Prod.fst).filter (· ∉ r.map Prod.fst)).eraseDups ∧
      ∀ name, (extractProperties r ns).2.get? name =
        (r.get? name).or ((outerDefinitions ns).lookup name)) ∧
    ∀ r : PropertyRegistry, r.IsExtracted → r ≠ [] →
      extractProperties [] (propertyNodes r) = ([propertyFallback r], r) ∧
      (allNodes (propertyNodes r)).filterMap Node.property? = r ∧ (r.map Prod.fst).Nodup := by
  refine ⟨fun r ns => ?_, fun r hr hne => ?_⟩
  · rw [← definedProperties_eq]
    exact ⟨not_definesProperty_removeEach ns, outline_removeEach ns, map_fst_foldl_register r _,
      lookup_foldl_register r _⟩
  · have hproper := hr.isProper
    exact ⟨extractProperties_propertyNodes hproper hne, filterMap_visited_propertyNodes hproper _,
      hproper.nodup⟩

/-- A property that is defined twice, the first time with a definition inside, and one behind it. -/
def blurForest : List Node :=
  [.rule ".blur"
      [.atRule "property" "--blur" [.plain "initial-value" "0", .atRule "property" "--inner" []],
        .plain "filter" "blur(var(--blur))"],
    .atRule "property" "--blur" [.plain "syntax" "\"<length>\""], .atRule "property" "--ring " []]

theorem extractProperties_complete_inverse_blur :
    (extractProperties [] blurForest).2 =
      [("--blur", { initial := some "0" }), ("--ring", {})] ∧
    outline (extractProperties [] blurForest).1 =
      [[.rule ".blur" []], [.rule ".blur" [], .plain "filter" "blur(var(--blur))"]] ∧
    PropertyRegistry.IsExtracted (extractProperties [] blurForest).2 ∧
    (extractProperties [] blurForest).2 ≠ [] ∧
    extractProperties [] (propertyNodes (extractProperties [] blurForest).2) =
      ([propertyFallback (extractProperties [] blurForest).2],
        (extractProperties [] blurForest).2) := by
  have hextracted : PropertyRegistry.IsExtracted (extractProperties [] blurForest).2 :=
    .extract .empty blurForest
  have hne : (extractProperties [] blurForest).2 ≠ [] := by decide
  exact ⟨by decide, rfl, hextracted, hne,
    (extractProperties_complete_inverse.2 _ hextracted hne).1⟩

end UtilityCss
