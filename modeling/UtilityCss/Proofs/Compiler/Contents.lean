import UtilityCss.Proofs.Compiler.Variables
import UtilityCss.Proofs.Stylesheet.Flatten
import UtilityCss.Proofs.Stylesheet.Property

/-!
# Where the nodes of the output come from

What is asked of a node without what is inside it holds of all nodes of the output exactly if it
holds of the compiled stylesheet, of the rules for class names, of the variables and keyframes that
the theme adds and of the definitions of properties.
-/

namespace UtilityCss

open Flatten

/-- Whether a node is no definition of a property, of which the output keeps the definition only. -/
def Node.isKept (n : Node) : Bool := n.property?.isNone

/-- Whether a predicate holds of all nodes outside the definitions of properties. -/
def KeptHold (P : Node → Prop) (ns : List Node) : Prop :=
  ∀ n ∈ visited Node.isKept ns, n.isKept → P n

section Forest

variable {P : Node → Prop} {isMarker : Node → Bool} {n : Node} {ns ms new : List Node}

private theorem keptHold_nil : KeptHold P [] := nofun

private theorem keptHold_cons : KeptHold P (n :: ns) ↔
    (n.isKept → P n ∧ KeptHold P n.children) ∧ KeptHold P ns := by
  rw [KeptHold, visited_cons, List.forall_mem_cons, List.forall_mem_append, ← and_assoc]
  refine and_congr ?_ Iff.rfl
  cases n.isKept with
  | true => simp [KeptHold]
  | false => simp

theorem keptHold_congr {Q : Node → Prop} (h : ∀ n, P n ↔ Q n) : KeptHold P ns ↔ KeptHold Q ns :=
  forall₂_congr fun n _ => imp_congr_right fun _ => h n

theorem Node.isKept_withChildren (n : Node) (ns : List Node) :
    (n.withChildren ns).isKept = n.isKept := by
  have hkept (n : Node) : n.isKept = !n.definesProperty := by simp [isKept, definesProperty]
  rw [hkept, hkept, definesProperty_withChildren]

theorem forall_withoutProperties (hP : IsOfHead P) :
    (∀ m ∈ allNodes (withoutProperties ns), P m) ↔ KeptHold P ns := by
  have hkept (n : Node) : n.isKept = !n.property?.isSome := by simp [Node.isKept]
  refine (forall_replaceEach hP).trans ?_
  rw [and_iff_left fun _ => nofun, KeptHold, funext hkept]
  simp only [Bool.not_eq_true', Bool.not_eq_true]

private theorem forall_localRule (hrule : ∀ sel ns, P (.rule sel ns)) (ps : List String)
    (ns : List Node) :
    (∀ m ∈ allNodes (localRule (some ps) ns), P m) ↔ ∀ n ∈ ns, n.isLocal → P n := by
  have hlocals : allNodes (ns.filter Node.isLocal) = ns.filter Node.isLocal :=
    locals_induction rfl (fun _ _ _ _ ih => congrArg (_ :: ·) ih) (fun _ _ ih => congrArg (_ :: ·) ih)
      _ fun _ => isLocal_of_mem_filter
  have hfilter : (∀ n ∈ ns.filter Node.isLocal, P n) ↔ ∀ n ∈ ns, n.isLocal → P n := by
    simp [List.mem_filter]
  rw [← hfilter, localRule]
  split
  · next hnone =>
    rw [List.isEmpty_iff.1 hnone]
    simp
  · rw [forall_allNodes_cons, Node.children, hlocals]
    simp [hrule]

theorem forall_block (hrule : ∀ sel ns, P (.rule sel ns)) (parents : Option (List String))
    (ns : List Node) :
    (∀ m ∈ allNodes (localRule parents ns ++ flattenEach parents ns), P m) ↔
      (∀ m ∈ allNodes (flattenEach parents ns), P m) ∧ ∀ n ∈ ns, n.isLocal → P n := by
  rw [forall_allNodes_append]
  cases parents with
  | some ps => rw [forall_localRule hrule, and_comm]
  | none =>
    refine ⟨fun h => ⟨h.2, fun n hn hlocal => h.2 n (mem_allNodes_of_mem ?_)⟩,
      fun h => ⟨nofun, h.1⟩⟩
    have hkept := filter_isLocal_flattenEach none ns
    rw [Option.isSome_none, if_neg Bool.false_ne_true] at hkept
    have hmem := List.mem_filter.2 ⟨hn, hlocal⟩
    rw [← hkept] at hmem
    exact (List.mem_filter.1 hmem).1

/-- A node is flattened to what it is and holds, apart from rules, if that is so for its block. A
declaration or comment inside parents is left to the rule that these form. -/
theorem forall_node_flatten (hP : IsOfHead P) (hrule : ∀ sel ns, P (.rule sel ns))
    (parents : Option (List String))
    (hblock : ∀ parents, (∀ m ∈ allNodes (localRule parents n.children ++
      flattenEach parents n.children), P m) ↔ ∀ m ∈ allNodes n.children, P m) :
    ((∀ m ∈ allNodes (n.flatten parents), P m) ∧ (n.isLocal → P n)) ↔
      P n ∧ ∀ m ∈ allNodes n.children, P m := by
  have hleaf {n : Node} (hinner : n.children = []) :
      ((∀ m ∈ allNodes (if parents.isSome && n.isLocal then [] else [n]), P m) ∧
        (n.isLocal → P n)) ↔ P n ∧ ∀ m ∈ allNodes n.children, P m := by
    rw [hinner]
    split
    · next h => simp [(Bool.and_eq_true ..).mp h]
    · rw [forall_allNodes_singleton, hinner]
      simp +contextual
  cases n with
  | rule sel inner =>
    rw [Node.children] at hblock ⊢
    rw [Node.flatten, hblock]
    simp [hrule]
  | atRule name params inner =>
    rw [Node.children] at hblock ⊢
    have hlocal : (Node.atRule name params inner).isLocal = false := rfl
    rw [Node.flatten, hlocal]
    split
    · have hhead := hP (.atRule name params inner) (localRule parents inner ++ flattenEach parents inner)
      rw [Node.withChildren] at hhead
      rw [forall_allNodes_singleton, Node.children, hblock, hhead]
      simp
    · rw [forall_allNodes_singleton]
      simp [Node.children]
  | statement => exact hleaf rfl
  | decl => exact hleaf rfl
  | comment => exact hleaf rfl

theorem forall_flattenEach (hP : IsOfHead P) (hrule : ∀ sel ns, P (.rule sel ns))
    (parents : Option (List String)) (ns : List Node) :
    ((∀ m ∈ allNodes (flattenEach parents ns), P m) ∧ ∀ n ∈ ns, n.isLocal → P n) ↔
      ∀ n ∈ allNodes ns, P n := by
  induction ns using forest_induction generalizing parents with
  | nil => simp [flattenEach, allNodes, visited]
  | cons n ns ihn ih =>
    have hnode := forall_node_flatten hP hrule parents fun parents =>
      (forall_block hrule parents n.children).trans (ihn parents)
    rw [flattenEach, forall_allNodes_append, List.forall_mem_cons, forall_allNodes_cons,
      ← ih parents, ← and_assoc (a := P n), ← hnode]
    exact and_and_and_comm

theorem forall_flatten (hP : IsOfHead P) (hrule : ∀ sel ns, P (.rule sel ns)) :
    (∀ m ∈ allNodes (flatten ns), P m) ↔ ∀ n ∈ allNodes ns, P n :=
  (forall_block hrule none ns).trans (forall_flattenEach hP hrule none ns)

theorem snd_placeEach (f g : Node → List Node) (met : Bool) (ns : List Node) :
    (placeEach isMarker f met ns).2 = (placeEach isMarker g met ns).2 := by
  induction ns using forest_induction generalizing met with
  | nil => rfl
  | cons n ns ihn ih =>
    rw [placeEach_cons, placeEach_cons, Node.placeAtFirst_eq, Node.placeAtFirst_eq]
    split
    · exact ih true
    · dsimp only
      rw [ihn, ih]

/-- Where nodes are put in the place of the first marker, a predicate holds of all that is visited
if it holds of what is visited besides the markers and, if the first one is, of the nodes. -/
theorem forall_placeEach {enter : Node → Bool} (hP : IsOfHead P)
    (hmarker : ∀ n ns, isMarker (n.withChildren ns) = isMarker n)
    (hleaf : ∀ n, isMarker n → n.children = [])
    (henter : ∀ n ns, enter (n.withChildren ns) = enter n) (met : Bool) :
    (∀ m ∈ visited enter (placeEach isMarker (fun _ => new) met ns).1, P m) ↔
      (∀ n ∈ visited enter ns, ¬ isMarker n → P n) ∧
        ((∃ m ∈ visited enter (placeEach isMarker (fun n => [n]) met ns).1, isMarker m) →
          ∀ m ∈ visited enter new, P m) := by
  induction ns using forest_induction generalizing met with
  | nil => simp [placeEach, visited]
  | cons n ns ihn ih =>
    rw [placeEach_cons, placeEach_cons, Node.placeAtFirst_eq, Node.placeAtFirst_eq,
      forall_visited_cons]
    by_cases hmark : isMarker n
    · rw [if_pos hmark, if_pos hmark, hleaf n hmark]
      have hkeep : ∀ m ∈ visited enter [], ¬ isMarker m → P m := by simp [visited]
      have hrest := ih true
      cases met with
      | true =>
        refine hrest.trans (and_congr_left' ⟨fun h => ⟨absurd hmark, fun _ => hkeep, h⟩, ?_⟩)
        exact fun h => h.2.2
      | false =>
        have hfound : ∃ m ∈ visited enter ([n] ++ (placeEach isMarker (fun n => [n]) true ns).1),
            isMarker m :=
          ⟨n, by rw [List.singleton_append, visited_cons]; exact List.mem_cons_self, hmark⟩
        dsimp only
        rw [if_neg Bool.false_ne_true, if_neg Bool.false_ne_true, visited_append,
          List.forall_mem_append, hrest]
        constructor
        · rintro ⟨hnew, h, -⟩
          exact ⟨⟨absurd hmark, fun _ => hkeep, h⟩, fun _ => hnew⟩
        · rintro ⟨⟨-, -, h⟩, hnew⟩
          exact ⟨hnew hfound, h, fun _ => hnew hfound⟩
    · rw [if_neg hmark, if_neg hmark]
      dsimp only
      rw [List.singleton_append, List.singleton_append, forall_visited_cons, exists_visited_cons,
        snd_placeEach (fun n => [n]) (fun _ => new), Node.children_placeEach,
        Node.children_placeEach, henter, henter, hmarker, hP, ihn, ih]
      constructor
      · rintro ⟨hn, hinner, hns, hrest⟩
        refine ⟨⟨fun _ => hn, fun henter => (hinner henter).1, hns⟩, ?_⟩
        rintro (hself | ⟨henter, hfound⟩ | hfound)
        · exact absurd hself hmark
        · exact (hinner henter).2 hfound
        · exact hrest hfound
      · rintro ⟨⟨hn, hinner, hns⟩, hnew⟩
        exact ⟨hn hmark, fun henter => ⟨hinner henter, fun h => hnew (.inr (.inl ⟨henter, h⟩))⟩, hns,
          fun h => hnew (.inr (.inr h))⟩

/-- Removing the markers but the first loses nothing if the predicate holds of markers. -/
theorem forall_keepEach {enter : Node → Bool} (hP : IsOfHead P) (hmarker : ∀ n, isMarker n → P n)
    (hleaf : ∀ n, isMarker n → n.children = [])
    (henter : ∀ n ns, enter (n.withChildren ns) = enter n) (met : Bool) :
    (∀ m ∈ visited enter (placeEach isMarker (fun n => [n]) met ns).1, P m) ↔
      ∀ n ∈ visited enter ns, P n := by
  induction ns using forest_induction generalizing met with
  | nil => exact Iff.rfl
  | cons n ns ihn ih =>
    rw [placeEach_cons, Node.placeAtFirst_eq]
    dsimp only
    rw [visited_append, List.forall_mem_append, ih, forall_visited_cons, ← and_assoc]
    refine and_congr ?_ Iff.rfl
    by_cases hmark : isMarker n
    · have hinner : ∀ m ∈ visited enter [], P m := nofun
      rw [if_pos hmark, hleaf n hmark]
      cases met with
      | true => exact ⟨fun _ => ⟨hmarker n hmark, fun _ => hinner⟩, fun _ => hinner⟩
      | false =>
        rw [if_neg Bool.false_ne_true, forall_visited_cons, hleaf n hmark]
        simp [visited]
    · rw [if_neg hmark, forall_visited_cons, Node.children_placeEach, henter, hP, ihn]
      simp [visited]

end Forest

@[simp]
theorem Node.isThemeMark_withChildren (n : Node) (ns : List Node) :
    (n.withChildren ns).isThemeMark = n.isThemeMark := by
  cases n <;> rfl

@[simp]
theorem Node.isUtilitiesMark_withChildren (n : Node) (ns : List Node) :
    (n.withChildren ns).isUtilitiesMark = n.isUtilitiesMark := by
  cases n <;> rfl

private theorem Node.children_of_isThemeMark {n : Node} (h : n.isThemeMark) : n.children = [] := by
  cases n with
  | statement => rfl
  | _ => exact absurd h Bool.false_ne_true

theorem Node.children_of_isUtilitiesMark {n : Node} (h : n.isUtilitiesMark) : n.children = [] := by
  cases n with
  | statement => rfl
  | _ => exact absurd h Bool.false_ne_true

namespace Compiler

variable {P : Node → Prop} (c : Compiler) (names : List String)

/-- Whether the rules for class names have a place outside of the definitions of properties. -/
def PlacesRules : Prop :=
  ∃ m ∈ visited Node.isKept (keepFirst Node.isUtilitiesMark c.nodes), m.isUtilitiesMark

/-- The properties that are defined for the output. -/
def registry : PropertyRegistry :=
  (definedProperties (c.assembled names)).foldl PropertyRegistry.register []

variable {c names} {ns : List Node}

private theorem forall_variableRule (hrule : ∀ sel ns, P (.rule sel ns)) :
    (∀ n ∈ allNodes (c.variableRule ns), P n) ↔
      ∀ e ∈ c.declaredEntries ns, P (.plain e.key e.value) := by
  have hdecls (es : List ThemeEntry) :
      (∀ n ∈ allNodes (es.map fun e => Node.plain e.key e.value), P n) ↔
        ∀ e ∈ es, P (.plain e.key e.value) := by
    rw [allNodes_decls, List.forall_mem_map]
  rw [variableRule_eq]
  split
  · next hnone =>
    rw [List.isEmpty_iff.1 hnone]
    simp
  · rw [forall_allNodes_singleton, Node.children, hdecls]
    simp [hrule]

theorem forall_withTheme (hP : IsOfHead P) :
    (∀ m ∈ allNodes (c.withTheme ns), P m) ↔
      (∀ n ∈ allNodes ns, ¬ n.isThemeMark → P n) ∧ ∀ n ∈ allNodes (c.themeNodes ns), P n := by
  have hplace : (∀ m ∈ allNodes (placeAtFirst Node.isThemeMark (c.themeNodes ns) ns).1, P m) ↔
      (∀ n ∈ allNodes ns, ¬ n.isThemeMark → P n) ∧
        ((∃ m ∈ allNodes (keepFirst Node.isThemeMark ns), m.isThemeMark) →
          ∀ m ∈ allNodes (c.themeNodes ns), P m) :=
    forall_placeEach hP Node.isThemeMark_withChildren (fun _ => Node.children_of_isThemeMark)
      (fun _ _ => rfl) false
  constructor
  · intro h
    refine ⟨?_, fun n hn => h n (themeNodes_subset hn)⟩
    rw [withTheme] at h
    dsimp only at h
    split at h
    · exact (hplace.1 h).1
    · exact (hplace.1 (forall_allNodes_append.1 h).2).1
  · rintro ⟨hns, htheme⟩
    have hplaced := hplace.2 ⟨hns, fun _ => htheme⟩
    rw [withTheme]
    dsimp only
    split
    · exact hplaced
    · exact forall_allNodes_append.2 ⟨htheme, hplaced⟩

theorem forall_assembled (hP : IsOfHead P) (hrule : ∀ sel ns, P (.rule sel ns)) :
    KeptHold P (c.assembled names) ↔
      KeptHold (fun n => ¬ n.isUtilitiesMark → P n) c.nodes ∧
        (c.PlacesRules → ∀ cc ∈ c.compiled names, KeptHold P cc.nodes) := by
  have hrules (cs : List CompiledCandidate) :
      KeptHold P (cs.map (·.rule)) ↔ ∀ cc ∈ cs, KeptHold P cc.nodes := by
    induction cs with
    | nil => exact ⟨fun _ cc hcc => absurd hcc List.not_mem_nil, fun _ => keptHold_nil⟩
    | cons cc cs ih =>
      rw [List.map_cons, keptHold_cons, ih, List.forall_mem_cons]
      have hkept : cc.rule.isKept := rfl
      have hinner : P cc.rule ∧ KeptHold P cc.rule.children ↔ KeptHold P cc.nodes :=
        and_iff_right (hrule _ _)
      rw [imp_iff_right hkept, hinner]
  have hplace : KeptHold P (c.assembled names) ↔
      (∀ n ∈ visited Node.isKept c.nodes, ¬ n.isUtilitiesMark → n.isKept → P n) ∧
        (c.PlacesRules → KeptHold P (c.utilityRules names)) :=
    forall_placeEach (.imp (fun n ns => iff_of_eq (congrArg (· = true) (n.isKept_withChildren ns))) hP)
      Node.isUtilitiesMark_withChildren (fun _ => Node.children_of_isUtilitiesMark)
      Node.isKept_withChildren false
  rw [← hrules]
  refine hplace.trans (and_congr_left' (forall₂_congr fun n _ => ?_))
  exact ⟨fun h hkept hmark => h hmark hkept, fun h hmark hkept => h hkept hmark⟩

/-- What a predicate that holds of rules is to hold of, to hold of all nodes of the output. -/
theorem forall_output_iff (hP : IsOfHead P) (hrule : ∀ sel ns, P (.rule sel ns)) :
    (∀ n ∈ allNodes (c.output names), P n) ↔
      KeptHold (fun n => ¬ n.isThemeMark → P n) (c.assembled names) ∧
      (∀ e ∈ c.declaredEntries (c.flatNodes names), P (.plain e.key e.value)) ∧
      (∀ n ∈ allNodes (c.keyframeNodes (c.flatNodes names)), P n) ∧
      ∀ n ∈ allNodes (propertyNodes (c.registry names)), P n := by
  have hkeep : IsOfHead fun n => ¬ n.isThemeMark → P n := .imp (.not Node.isThemeMark_withChildren) hP
  rw [output_eq, forall_allNodes_append, forall_withTheme hP, flatNodes,
    forall_flatten hkeep fun sel ns _ => hrule sel ns, forall_withoutProperties hkeep, themeNodes_eq,
    forall_allNodes_append, forall_variableRule hrule, and_assoc, and_assoc]
  rfl

end Compiler

end UtilityCss
