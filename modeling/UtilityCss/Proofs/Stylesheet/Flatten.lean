import UtilityCss.Proofs.Stylesheet.Node
import UtilityCss.Stylesheet.Flatten

/-!
# What flattening keeps

The leaves of a forest are its declarations and comments, each under the conditions and the selector
of the blocks around it. `flatten` neither loses nor adds a leaf and leaves no rule inside a rule.
The leaves of one block stay together and in their order, and what it does not flatten stays as it
is, under the same conditions.
-/

namespace UtilityCss

/-- The conditional at-rules around a node by names and parameters, the outermost one first. -/
abbrev Conditions := List (String × String)

/-- How the selector of a rule is understood inside the given parents. -/
abbrev SelectorReading := Option (List String) → String → List String

/-- The reading of selectors outside other rules, where each means what it says. -/
def standalone : SelectorReading := fun _ sel => [sel]

def selectorText (parents : Option (List String)) : Option String := parents.map (", ".intercalate ·)

/-- A declaration or comment with all that it stands under. -/
structure Leaf where
  conditions : Conditions
  selector : Option String
  node : Node

/-- The declarations and comments directly inside one block. -/
structure LeafGroup where
  conditions : Conditions
  selector : Option String
  nodes : List Node

def LeafGroup.leaves (g : LeafGroup) : List Leaf := g.nodes.map (⟨g.conditions, g.selector, ·⟩)

mutual

def Node.leaves (resolve : SelectorReading) (cs : Conditions) (parents : Option (List String)) :
    Node → List Leaf
  | .rule sel ns => leavesOf resolve cs (some (resolve parents sel)) ns
  | .atRule name params ns =>
    if isConditional name then leavesOf resolve (cs ++ [(name, params)]) parents ns else []
  | .statement _ _ => []
  | n => [⟨cs, selectorText parents, n⟩]

/-- The leaves of a forest in document order, apart from those inside at-rules that are no
conditions. -/
def leavesOf (resolve : SelectorReading) (cs : Conditions) (parents : Option (List String)) :
    List Node → List Leaf
  | [] => []
  | n :: ns => n.leaves resolve cs parents ++ leavesOf resolve cs parents ns

end

def ownGroup (cs : Conditions) (parents : Option (List String)) (ns : List Node) : List LeafGroup :=
  let locals := ns.filter Node.isLocal
  if locals.isEmpty then [] else [⟨cs, selectorText parents, locals⟩]

mutual

def Node.groups (resolve : SelectorReading) (cs : Conditions) (parents : Option (List String)) :
    Node → List LeafGroup
  | .rule sel ns =>
    let parents := some (resolve parents sel)
    ownGroup cs parents ns ++ groupsInside resolve cs parents ns
  | .atRule name params ns =>
    if isConditional name then
      let cs := cs ++ [(name, params)]
      ownGroup cs parents ns ++ groupsInside resolve cs parents ns
    else []
  | _ => []

/-- The leaves of the blocks in a forest, block by block, where a block comes in front of those
inside it. -/
def groupsInside (resolve : SelectorReading) (cs : Conditions) (parents : Option (List String)) :
    List Node → List LeafGroup
  | [] => []
  | n :: ns => n.groups resolve cs parents ++ groupsInside resolve cs parents ns

end

/-- The leaves of a block and of those inside it, block by block. -/
def groupsOf (resolve : SelectorReading) (cs : Conditions) (parents : Option (List String))
    (ns : List Node) : List LeafGroup :=
  ownGroup cs parents ns ++ groupsInside resolve cs parents ns

mutual

def Node.carried (cs : Conditions) : Node → List (Conditions × Node)
  | .rule _ ns => carriedOf cs ns
  | .atRule name params ns =>
    if isConditional name then carriedOf (cs ++ [(name, params)]) ns
    else [(cs, .atRule name params ns)]
  | .statement name params => [(cs, .statement name params)]
  | _ => []

/-- The outermost at-rules that are no conditions, those without a block included. -/
def carriedOf (cs : Conditions) : List Node → List (Conditions × Node)
  | [] => []
  | n :: ns => n.carried cs ++ carriedOf cs ns

end

/-- Whether a node is no at-rule of which flattening keeps the inside as it is. -/
def Node.isFlattened : Node → Bool
  | .atRule name _ _ => isConditional name
  | _ => true

/-- Whether only declarations and comments are inside of style rules. -/
def IsFlat (ns : List Node) : Prop :=
  ∀ n ∈ visited Node.isFlattened ns, ∀ sel inner, n = .rule sel inner → ∀ m ∈ inner, m.isLocal

namespace Flatten

section Append

variable {resolve : SelectorReading} {cs : Conditions} {parents : Option (List String)}
  {ns ms : List Node}

theorem groupsInside_append (ns ms : List Node) : groupsInside resolve cs parents (ns ++ ms) =
    groupsInside resolve cs parents ns ++ groupsInside resolve cs parents ms := by
  induction ns with
  | nil => rfl
  | cons n ns ih => rw [List.cons_append, groupsInside, ih, groupsInside, List.append_assoc]

theorem carriedOf_append (ns ms : List Node) :
    carriedOf cs (ns ++ ms) = carriedOf cs ns ++ carriedOf cs ms := by
  induction ns with
  | nil => rfl
  | cons n ns ih => rw [List.cons_append, carriedOf, ih, carriedOf, List.append_assoc]

theorem isFlat_append : IsFlat (ns ++ ms) ↔ IsFlat ns ∧ IsFlat ms := by
  unfold IsFlat
  rw [visited_append]
  exact List.forall_mem_append

end Append

section Locals

variable {resolve : SelectorReading} {cs : Conditions} {parents : Option (List String)}
  {ns : List Node}

theorem isLocal_of_mem_filter {n : Node} (h : n ∈ ns.filter Node.isLocal) : n.isLocal :=
  (List.mem_filter.1 h).2

/-- Induction on a forest of declarations and comments. -/
@[elab_as_elim]
theorem locals_induction {P : List Node → Prop} (nil : P [])
    (decl : ∀ property value important ns, P ns → P (.decl property value important :: ns))
    (comment : ∀ text ns, P ns → P (.comment text :: ns)) (ns : List Node)
    (h : ∀ n ∈ ns, n.isLocal) : P ns := by
  induction ns with
  | nil => exact nil
  | cons n ns ih =>
    have hn := h n List.mem_cons_self
    have hns := ih fun m hm => h m (List.mem_cons_of_mem _ hm)
    cases n with
    | decl => exact decl _ _ _ _ hns
    | comment => exact comment _ _ hns
    | _ => exact absurd hn Bool.false_ne_true

private theorem groupsInside_locals (resolve : SelectorReading) (cs : Conditions)
    (parents : Option (List String)) (h : ∀ n ∈ ns, n.isLocal) :
    groupsInside resolve cs parents ns = [] :=
  locals_induction rfl (fun _ _ _ _ ih => ih) (fun _ _ ih => ih) ns h

private theorem carriedOf_locals (cs : Conditions) (h : ∀ n ∈ ns, n.isLocal) :
    carriedOf cs ns = [] :=
  locals_induction rfl (fun _ _ _ _ ih => ih) (fun _ _ ih => ih) ns h

private theorem visited_locals (h : ∀ n ∈ ns, n.isLocal) : visited Node.isFlattened ns = ns :=
  locals_induction rfl (fun _ _ _ _ ih => congrArg (_ :: ·) ih) (fun _ _ ih => congrArg (_ :: ·) ih)
    ns h

/-- Inside of parents no declaration or comment stays outside of a rule; without parents all of
them stay where they are. -/
theorem filter_isLocal_flattenEach (parents : Option (List String)) (ns : List Node) :
    (flattenEach parents ns).filter Node.isLocal =
      if parents.isSome then [] else ns.filter Node.isLocal := by
  have hrule (parents : Option (List String)) (inner : List Node) :
      (localRule parents inner).filter Node.isLocal = [] := by
    cases parents with
    | none => rfl
    | some ps =>
      unfold localRule
      dsimp only
      split <;> rfl
  induction ns using forest_induction generalizing parents with
  | nil => simp [flattenEach]
  | cons n ns ihn ih =>
    rw [flattenEach, List.filter_append, ih]
    cases n with
    | rule sel inner =>
      have hinner := ihn (some (combineSelectors parents sel))
      rw [Node.children, Option.isSome_some, if_pos rfl] at hinner
      rw [Node.flatten, List.filter_append, hrule, hinner]
      rfl
    | atRule name =>
      rw [Node.flatten]
      split <;> rfl
    | statement =>
      cases parents <;> rfl
    | decl =>
      cases parents <;> rfl
    | comment =>
      cases parents <;> rfl

end Locals

section Groups

variable {resolve : SelectorReading} {cs : Conditions} {parents : Option (List String)}
  {ns : List Node}

theorem groupsInside_localRule (ps : List String) (ns : List Node) :
    groupsInside standalone cs none (localRule (some ps) ns) = ownGroup cs (some ps) ns := by
  unfold localRule ownGroup
  dsimp only
  split
  · rfl
  · next hne =>
    have hlocal : ∀ n ∈ ns.filter Node.isLocal, n.isLocal := fun _ => isLocal_of_mem_filter
    have hself : (ns.filter Node.isLocal).filter Node.isLocal = ns.filter Node.isLocal :=
      List.filter_eq_self.2 hlocal
    rw [groupsInside, Node.groups, groupsInside, ownGroup]
    dsimp only [standalone]
    rw [hself, if_neg hne, groupsInside_locals _ _ _ hlocal]
    rfl

theorem groupsOf_flattenBlock
    (h : groupsInside standalone cs none (flattenEach parents ns) =
      groupsInside combineSelectors cs parents ns) :
    groupsOf standalone cs none (localRule parents ns ++ flattenEach parents ns) =
      groupsOf combineSelectors cs parents ns := by
  rw [groupsOf, groupsOf, groupsInside_append, h, ← List.append_assoc]
  congr 1
  cases parents with
  | none =>
    rw [localRule, List.nil_append, groupsInside, List.append_nil, ownGroup, ownGroup,
      filter_isLocal_flattenEach]
    rfl
  | some ps =>
    have hnone : ownGroup cs none (localRule (some ps) ns ++ flattenEach (some ps) ns) = [] := by
      have hfilter := filter_isLocal_flattenEach (some ps) ns
      unfold ownGroup localRule
      rw [List.filter_append, hfilter]
      dsimp only
      split <;> rfl
    rw [hnone, groupsInside_localRule]
    rfl

private theorem groupsInside_flattenEach (cs : Conditions) (parents : Option (List String))
    (ns : List Node) : groupsInside standalone cs none (flattenEach parents ns) =
      groupsInside combineSelectors cs parents ns := by
  induction ns using forest_induction generalizing cs parents with
  | nil => rfl
  | cons n ns ihn ih =>
    rw [flattenEach, groupsInside_append, ih, groupsInside]
    congr 1
    cases n with
    | rule sel inner =>
      rw [Node.children] at ihn
      rw [Node.flatten, groupsInside_append, groupsInside_localRule, ihn]
      rfl
    | atRule name params inner =>
      rw [Node.children] at ihn
      rw [Node.flatten, Node.groups]
      split
      · next hname =>
        rw [groupsInside, Node.groups, if_pos hname, groupsInside, List.append_nil]
        exact groupsOf_flattenBlock (ihn _ _)
      · next hname => simp [groupsInside, Node.groups, hname]
    | statement =>
      cases parents <;> rfl
    | decl =>
      cases parents <;> rfl
    | comment =>
      cases parents <;> rfl

def ownLeaves (cs : Conditions) (parents : Option (List String)) (ns : List Node) : List Leaf :=
  (ns.filter Node.isLocal).map (⟨cs, selectorText parents, ·⟩)

private theorem leaves_ownGroup (cs : Conditions) (parents : Option (List String))
    (ns : List Node) :
    (ownGroup cs parents ns).flatMap LeafGroup.leaves = ownLeaves cs parents ns := by
  unfold ownGroup
  dsimp only
  split
  · next h => rw [ownLeaves, List.isEmpty_iff.1 h, List.map_nil, List.flatMap_nil]
  · rw [List.flatMap_singleton]
    rfl

theorem ownLeaves_cons (cs : Conditions) (parents : Option (List String)) (n : Node)
    (ns : List Node) :
    ownLeaves cs parents (n :: ns) = ownLeaves cs parents [n] ++ ownLeaves cs parents ns := by
  rw [ownLeaves, ← List.singleton_append, List.filter_append, List.map_append]
  rfl

/-- The groups of a forest are its leaves, sorted by blocks. -/
theorem leavesOf_perm_groupsOf (resolve : SelectorReading) (cs : Conditions)
    (parents : Option (List String)) (ns : List Node) :
    (leavesOf resolve cs parents ns).Perm
      ((groupsOf resolve cs parents ns).flatMap LeafGroup.leaves) := by
  induction ns using forest_induction generalizing cs parents with
  | nil => exact List.Perm.nil
  | cons n ns ihn ih =>
    have hnode : (n.leaves resolve cs parents).Perm
        (ownLeaves cs parents [n] ++ (n.groups resolve cs parents).flatMap LeafGroup.leaves) := by
      cases n with
      | rule sel inner => exact ihn cs _
      | atRule name params inner =>
        rw [Node.leaves, Node.groups]
        split
        · exact ihn _ _
        · exact List.Perm.nil
      | statement => exact List.Perm.nil
      | decl => exact List.Perm.refl _
      | comment => exact List.Perm.refl _
    have hrest := ih cs parents
    rw [groupsOf, List.flatMap_append, leaves_ownGroup] at hrest ⊢
    rw [leavesOf, groupsInside, List.flatMap_append, ownLeaves_cons]
    calc n.leaves resolve cs parents ++ leavesOf resolve cs parents ns
      _ |>.Perm ((ownLeaves cs parents [n] ++ (n.groups resolve cs parents).flatMap LeafGroup.leaves) ++
          (ownLeaves cs parents ns ++
            (groupsInside resolve cs parents ns).flatMap LeafGroup.leaves)) := hnode.append hrest
      _ |>.Perm ((ownLeaves cs parents [n] ++ ownLeaves cs parents ns) ++
          ((n.groups resolve cs parents).flatMap LeafGroup.leaves ++
            (groupsInside resolve cs parents ns).flatMap LeafGroup.leaves)) := by
        simp only [List.append_assoc]
        exact (List.perm_append_comm_assoc _ _ _).append_left _

/-- The leaves of a group keep their order among all leaves. -/
theorem ownLeaves_sublist (resolve : SelectorReading) (cs : Conditions)
    (parents : Option (List String)) (ns : List Node) :
    (ownLeaves cs parents ns).Sublist (leavesOf resolve cs parents ns) := by
  induction ns with
  | nil => exact List.Sublist.refl _
  | cons n ns ih =>
    rw [ownLeaves_cons, leavesOf]
    refine List.Sublist.append ?_ ih
    cases n with
    | decl => exact List.Sublist.refl _
    | comment => exact List.Sublist.refl _
    | _ => exact List.nil_sublist _

theorem leaves_sublist_of_mem_ownGroup {g : LeafGroup} (h : g ∈ ownGroup cs parents ns) :
    g.leaves.Sublist (leavesOf resolve cs parents ns) := by
  have hown := ownLeaves_sublist resolve cs parents ns
  unfold ownGroup at h
  dsimp only at h
  split at h
  · exact absurd h List.not_mem_nil
  · rw [List.mem_singleton.1 h]
    exact hown

private theorem leaves_sublist_of_mem_groupsInside {g : LeafGroup}
    (h : g ∈ groupsInside resolve cs parents ns) :
    g.leaves.Sublist (leavesOf resolve cs parents ns) := by
  induction ns using forest_induction generalizing cs parents with
  | nil => exact absurd h List.not_mem_nil
  | cons n ns ihn ih =>
    rw [groupsInside, List.mem_append] at h
    rw [leavesOf]
    rcases h with h | h
    · refine List.Sublist.trans ?_ (List.sublist_append_left _ _)
      cases n with
      | rule sel inner =>
        exact (List.mem_append.1 h).elim leaves_sublist_of_mem_ownGroup ihn
      | atRule name params inner =>
        rw [Node.groups] at h
        rw [Node.leaves]
        split at h
        · next hname =>
          rw [if_pos hname]
          exact (List.mem_append.1 h).elim leaves_sublist_of_mem_ownGroup ihn
        · exact absurd h List.not_mem_nil
      | _ => exact absurd h List.not_mem_nil
    · exact (ih h).trans (List.sublist_append_right _ _)

theorem leaves_sublist_of_mem_groupsOf {g : LeafGroup} (h : g ∈ groupsOf resolve cs parents ns) :
    g.leaves.Sublist (leavesOf resolve cs parents ns) :=
  (List.mem_append.1 h).elim leaves_sublist_of_mem_ownGroup leaves_sublist_of_mem_groupsInside

end Groups

section Flattened

variable {cs : Conditions} {parents : Option (List String)} {ns : List Node}

theorem carriedOf_localRule (cs : Conditions) (parents : Option (List String)) (ns : List Node) :
    carriedOf cs (localRule parents ns) = [] := by
  cases parents with
  | none => rfl
  | some ps =>
    unfold localRule
    dsimp only
    split
    · rfl
    · rw [carriedOf, Node.carried, carriedOf_locals cs fun _ => isLocal_of_mem_filter]
      rfl

private theorem carriedOf_flattenEach (cs : Conditions) (parents : Option (List String))
    (ns : List Node) :
    carriedOf cs (flattenEach parents ns) = carriedOf cs ns := by
  induction ns using forest_induction generalizing cs parents with
  | nil => rfl
  | cons n ns ihn ih =>
    rw [flattenEach, carriedOf_append, ih, carriedOf]
    congr 1
    cases n with
    | rule sel inner =>
      rw [Node.flatten, carriedOf_append, carriedOf_localRule, Node.carried]
      exact ihn _ _
    | atRule name params inner =>
      rw [Node.flatten, Node.carried]
      split
      · next hname =>
        rw [carriedOf, Node.carried, if_pos hname, carriedOf_append, carriedOf_localRule, carriedOf,
          List.append_nil]
        exact ihn _ _
      · next hname => simp [carriedOf, Node.carried, hname]
    | statement =>
      cases parents <;> rfl
    | decl =>
      cases parents <;> rfl
    | comment =>
      cases parents <;> rfl

theorem isFlat_nil : IsFlat [] := nofun

theorem isFlat_atRule {name params : String} (h : isConditional name → IsFlat ns) :
    IsFlat [.atRule name params ns] := by
  intro n hn sel inner hrule
  rw [visited_cons] at hn
  rcases List.mem_cons.1 hn with rfl | hn
  · cases hrule
  · rw [visited, List.append_nil] at hn
    split at hn
    · next hname => exact h hname n hn sel inner hrule
    · exact absurd hn List.not_mem_nil

private theorem isFlat_rule {sel : String} (h : ∀ n ∈ ns, n.isLocal) : IsFlat [.rule sel ns] := by
  intro n hn sel' inner hrule
  change n ∈ .rule sel ns :: visited Node.isFlattened ns ++ [] at hn
  rw [visited_locals h, List.append_nil] at hn
  rcases List.mem_cons.1 hn with rfl | hn
  · cases hrule
    exact h
  · subst hrule
    exact absurd (h _ hn) Bool.false_ne_true

theorem isFlat_localRule (parents : Option (List String)) (ns : List Node) :
    IsFlat (localRule parents ns) := by
  cases parents with
  | none => exact isFlat_nil
  | some ps =>
    unfold localRule
    dsimp only
    split
    · exact isFlat_nil
    · exact isFlat_rule fun _ => isLocal_of_mem_filter

private theorem isFlat_flattenEach (parents : Option (List String)) (ns : List Node) :
    IsFlat (flattenEach parents ns) := by
  have hleaf {n : Node} (parents : Option (List String)) (hinner : n.children = [])
      (hn : ∀ sel inner, n ≠ .rule sel inner) :
      IsFlat (if parents.isSome && n.isLocal then [] else [n]) := by
    split
    · exact isFlat_nil
    · intro m hm sel inner hrule
      rw [visited_cons, hinner, visited, ite_self] at hm
      exact absurd (List.mem_singleton.1 hm ▸ hrule) (hn sel inner)
  induction ns using forest_induction generalizing parents with
  | nil => exact isFlat_nil
  | cons n ns ihn ih =>
    rw [flattenEach, isFlat_append]
    refine ⟨?_, ih parents⟩
    cases n with
    | rule sel inner => exact isFlat_append.2 ⟨isFlat_localRule _ _, ihn _⟩
    | atRule name params inner =>
      rw [Node.flatten]
      split
      · exact isFlat_atRule fun _ => isFlat_append.2 ⟨isFlat_localRule _ _, ihn _⟩
      · next hname => exact isFlat_atRule fun h => absurd h hname
    | statement => exact hleaf parents rfl (by simp)
    | decl => exact hleaf parents rfl (by simp)
    | comment => exact hleaf parents rfl (by simp)

end Flattened

end Flatten

open Flatten

/-- Flattening leaves no nesting, and the leaves are the same: with the same conditions and resolved
selectors, block by block, where those of a block keep their order. At-rules that are no conditions
are carried over with their conditions. -/
theorem flatten_leaves_perm (ns : List Node) :
    IsFlat (flatten ns) ∧
    (leavesOf standalone [] none (flatten ns)).Perm (leavesOf combineSelectors [] none ns) ∧
    groupsOf standalone [] none (flatten ns) = groupsOf combineSelectors [] none ns ∧
    (∀ g ∈ groupsOf combineSelectors [] none ns,
      g.leaves.Sublist (leavesOf combineSelectors [] none ns) ∧
      g.leaves.Sublist (leavesOf standalone [] none (flatten ns))) ∧
    carriedOf [] (flatten ns) = carriedOf [] ns := by
  have hgroups : groupsOf standalone [] none (flatten ns) = groupsOf combineSelectors [] none ns :=
    groupsOf_flattenBlock (groupsInside_flattenEach [] none ns)
  refine ⟨isFlat_flattenEach none ns, ?_, hgroups, ?_, carriedOf_flattenEach [] none ns⟩
  · have hout := leavesOf_perm_groupsOf standalone [] none (flatten ns)
    rw [hgroups] at hout
    exact hout.trans (leavesOf_perm_groupsOf combineSelectors [] none ns).symm
  · intro g hg
    refine ⟨leaves_sublist_of_mem_groupsOf hg, ?_⟩
    rw [← hgroups] at hg
    exact leaves_sublist_of_mem_groupsOf hg

/-- A rule with leaves in front of what is nested in it and behind. -/
def nestedCard : List Node :=
  [.rule ".card, .tile" [.decl "color" "red" false,
    .atRule "media" "print" [.rule "&:hover" [.decl "margin" "0" false, .comment " b "]],
    .decl "width" "1px" false]]

/-- The leaves of the nested rule are together, with its condition and its resolved selector. -/
theorem flatten_leaves_perm_card :
    let g := ⟨[("media", "print")], some ".card:hover, .tile:hover",
      [.decl "margin" "0" false, .comment " b "]⟩
    g ∈ groupsOf combineSelectors [] none nestedCard ∧
      g.leaves.Sublist (leavesOf standalone [] none (flatten nestedCard)) := by
  intro g
  have hg : groupsOf combineSelectors [] none nestedCard =
      [⟨[], some ".card, .tile", [.decl "color" "red" false, .decl "width" "1px" false]⟩, g] := by
    rfl
  have hmem : g ∈ groupsOf combineSelectors [] none nestedCard := by
    rw [hg]
    simp
  obtain ⟨-, -, -, hsublist, -⟩ := flatten_leaves_perm nestedCard
  exact ⟨hmem, (hsublist g hmem).2⟩

end UtilityCss
