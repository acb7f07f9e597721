import UtilityCss.Proofs.Stylesheet.Replace

/-!
# Places of markers

A spot is a place for nodes in a forest, and a forest with a marker in it is a spot that holds its
first marker. What `placeEach` makes of the forest is read off the spot: new nodes fill it, and the
markers behind it are gone. All else stays where it is.
-/

namespace UtilityCss

/-- A place in a forest: between siblings, at the top or inside a rule or an at-rule. -/
inductive Spot where
  | here (before after : List Node)
  | inRule (before : List Node) (selector : String) (inner : Spot) (after : List Node)
  | inAtRule (before : List Node) (name params : String) (inner : Spot) (after : List Node)

def removeEach (p : Node → Bool) (ns : List Node) : List Node :=
  replaceEach (fun n => if p n then some [] else none) ns

namespace Spot

/-- The forest with some nodes at the place. -/
def fill (new : List Node) : Spot → List Node
  | here before after => before ++ new ++ after
  | inRule before selector inner after => before ++ .rule selector (inner.fill new) :: after
  | inAtRule before name params inner after =>
    before ++ .atRule name params (inner.fill new) :: after

/-- What stands in front of the place, and in front of the nodes around it. -/
def before : Spot → List Node
  | here before _ => before
  | inRule before _ inner _ => before ++ inner.before
  | inAtRule before _ _ inner _ => before ++ inner.before

/-- The place without the nodes in front of it and behind it that satisfy `p`. -/
def without (p : Node → Bool) : Spot → Spot
  | here before after => here (removeEach p before) (removeEach p after)
  | inRule before selector inner after =>
    inRule (removeEach p before) selector (inner.without p) (removeEach p after)
  | inAtRule before name params inner after =>
    inAtRule (removeEach p before) name params (inner.without p) (removeEach p after)

def push (n : Node) : Spot → Spot
  | here before after => here (n :: before) after
  | inRule before selector inner after => inRule (n :: before) selector inner after
  | inAtRule before name params inner after => inAtRule (n :: before) name params inner after

def between (front back : List Node) : Spot → Spot
  | here before after => here (front ++ before) (after ++ back)
  | inRule before selector inner after => inRule (front ++ before) selector inner (after ++ back)
  | inAtRule before name params inner after =>
    inAtRule (front ++ before) name params inner (after ++ back)

/-- Whether the place in a forest is that of a node that satisfies `p`, and no such node comes
before. -/
def IsFirst (p : Node → Bool) (ns : List Node) (s : Spot) (n : Node) : Prop :=
  ns = s.fill [n] ∧ p n ∧ ∀ m ∈ allNodes s.before, ¬ p m

@[simp]
theorem fill_push (n : Node) (s : Spot) (new : List Node) : (s.push n).fill new = n :: s.fill new := by
  cases s <;> rfl

@[simp]
theorem before_push (n : Node) (s : Spot) : (s.push n).before = n :: s.before := by
  cases s <;> rfl

theorem fill_between (front back new : List Node) (s : Spot) :
    (s.between front back).fill new = front ++ s.fill new ++ back := by
  cases s <;> simp [between, fill]

theorem before_between (front back : List Node) (s : Spot) :
    (s.between front back).before = front ++ s.before := by
  cases s <;> simp [between, before]

end Spot

@[simp]
theorem Node.withChildren_children (n : Node) : n.withChildren n.children = n := by
  cases n <;> rfl

section Marker

variable {isMarker : Node → Bool} {ns ms : List Node} {f : Node → List Node}

theorem removeEach_cons (p : Node → Bool) (n : Node) (ns : List Node) :
    removeEach p (n :: ns) =
      (if p n then [] else [n.withChildren (removeEach p n.children)]) ++ removeEach p ns := by
  rw [removeEach, replaceEach, Node.replace_eq]
  split <;> rfl

theorem removeEach_eq_self (h : ∀ n ∈ allNodes ns, ¬ isMarker n) : removeEach isMarker ns = ns := by
  induction ns using forest_induction with
  | nil => rfl
  | cons n ns ihn ih =>
    obtain ⟨hn, hinner, hns⟩ := forall_allNodes_cons.1 h
    rw [removeEach_cons, if_neg hn, ihn hinner, ih hns, Node.withChildren_children]
    rfl

theorem removeEach_append (p : Node → Bool) (ns ms : List Node) :
    removeEach p (ns ++ ms) = removeEach p ns ++ removeEach p ms :=
  replaceEach_append _ ns ms

theorem Spot.before_without (p : Node → Bool) (s : Spot) :
    (s.without p).before = removeEach p s.before := by
  induction s with
  | here => rfl
  | inRule before selector inner after ih =>
    rw [without, Spot.before, Spot.before, ih, removeEach_append]
  | inAtRule before name params inner after ih =>
    rw [without, Spot.before, Spot.before, ih, removeEach_append]

theorem placeEach_append (met : Bool) (ns ms : List Node) :
    placeEach isMarker f met (ns ++ ms) =
      ((placeEach isMarker f met ns).1 ++ (placeEach isMarker f (placeEach isMarker f met ns).2 ms).1,
        (placeEach isMarker f (placeEach isMarker f met ns).2 ms).2) := by
  induction ns generalizing met with
  | nil => rfl
  | cons n ns ih =>
    rw [List.cons_append, placeEach_cons, placeEach_cons]
    dsimp only
    rw [ih, List.append_assoc]

/-- A forest without markers stays as it is. -/
theorem placeEach_of_forall_not (met : Bool) (h : ∀ n ∈ allNodes ns, ¬ isMarker n) :
    placeEach isMarker f met ns = (ns, met) := by
  induction ns using forest_induction with
  | nil => rfl
  | cons n ns ihn ih =>
    obtain ⟨hn, hinner, hns⟩ := forall_allNodes_cons.1 h
    rw [placeEach_cons, Node.placeAtFirst_eq, if_neg hn, ihn hinner]
    dsimp only
    rw [ih hns, Node.withChildren_children]
    rfl

theorem placeEach_true (ns : List Node) :
    placeEach isMarker f true ns = (removeEach isMarker ns, true) := by
  induction ns using forest_induction with
  | nil => rfl
  | cons n ns ihn ih =>
    rw [placeEach_cons, removeEach_cons, Node.placeAtFirst_eq]
    split
    · dsimp only
      rw [ih, if_pos rfl]
    · rw [ihn]
      dsimp only
      rw [ih]

section Statement

/- Rules and at-rules with a block are no markers. -/
variable (hrule : ∀ selector ns, ¬ isMarker (.rule selector ns))
  (hatRule : ∀ name params ns, ¬ isMarker (.atRule name params ns))

include hrule hatRule

theorem not_isMarker_removeEach (ns : List Node) : ∀ n ∈ allNodes (removeEach isMarker ns), ¬ isMarker n := by
  induction ns using forest_induction with
  | nil => exact nofun
  | cons n ns ihn ih =>
    rw [removeEach_cons, forall_allNodes_append]
    refine ⟨?_, ih⟩
    split
    · exact nofun
    · next hn =>
      rw [forall_allNodes_cons]
      cases n with
      | rule => exact ⟨hrule _ _, ihn, nofun⟩
      | atRule => exact ⟨hatRule _ _ _, ihn, nofun⟩
      | _ => exact ⟨hn, nofun, nofun⟩

theorem removeEach_removeEach (ns : List Node) :
    removeEach isMarker (removeEach isMarker ns) = removeEach isMarker ns :=
  removeEach_eq_self (not_isMarker_removeEach hrule hatRule ns)

theorem Spot.without_without (s : Spot) :
    (s.without isMarker).without isMarker = s.without isMarker := by
  induction s with
  | here => simp only [without, removeEach_removeEach hrule hatRule]
  | inRule before selector inner after ih =>
    simp only [without, removeEach_removeEach hrule hatRule, ih]
  | inAtRule before name params inner after ih =>
    simp only [without, removeEach_removeEach hrule hatRule, ih]

/-- Of a forest whose first marker is at a spot, the marker is replaced and the others are removed. -/
theorem placeEach_fill {s : Spot} {m : Node} (hm : isMarker m)
    (hbefore : ∀ n ∈ allNodes s.before, ¬ isMarker n) :
    placeEach isMarker f false (s.fill [m]) = ((s.without isMarker).fill (f m), true) := by
  induction s with
  | here before after =>
    rw [Spot.before] at hbefore
    rw [Spot.fill, List.append_assoc, placeEach_append, placeEach_of_forall_not _ hbefore,
      List.singleton_append, placeEach_cons, Node.placeAtFirst_eq, if_pos hm]
    dsimp only
    rw [if_neg Bool.false_ne_true, placeEach_true, Spot.without, Spot.fill,
      removeEach_eq_self hbefore, List.append_assoc]
  | inRule before selector inner after ih =>
    obtain ⟨hfront, hinner⟩ := forall_allNodes_append.1 hbefore
    rw [Spot.fill, placeEach_append, placeEach_of_forall_not _ hfront, placeEach_cons,
      Node.placeAtFirst_eq, if_neg (hrule _ _), Node.children, ih hinner]
    dsimp only
    rw [placeEach_true, Spot.without, Spot.fill, removeEach_eq_self hfront]
    rfl
  | inAtRule before name params inner after ih =>
    obtain ⟨hfront, hinner⟩ := forall_allNodes_append.1 hbefore
    rw [Spot.fill, placeEach_append, placeEach_of_forall_not _ hfront, placeEach_cons,
      Node.placeAtFirst_eq, if_neg (hatRule _ _ _), Node.children, ih hinner]
    dsimp only
    rw [placeEach_true, Spot.without, Spot.fill, removeEach_eq_self hfront]
    rfl

omit hrule hatRule in
/-- A forest with a marker has a first one. -/
theorem exists_isFirst (h : ∃ n ∈ allNodes ns, isMarker n) : ∃ s m, Spot.IsFirst isMarker ns s m := by
  induction ns using forest_induction with
  | nil =>
    obtain ⟨n, hn, -⟩ := h
    exact absurd hn List.not_mem_nil
  | cons n ns ihn ih =>
    by_cases hn : isMarker n
    · exact ⟨.here [] ns, n, rfl, hn, nofun⟩
    · by_cases hinner : ∃ m ∈ allNodes n.children, isMarker m
      · obtain ⟨s, m, hs, hm, hbefore⟩ := ihn hinner
        cases n with
        | rule selector inner =>
          obtain rfl : inner = s.fill [m] := hs
          exact ⟨.inRule [] selector s ns, m, rfl, hm, hbefore⟩
        | atRule name params inner =>
          obtain rfl : inner = s.fill [m] := hs
          exact ⟨.inAtRule [] name params s ns, m, rfl, hm, hbefore⟩
        | _ =>
          obtain ⟨_, hmem, -⟩ := hinner
          exact absurd hmem List.not_mem_nil
      · obtain ⟨m, hmem, hmark⟩ := h
        rw [allNodes_cons, List.mem_cons, List.mem_append] at hmem
        have hns : m ∈ allNodes ns := by
          rcases hmem with rfl | hmem | hmem
          · exact absurd hmark hn
          · exact absurd ⟨m, hmem, hmark⟩ hinner
          · exact hmem
        obtain ⟨s, first, rfl, hfirst, hbefore⟩ := ih ⟨m, hns, hmark⟩
        refine ⟨s.push n, first, (s.fill_push n _).symm, hfirst, ?_⟩
        rw [Spot.before_push, forall_allNodes_cons]
        exact ⟨hn, fun k hk hmark => hinner ⟨k, hk, hmark⟩, hbefore⟩

end Statement

end Marker

end UtilityCss
