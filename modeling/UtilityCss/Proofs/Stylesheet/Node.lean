import UtilityCss.Stylesheet.Node

/-!
# Induction on forests

A node with a block and one without are the same to most proofs: a node is its head, which is all of
it but what is inside, and the forest of its children.
-/

namespace UtilityCss

/-- Induction on a forest: on what is inside its first node, and on the rest. -/
@[elab_as_elim]
theorem forest_induction {P : List Node → Prop} (nil : P [])
    (cons : ∀ n ns, P n.children → P ns → P (n :: ns)) (ns : List Node) : P ns :=
  match ns with
  | [] => nil
  | .rule _ inner :: ns => cons _ _ (forest_induction nil cons inner) (forest_induction nil cons ns)
  | .atRule _ _ inner :: ns =>
    cons _ _ (forest_induction nil cons inner) (forest_induction nil cons ns)
  | .statement _ _ :: ns => cons _ _ nil (forest_induction nil cons ns)
  | .decl _ _ _ :: ns => cons _ _ nil (forest_induction nil cons ns)
  | .comment _ :: ns => cons _ _ nil (forest_induction nil cons ns)

/-- A node without what is inside it. -/
def Node.head (n : Node) : Node := n.withChildren []

@[simp]
theorem Node.head_withChildren (n : Node) (ns : List Node) : (n.withChildren ns).head = n.head := by
  cases n <;> rfl

theorem visited_append (enter : Node → Bool) (ns ms : List Node) :
    visited enter (ns ++ ms) = visited enter ns ++ visited enter ms := by
  induction ns with
  | nil => rfl
  | cons n ns ih => rw [List.cons_append, visited, ih, visited, List.append_assoc]

/-- A node comes in front of what is inside it, for nodes with and without a block alike. -/
theorem visited_cons (enter : Node → Bool) (n : Node) (ns : List Node) :
    visited enter (n :: ns) =
      n :: ((if enter n then visited enter n.children else []) ++ visited enter ns) := by
  cases n <;> simp [visited, Node.visited, Node.children]

theorem forall_visited_cons {P : Node → Prop} {enter : Node → Bool} {n : Node} {ns : List Node} :
    (∀ m ∈ visited enter (n :: ns), P m) ↔
      P n ∧ (enter n → ∀ m ∈ visited enter n.children, P m) ∧ ∀ m ∈ visited enter ns, P m := by
  rw [visited_cons, List.forall_mem_cons, List.forall_mem_append]
  cases enter n <;> simp

theorem exists_visited_cons {P : Node → Prop} {enter : Node → Bool} {n : Node} {ns : List Node} :
    (∃ m ∈ visited enter (n :: ns), P m) ↔
      P n ∨ (enter n ∧ ∃ m ∈ visited enter n.children, P m) ∨ ∃ m ∈ visited enter ns, P m := by
  rw [visited_cons]
  cases enter n <;> simp [or_and_right, exists_or]

/-- Of the chosen nodes in a forest, the outermost are not inside others. -/
theorem exists_visited_of_mem {p : Node → Bool} {n : Node} {ns : List Node} (hn : n ∈ allNodes ns)
    (hp : p n) : ∃ m ∈ visited (!p ·) ns, p m := by
  induction ns using forest_induction with
  | nil => exact absurd hn List.not_mem_nil
  | cons m ns ihm ih =>
    rw [allNodes, visited_cons, if_pos rfl] at hn
    refine exists_visited_cons.2 ?_
    cases hm : p m with
    | true => exact .inl rfl
    | false =>
      rcases List.mem_cons.1 hn with rfl | hn
      · exact .inl (hm ▸ hp)
      · exact (List.mem_append.1 hn).elim (fun hn => .inr (.inl ⟨rfl, ihm hn⟩)) fun hn => .inr (.inr (ih hn))

@[simp]
theorem allNodes_nil : allNodes [] = [] := rfl

theorem allNodes_append (ns ms : List Node) : allNodes (ns ++ ms) = allNodes ns ++ allNodes ms :=
  visited_append _ ns ms

theorem allNodes_cons (n : Node) (ns : List Node) :
    allNodes (n :: ns) = n :: (allNodes n.children ++ allNodes ns) := by
  rw [allNodes, visited_cons, if_pos rfl, allNodes, allNodes]

theorem mem_allNodes_of_mem {n : Node} {ns : List Node} (h : n ∈ ns) : n ∈ allNodes ns := by
  induction ns with
  | nil => exact absurd h List.not_mem_nil
  | cons m ns ih =>
    rw [allNodes_cons]
    rcases List.mem_cons.1 h with rfl | h
    · exact List.mem_cons_self
    · exact List.mem_cons_of_mem _ (List.mem_append_right _ (ih h))

/-- What is inside a node of a forest is in the forest. -/
theorem allNodes_children_sublist {n : Node} {ns : List Node} (h : n ∈ allNodes ns) :
    (allNodes n.children).Sublist (allNodes ns) := by
  induction ns using forest_induction with
  | nil => exact absurd h List.not_mem_nil
  | cons m ns ihm ih =>
    rw [allNodes_cons] at h ⊢
    refine List.Sublist.cons m ?_
    rcases List.mem_cons.1 h with rfl | h
    · exact List.sublist_append_left _ _
    · rcases List.mem_append.1 h with h | h
      · exact (ihm h).trans (List.sublist_append_left _ _)
      · exact (ih h).trans (List.sublist_append_right _ _)

theorem visited_sublist (enter : Node → Bool) (ns : List Node) :
    (visited enter ns).Sublist (allNodes ns) := by
  induction ns using forest_induction with
  | nil => exact List.Sublist.slnil
  | cons n ns ihn ih =>
    rw [visited_cons, allNodes_cons]
    refine List.Sublist.cons_cons n (List.Sublist.append ?_ ih)
    split
    · exact ihn
    · exact List.nil_sublist _

theorem allNodes_sublist {ns ms : List Node} (h : ns.Sublist ms) :
    (allNodes ns).Sublist (allNodes ms) := by
  induction h with
  | slnil => exact List.Sublist.slnil
  | cons m _ ih =>
    rw [allNodes_cons]
    exact (ih.trans (List.sublist_append_right _ _)).cons m
  | cons_cons n _ ih =>
    rw [allNodes_cons, allNodes_cons]
    exact ((List.Sublist.refl _).append ih).cons_cons n

theorem length_le_allNodes (ns : List Node) : ns.length ≤ (allNodes ns).length := by
  induction ns with
  | nil => exact Nat.le_refl _
  | cons n ns ih =>
    rw [allNodes_cons, List.length_cons, List.length_cons, List.length_append]
    omega

section Forall

variable {P : Node → Prop} {n : Node} {ns ms : List Node}

theorem forall_allNodes_cons : (∀ m ∈ allNodes (n :: ns), P m) ↔
    P n ∧ (∀ m ∈ allNodes n.children, P m) ∧ ∀ m ∈ allNodes ns, P m := by
  rw [allNodes_cons, List.forall_mem_cons, List.forall_mem_append]

theorem forall_allNodes_append : (∀ m ∈ allNodes (ns ++ ms), P m) ↔
    (∀ m ∈ allNodes ns, P m) ∧ ∀ m ∈ allNodes ms, P m := by
  rw [allNodes_append, List.forall_mem_append]

theorem forall_allNodes_singleton :
    (∀ m ∈ allNodes [n], P m) ↔ P n ∧ ∀ m ∈ allNodes n.children, P m := by
  rw [forall_allNodes_cons]
  simp

end Forall

/-- Whether a predicate only asks something of a node without what is inside it. -/
def IsOfHead (P : Node → Prop) : Prop := ∀ n ns, P (n.withChildren ns) ↔ P n

theorem IsOfHead.not {p : Node → Bool} (hp : ∀ n ns, p (n.withChildren ns) = p n) :
    IsOfHead fun n => ¬ p n := fun n ns => not_congr (iff_of_eq (congrArg (· = true) (hp n ns)))

theorem IsOfHead.imp {P Q : Node → Prop} (hP : IsOfHead P) (hQ : IsOfHead Q) :
    IsOfHead fun n => P n → Q n := fun n ns => imp_congr (hP n ns) (hQ n ns)

/-- A node stays what it is if what is inside it is changed. -/
theorem IsOfHead.withChildren {P : Node → Prop} {n : Node} {ns : List Node} (hP : IsOfHead P)
    (hn : P n) (h : ∀ m ∈ allNodes ns, P m) : ∀ m ∈ allNodes [n.withChildren ns], P m := by
  refine forall_allNodes_singleton.2 ⟨(hP n ns).2 hn, ?_⟩
  cases n with
  | rule => exact h
  | atRule => exact h
  | _ => nofun

/-- The value of a declaration, or the parameters of an at-rule. -/
def Node.texts : Node → List String
  | .decl _ value _ => [value]
  | .atRule _ params _ | .statement _ params => [params]
  | _ => []

@[simp]
theorem Node.texts_withChildren (n : Node) (ns : List Node) : (n.withChildren ns).texts = n.texts := by
  cases n <;> rfl

theorem Node.texts_head (n : Node) : n.head.texts = n.texts := n.texts_withChildren []

/-- Whether all values and parameters in a forest are of a kind. -/
def TextsHold (Q : String → Prop) (ns : List Node) : Prop :=
  ∀ n ∈ allNodes ns, ∀ text ∈ n.texts, Q text

instance {Q : String → Prop} [DecidablePred Q] : DecidablePred (TextsHold Q) :=
  fun ns => inferInstanceAs (Decidable (∀ n ∈ allNodes ns, ∀ text ∈ n.texts, Q text))

section Texts

variable {Q Q' : String → Prop} {n : Node} {ns ms : List Node}

theorem isOfHead_texts : IsOfHead fun n => ∀ text ∈ n.texts, Q text := by
  intro n ns
  dsimp only
  rw [Node.texts_withChildren]

theorem textsHold_nil : TextsHold Q [] := nofun

theorem textsHold_cons : TextsHold Q (n :: ns) ↔
    (∀ text ∈ n.texts, Q text) ∧ TextsHold Q n.children ∧ TextsHold Q ns :=
  forall_allNodes_cons

theorem textsHold_singleton :
    TextsHold Q [n] ↔ (∀ text ∈ n.texts, Q text) ∧ TextsHold Q n.children :=
  forall_allNodes_singleton

theorem textsHold_iff_forall_mem : TextsHold Q ns ↔ ∀ n ∈ ns, TextsHold Q [n] := by
  induction ns with
  | nil => simp [textsHold_nil]
  | cons n ns ih => rw [textsHold_cons, ih, List.forall_mem_cons, textsHold_singleton, and_assoc]

theorem TextsHold.imp (h : TextsHold Q ns) (hQ : ∀ text, Q text → Q' text) : TextsHold Q' ns :=
  fun n hn text htext => hQ text (h n hn text htext)

end Texts

end UtilityCss
