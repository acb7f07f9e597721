import UtilityCss.Proofs.Except
import UtilityCss.Proofs.Stylesheet.Node
import UtilityCss.Stylesheet.Replace

/-!
# Nodes around what is replaced

Putting nodes in the place of a marker changes what is inside other nodes but not their heads, and
the new nodes are in the result as soon as there is a marker. Where replacements may fail, what holds
of all nodes of the result is what holds of all new nodes and of all nodes that are not inside a
replaced one.
-/

namespace UtilityCss

variable {isMarker : Node → Bool}

/-- The step of `placeEach`, for nodes with and without a block alike. -/
theorem Node.placeAtFirst_eq (new : Node → List Node) (met : Bool) (n : Node) :
    n.placeAtFirst isMarker new met =
      if isMarker n then (if met then [] else new n, true)
      else ([n.withChildren (placeEach isMarker new met n.children).1],
        (placeEach isMarker new met n.children).2) := by
  cases n <;> rfl

theorem placeEach_cons (f : Node → List Node) (met : Bool) (n : Node) (ns : List Node) :
    placeEach isMarker f met (n :: ns) =
      let front := n.placeAtFirst isMarker f met
      let rest := placeEach isMarker f front.2 ns
      (front.1 ++ rest.1, rest.2) := rfl

theorem replaceEach_append (f : Node → Option (List Node)) (ns ms : List Node) :
    replaceEach f (ns ++ ms) = replaceEach f ns ++ replaceEach f ms := by
  induction ns with
  | nil => rfl
  | cons n ns ih => rw [List.cons_append, replaceEach, replaceEach, ih, List.append_assoc]

/-- What is inside a node that stays. -/
theorem Node.children_placeEach (new : Node → List Node) (met : Bool) (n : Node) :
    (n.withChildren (placeEach isMarker new met n.children).1).children =
      (placeEach isMarker new met n.children).1 := by
  cases n <;> rfl

/-- A node of the result is one of before, up to what is inside it, or a new one. -/
theorem mem_placeEach {new : Node → List Node} {m : Node} (met : Bool) (ns : List Node)
    (h : m ∈ allNodes (placeEach isMarker new met ns).1) :
    (∃ m' ∈ allNodes ns, m'.head = m.head) ∨ ∃ n, m ∈ allNodes (new n) := by
  induction ns using forest_induction generalizing met with
  | nil => exact absurd h List.not_mem_nil
  | cons n ns ihn ih =>
    rw [placeEach, allNodes_append, List.mem_append, Node.placeAtFirst_eq] at h
    rw [allNodes_cons]
    simp only [List.mem_cons, List.mem_append]
    rcases h with h | h
    · split at h
      · split at h
        · exact absurd h List.not_mem_nil
        · exact .inr ⟨n, h⟩
      · rw [allNodes_cons, allNodes_nil, List.append_nil] at h
        rcases List.mem_cons.1 h with rfl | h
        · exact .inl ⟨n, .inl rfl, (Node.head_withChildren _ _).symm⟩
        · rw [Node.children_placeEach] at h
          apply (ihn met h).imp_left
          rintro ⟨m', hm', hhead⟩
          exact ⟨m', .inr (.inl hm'), hhead⟩
    · apply (ih _ h).imp_left
      rintro ⟨m', hm', hhead⟩
      exact ⟨m', .inr (.inr hm'), hhead⟩

theorem mem_placeAtFirst {new ns : List Node} {m : Node}
    (h : m ∈ allNodes (placeAtFirst isMarker new ns).1) :
    (∃ m' ∈ allNodes ns, m'.head = m.head) ∨ m ∈ allNodes new :=
  (mem_placeEach _ _ h).imp_right fun ⟨_, h⟩ => h

theorem subset_placeEach {new ns : List Node}
    (h : (placeEach isMarker (fun _ => new) false ns).2 = true) :
    allNodes new ⊆ allNodes (placeEach isMarker (fun _ => new) false ns).1 := by
  induction ns using forest_induction with
  | nil => exact absurd h Bool.false_ne_true
  | cons n ns ihn ih =>
    rw [placeEach] at h ⊢
    rw [allNodes_append]
    cases hmet : (n.placeAtFirst isMarker (fun _ => new) false).2 with
    | true =>
      refine List.Subset.trans ?_ (List.subset_append_left _ _)
      rw [Node.placeAtFirst_eq] at hmet ⊢
      split
      · exact List.Subset.refl _
      · rw [if_neg ‹_›] at hmet
        rw [allNodes_cons, Node.children_placeEach]
        exact List.Subset.trans (ihn hmet)
          (List.subset_cons_of_subset _ (List.subset_append_left _ _))
    | false =>
      simp only [hmet] at h ⊢
      exact List.Subset.trans (ih h) (List.subset_append_right _ _)

theorem subset_placeAtFirst {new ns : List Node} (h : (placeAtFirst isMarker new ns).2 = true) :
    allNodes new ⊆ allNodes (placeAtFirst isMarker new ns).1 := subset_placeEach h

/-- The step of `replaceEach`, for nodes with and without a block alike. -/
theorem Node.replace_eq (f : Node → Option (List Node)) (n : Node) :
    n.replace f = (f n).getD [n.withChildren (replaceEach f n.children)] := by
  cases n <;> rfl

theorem IsOfHead.replaceEach {P Q : Node → Prop} {ns : List Node} (hQ : IsOfHead Q)
    {f : Node → Option (List Node)} (hkeep : ∀ n, P n → f n = none → Q n)
    (hnew : ∀ n new, P n → f n = some new → ∀ m ∈ allNodes new, Q m) (h : ∀ m ∈ allNodes ns, P m) :
    ∀ m ∈ allNodes (replaceEach f ns), Q m := by
  induction ns using forest_induction with
  | nil => nofun
  | cons n ns ihn ih =>
    obtain ⟨hn, hinner, hns⟩ := forall_allNodes_cons.1 h
    rw [UtilityCss.replaceEach, forall_allNodes_append, Node.replace_eq]
    refine ⟨?_, ih hns⟩
    cases hf : f n with
    | some new => exact hnew n new hn hf
    | none => exact hQ.withChildren (hkeep n hn hf) (ihn hinner)

private theorem Node.children_replaceEach (f : Node → Option (List Node)) (n : Node) :
    (n.withChildren (replaceEach f n.children)).children = replaceEach f n.children := by
  cases n <;> rfl

/-- Where nodes are put in the place of the outermost chosen ones, a predicate holds of the result if it
holds of all that is outside of these and, if there are any, of the nodes. -/
theorem forall_replaceEach {P : Node → Prop} (hP : IsOfHead P) {target : Node → Bool}
    {new ns : List Node} :
    (∀ m ∈ allNodes (replaceEach (fun n => if target n then some new else none) ns), P m) ↔
      (∀ n ∈ visited (!target ·) ns, ¬ target n → P n) ∧
        ((∃ n ∈ visited (!target ·) ns, target n) → ∀ m ∈ allNodes new, P m) := by
  induction ns using forest_induction with
  | nil => simp [replaceEach, visited]
  | cons n ns ihn ih =>
    rw [replaceEach, forall_allNodes_append, ih, forall_visited_cons, exists_visited_cons,
      Node.replace_eq]
    cases htarget : target n with
    | true =>
      simp only [if_true, Option.getD_some]
      grind
    | false =>
      rw [if_neg Bool.false_ne_true, Option.getD_none, forall_allNodes_singleton,
        Node.children_replaceEach, hP, ihn]
      grind

section TryReplace

/- The nodes that `target` chooses are replaced by what `g` gives. -/
variable {ε : Type} {f : Node → Except ε (Option (List Node))} {target enter : Node → Bool}
  {g : Node → Except ε (List Node)} {n : Node} {ns ms new : List Node}

theorem tryReplaceEach_cons (h : tryReplaceEach f (n :: ns) = .ok ms) :
    ∃ new rest, n.tryReplace f = .ok new ∧ tryReplaceEach f ns = .ok rest ∧ ms = new ++ rest := by
  rw [tryReplaceEach] at h
  obtain ⟨new, hnew, h⟩ := bind_eq_ok.1 h
  obtain ⟨rest, hrest, h⟩ := bind_eq_ok.1 h
  exact ⟨new, rest, hnew, hrest, (Except.ok.inj h).symm⟩

theorem Node.tryReplace_eq (f : Node → Except ε (Option (List Node))) (n : Node) :
    n.tryReplace f = (f n).bind fun new? =>
      new?.elim ((tryReplaceEach f n.children).map fun ns => [n.withChildren ns]) .ok := by
  have hmap {e : Except ε (List Node)} {node : List Node → Node} :
      (e >>= fun ns => pure [node ns]) = e.map fun ns => [node ns] := by
    cases e <;> rfl
  cases n with
  | rule sel ns =>
    rw [Node.tryReplace]
    cases f (.rule sel ns) with
    | error => rfl
    | ok new? =>
      cases new? with
      | none => exact hmap
      | some => rfl
  | atRule name params ns =>
    rw [Node.tryReplace]
    cases f (.atRule name params ns) with
    | error => rfl
    | ok new? =>
      cases new? with
      | none => exact hmap
      | some => rfl
  | statement name params =>
    change (f (.statement name params)).map _ = _
    rcases f (.statement name params) with _ | ⟨_ | _⟩ <;> rfl
  | decl property value important =>
    change (f (.decl property value important)).map _ = _
    rcases f (.decl property value important) with _ | ⟨_ | _⟩ <;> rfl
  | comment text =>
    change (f (.comment text)).map _ = _
    rcases f (.comment text) with _ | ⟨_ | _⟩ <;> rfl

/-- A node is replaced, or else stays with what is inside it replaced. -/
theorem Node.tryReplace_cases (hf : ∀ n, f n = if target n then (g n).map some else .ok none)
    (h : n.tryReplace f = .ok new) :
    (target n ∧ g n = .ok new) ∨
      (target n = false ∧ ∃ ms, tryReplaceEach f n.children = .ok ms ∧ new = [n.withChildren ms] ∧
        (n.withChildren ms).children = ms) := by
  rw [Node.tryReplace_eq, hf] at h
  cases htarget : target n with
  | true =>
    rw [if_pos htarget] at h
    cases hg : g n with
    | error => rw [hg] at h; cases h
    | ok ms => rw [hg] at h; exact .inl ⟨rfl, h⟩
  | false =>
    rw [htarget] at h
    obtain ⟨ms, hms, rfl⟩ := map_eq_ok.1 h
    refine .inr ⟨rfl, ms, hms, rfl, ?_⟩
    cases n with
    | rule => rfl
    | atRule => rfl
    | _ => exact Except.ok.inj hms

/-- What holds of the nodes of the result that are visited, holds of those in the new nodes and of
those that are not inside a replaced one. -/
theorem forall_visited_tryReplaceEach {P : Node → Prop}
    (hf : ∀ n, f n = if target n then (g n).map some else .ok none)
    (henter : ∀ n ns, enter (n.withChildren ns) = enter n)
    (hP : ∀ n ns, P (n.withChildren ns) ↔ P n) (h : tryReplaceEach f ns = .ok ms) :
    (∀ m ∈ visited enter ms, P m) ↔
      ∀ n ∈ visited (fun n => enter n && !target n) ns,
        if target n then ∀ new, g n = .ok new → ∀ m ∈ visited enter new, P m else P n := by
  induction ns using forest_induction generalizing ms with
  | nil =>
    cases h
    simp [visited]
  | cons n ns ihn ih =>
    obtain ⟨new, rest, hnew, hrest, rfl⟩ := tryReplaceEach_cons h
    rw [visited_append, List.forall_mem_append, ih hrest, visited_cons, List.forall_mem_cons,
      List.forall_mem_append, ← and_assoc]
    refine and_congr ?_ Iff.rfl
    rcases Node.tryReplace_cases hf hnew with ⟨htarget, hg⟩ | ⟨htarget, inner, hinner, rfl, hchildren⟩
    · simp [htarget, hg]
    · rw [visited_cons, hchildren, henter]
      simp only [htarget, Bool.not_false, Bool.and_true, visited, List.append_nil,
        List.forall_mem_cons, hP]
      refine and_congr ?_ ?_
      · simp
      · split
        · exact ihn hinner
        · simp

/-- Where all replacements succeed, the outermost chosen nodes have one. -/
theorem exists_of_tryReplaceEach (hf : ∀ n, f n = if target n then (g n).map some else .ok none)
    (h : tryReplaceEach f ns = .ok ms) (hn : n ∈ visited (fun n => !target n) ns)
    (htarget : target n) : ∃ new, g n = .ok new := by
  induction ns using forest_induction generalizing ms with
  | nil => exact absurd hn List.not_mem_nil
  | cons m ns ihn ih =>
    obtain ⟨new, rest, hnew, hrest, rfl⟩ := tryReplaceEach_cons h
    rw [visited_cons, List.mem_cons, List.mem_append] at hn
    rcases hn with rfl | hn | hn
    · rcases Node.tryReplace_cases hf hnew with ⟨-, hg⟩ | ⟨hstay, -⟩
      · exact ⟨new, hg⟩
      · rw [htarget] at hstay
        cases hstay
    · rcases Node.tryReplace_cases hf hnew with ⟨hgone, -⟩ | ⟨hstay, inner, hinner, -⟩
      · simp [hgone] at hn
      · simp only [hstay, Bool.not_false, if_true] at hn
        exact ihn hinner hn
    · exact ih hrest hn

end TryReplace

end UtilityCss
