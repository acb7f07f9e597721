import UtilityCss.Design.Apply
import UtilityCss.Proofs.Compiler.ClassNames
import UtilityCss.Proofs.Stylesheet.Node
import UtilityCss.Proofs.Text.Words

/-!
# What applied class names stand for

Applied class names are merged where equal wrappers meet. A leaf keeps the wrappers around it, and
the sequence of the leaves is that of the class names one after another, in the order of the output.
-/

namespace UtilityCss

/-- A node that is written as it is, with the heads of the rules and at-rules around it, the
outermost first. -/
structure PlacedLeaf where
  path : List Node
  node : Node

mutual

/-- The leaves of a node in document order: declarations, comments, statements and whole definitions
of properties. -/
def Node.leafSequence (path : List Node) : Node → List PlacedLeaf
  | .rule selector ns => leafSequence (path ++ [.rule selector []]) ns
  | .atRule name params ns =>
    if name == "property" then [⟨path, .atRule name params ns⟩]
    else leafSequence (path ++ [.atRule name params []]) ns
  | n => [⟨path, n⟩]

def leafSequence (path : List Node) : List Node → List PlacedLeaf
  | [] => []
  | n :: ns => n.leafSequence path ++ leafSequence path ns

end

/-- A leaf with the important mark if it is a declaration. -/
def PlacedLeaf.important (l : PlacedLeaf) : PlacedLeaf :=
  match l.node with
  | .decl property value _ => ⟨l.path, .decl property value true⟩
  | _ => l

section Merging

variable {path : List Node} {n : Node} {ns ms out : List Node}

theorem leafSequence_append :
    leafSequence path (ns ++ ms) = leafSequence path ns ++ leafSequence path ms := by
  induction ns with
  | nil => rfl
  | cons n ns ih => rw [List.cons_append, leafSequence, ih, leafSequence, List.append_assoc]

theorem leafSequence_singleton : leafSequence path [n] = n.leafSequence path := by
  rw [leafSequence, leafSequence, List.append_nil]

/-- A block that holds leaves: a rule, or an at-rule that defines no property. -/
def Node.isWrapper : Node → Bool
  | .rule _ _ => true
  | .atRule name _ _ => name != "property"
  | _ => false

private theorem Node.isWrapper_of_head_eq {m : Node} (h : m.head = n.head) :
    m.isWrapper = n.isWrapper := by
  cases m <;> cases n <;> simp_all [Node.head, Node.withChildren, Node.isWrapper]

private theorem Node.isWrapper_withChildren : (n.withChildren ns).isWrapper = n.isWrapper := by
  cases n <;> rfl

theorem Node.leafSequence_of_isWrapper (h : n.isWrapper = true) :
    n.leafSequence path = UtilityCss.leafSequence (path ++ [n.head]) n.children := by
  cases n with
  | rule selector inner => rfl
  | atRule name params inner =>
    rw [Node.leafSequence, if_neg (by simpa [Node.isWrapper] using h)]
    rfl
  | _ => cases h

/-- A node goes behind the others, or what is in it into the last one, which wraps as it does. -/
theorem Node.appendTo_cases (out : List Node) (n : Node) :
    n.appendTo out = out ++ [n] ∨
      ∃ last, out.getLast? = some last ∧ last.head = n.head ∧ n.isWrapper = true ∧
        n.appendTo out = out.dropLast ++ [last.withChildren (appendEach last.children n.children)] := by
  cases n with
  | rule selector inner =>
    rw [Node.appendTo]
    split
    · next last lastInner hlast =>
      split
      · next heq =>
        refine .inr ⟨_, hlast, ?_, rfl, rfl⟩
        rw [eq_of_beq heq]
        rfl
      · exact .inl rfl
    · exact .inl rfl
  | atRule name params inner =>
    rw [Node.appendTo]
    split
    · next last lastParams lastInner hlast =>
      split
      · next heq =>
        simp only [Bool.and_eq_true, beq_iff_eq] at heq
        obtain ⟨⟨rfl, rfl⟩, hname⟩ := heq
        exact .inr ⟨_, hlast, rfl, hname, rfl⟩
      · exact .inl rfl
    · exact .inl rfl
  | _ => exact .inl rfl

/-- Merging neither loses nor repeats a leaf, and keeps their order and what is around them. -/
theorem leafSequence_appendEach :
    leafSequence path (appendEach out ns) = leafSequence path out ++ leafSequence path ns := by
  induction ns using forest_induction generalizing out path with
  | nil => rw [appendEach, leafSequence, List.append_nil]
  | cons n ns ihn ih =>
    rw [appendEach, ih, leafSequence, ← List.append_assoc]
    congr 1
    rcases n.appendTo_cases out with heq | ⟨last, hlast, hhead, hwrap, heq⟩
    · rw [heq, leafSequence_append, leafSequence_singleton]
    · have hlastWrap : last.isWrapper = true := by rw [Node.isWrapper_of_head_eq hhead, hwrap]
      calc leafSequence path (n.appendTo out)
          = leafSequence path out.dropLast ++
              leafSequence (path ++ [n.head]) (appendEach last.children n.children) := by
            rw [heq, leafSequence_append, leafSequence_singleton,
              Node.leafSequence_of_isWrapper (by rwa [Node.isWrapper_withChildren]),
              Node.head_withChildren, hhead]
            cases last with
            | rule _ _ => rfl
            | atRule _ _ _ => rfl
            | _ => cases hlastWrap
        _ = leafSequence path out.dropLast ++ leafSequence path [last] ++ n.leafSequence path := by
            rw [ihn, leafSequence_singleton, Node.leafSequence_of_isWrapper hlastWrap, hhead,
              Node.leafSequence_of_isWrapper hwrap, List.append_assoc]
        _ = leafSequence path out ++ n.leafSequence path := by
            rw [← leafSequence_append, List.dropLast_append_getLast? last hlast]

private theorem leafSequence_flatMap {α : Type} (f : α → List Node) (as : List α) :
    leafSequence path (as.flatMap f) = as.flatMap fun a => leafSequence path (f a) := by
  induction as with
  | nil => rfl
  | cons a as ih => rw [List.flatMap_cons, leafSequence_append, ih, List.flatMap_cons]

/-- The important mark goes to all declarations outside of definitions of properties. -/
theorem leafSequence_markImportant :
    leafSequence path (markImportant ns) = (leafSequence path ns).map PlacedLeaf.important := by
  induction ns using forest_induction generalizing path with
  | nil => rfl
  | cons n ns ihn ih =>
    rw [markImportant, leafSequence, leafSequence, List.map_append, ih]
    congr 1
    cases n with
    | rule selector inner => exact ihn
    | atRule name params inner =>
      rw [Node.markImportant, Node.leafSequence]
      split
      · next hname =>
        rw [Node.leafSequence, if_pos hname]
        rfl
      · next hname =>
        rw [Node.leafSequence, if_neg hname]
        exact ihn
    | _ => rfl

end Merging

namespace DesignSystem

variable {d : DesignSystem} {c : Compiler} {names names' : List String}
  {params : String}

/-- Compiled class names, each as often as it is named. -/
def repeated (names : List String) (cs : List CompiledCandidate) : List CompiledCandidate :=
  cs.flatMap fun cc => List.replicate (names.count cc.candidate.raw) cc

def appliedNames (params : String) : List String :=
  (Text.words params).filter (· != importantWord)

private theorem count_flatMap_replicate (f : String → Nat) (raw : String) {distinct : List String}
    (h : distinct.Nodup) : (distinct.flatMap fun a => List.replicate (f a) a).count raw =
      if raw ∈ distinct then f raw else 0 := by
  induction distinct with
  | nil => rfl
  | cons a distinct ih =>
    obtain ⟨ha, h⟩ := List.nodup_cons.1 h
    rw [List.flatMap_cons, List.count_append, ih h, List.count_replicate]
    grind

theorem perm_flatMap_replicate {distinct : List String} (hnodup : distinct.Nodup)
    (hmem : ∀ raw, raw ∈ distinct ↔ raw ∈ names) :
    (distinct.flatMap fun raw => List.replicate (names.count raw) raw).Perm names := by
  refine List.perm_iff_count.2 fun raw => ?_
  rw [count_flatMap_replicate _ _ hnodup]
  split
  · rfl
  · next h => exact (List.count_eq_zero.2 fun hraw => h ((hmem raw).2 hraw)).symm

private theorem repeated_unsorted (names : List String) : repeated names (c.unsorted names) =
    ((Compiler.classNames names).flatMap fun raw =>
      List.replicate (names.count raw) raw).filterMap c.system.compile? := by
  rw [repeated, Compiler.unsorted, List.filterMap_flatMap, List.filterMap_eq_flatMap_toList,
    List.flatMap_assoc]
  congr 1
  funext raw
  rw [List.filterMap_replicate]
  cases hcc : c.system.compile? raw with
  | none => rfl
  | some cc =>
    rw [Option.toList_some, List.flatMap_singleton, c.system.raw_of_compile? hcc]

theorem mem_classNames_iff (h : ∀ raw ∈ names, raw ≠ "" ∧ Text.trim raw = raw) {raw : String} :
    raw ∈ Compiler.classNames names ↔ raw ∈ names := by
  rw [Compiler.mem_classNames]
  constructor
  · rintro ⟨-, name, hname, rfl⟩
    rwa [(h name hname).2]
  · intro hraw
    exact ⟨(h raw hraw).1, raw, hraw, (h raw hraw).2⟩

theorem perm_repeated (h : ∀ raw ∈ names, raw ≠ "" ∧ Text.trim raw = raw) :
    (repeated names (c.compiled names)).Perm (names.filterMap c.system.compile?) := by
  have hsort : (repeated names (c.compiled names)).Perm (repeated names (c.unsorted names)) :=
    (sortBy_perm _).flatMap_right _
  rw [repeated_unsorted] at hsort
  exact hsort.trans
    ((perm_flatMap_replicate (nodup_eraseDups _) fun raw => mem_classNames_iff h).filterMap _)

private theorem pairwise_repeated (names names' : List String) :
    (repeated names (c.compiled names')).Pairwise
    fun a b => (c.system.compare a b).isLE = true := by
  refine List.pairwise_flatMap.2 ⟨fun cc _ => ?_, ?_⟩
  · exact List.pairwise_replicate.2 (.inr Std.ReflCmp.isLE_rfl)
  · refine (pairwise_sortBy _).imp fun hab x hx y hy => ?_
    rw [List.eq_of_mem_replicate hx, List.eq_of_mem_replicate hy]
    exact hab

theorem sort_filterMap_compile (h : ∀ raw ∈ names, raw ≠ "" ∧ Text.trim raw = raw) :
    c.system.sort (names.filterMap c.system.compile?) = repeated names (c.compiled names) := by
  refine ((sortBy_perm _).trans (perm_repeated h).symm).eq_of_pairwise ?_ (pairwise_sortBy _)
    (pairwise_repeated names names)
  -- Class names that are equal in order are the same, and so is what they compile to.
  intro a b ha hb hab hba
  obtain ⟨raw, -, ha⟩ := List.mem_filterMap.1 ((sortBy_perm _).subset ha)
  obtain ⟨raw', -, hb⟩ := List.mem_filterMap.1 ((perm_repeated h).subset hb)
  have hraw := c.system.raw_eq_of_compare (Std.OrientedCmp.isLE_antisymm hab hba)
  rw [c.system.raw_of_compile? ha, c.system.raw_of_compile? hb] at hraw
  rw [hraw, hb] at ha
  exact (Option.some.inj ha).symm

/-- The order in which names are given does not matter. -/
theorem repeated_compiled_of_perm (h : names'.Perm names) :
    repeated names' (c.compiled names') = repeated names (c.compiled names) := by
  have hcompiled : c.compiled names' = c.compiled names := by
    refine Compiler.compiled_eq fun raw => ?_
    simp only [Compiler.IsCompiled, h.mem_iff]
  rw [hcompiled, repeated, repeated]
  congr 1
  funext cc
  rw [h.count_eq]

private theorem ne_empty_and_trim_of_mem_appliedNames :
    ∀ raw ∈ appliedNames params, raw ≠ "" ∧ Text.trim raw = raw := fun _ hraw =>
  Text.ne_empty_and_trim_of_mem_words (List.mem_of_mem_filter hraw)

private theorem mapM_eq_filterMap {α β ε : Type} (f : α → Option β) {g : α → Except ε β}
    {as : List α}
    (h : ∀ a ∈ as, ∃ b, f a = some b ∧ g a = .ok b) : as.mapM g = .ok (as.filterMap f) := by
  induction as with
  | nil => rfl
  | cons a as ih =>
    obtain ⟨⟨b, hf, hg⟩, h⟩ := List.forall_mem_cons.1 h
    rw [List.mapM_cons, hg, ih h, List.filterMap_cons_some hf]
    rfl

/-- The nodes of class names that all compile: merged in the order of the output, and marked if the
mark is among the words. -/
theorem apply_eq (h : ∀ raw ∈ appliedNames params, (c.system.compile? raw).isSome) :
    c.system.apply params = .ok
      (let ns := appendEach []
        ((repeated (appliedNames params) (c.compiled (appliedNames params))).flatMap (·.nodes))
      if importantWord ∈ Text.words params then markImportant ns else ns) := by
  have hmarks : (Text.words params).filter (· == importantWord) = [] ↔
      importantWord ∉ Text.words params := by
    simp only [List.filter_eq_nil_iff, beq_iff_eq, List.forall_mem_ne']
  have hnames : (Text.words params).filter (not ∘ (· == importantWord)) = appliedNames params := rfl
  rw [apply, List.partition_eq_filter_filter, hnames]
  dsimp only
  rw [mapM_eq_filterMap c.system.compile?]
  · rw [← sort_filterMap_compile ne_empty_and_trim_of_mem_appliedNames]
    split
    · next hmark =>
      rw [if_neg (hmarks.1 (List.isEmpty_iff.1 hmark))]
      rfl
    · next hmark =>
      rw [if_pos (not_not.1 fun h => hmark (List.isEmpty_iff.2 (hmarks.2 h)))]
      rfl
  · intro raw hraw
    obtain ⟨cc, hcc⟩ := Option.isSome_iff_exists.1 (h raw hraw)
    exact ⟨cc, hcc, by rw [hcc]⟩

/-- Where all class names compile, the order of the words does not matter, and the leaves are those
of the class names one after another in the order of the output, all declarations being marked if
the mark is among the words. -/
theorem apply_leafSequence (d : DesignSystem) (params : String)
    (h : ∀ raw ∈ Text.words params, raw ≠ importantWord → (d.compile? raw).isSome) :
    ∃ ns, d.apply params = .ok ns ∧
      (∀ params', (Text.words params').Perm (Text.words params) → d.apply params' = .ok ns) ∧
      ∀ c : Compiler, c.system = d →
        let leaves := (repeated (appliedNames params) (c.compiled (appliedNames params))).flatMap
          fun cc => leafSequence [] cc.nodes
        leafSequence [] ns =
          if importantWord ∈ Text.words params then leaves.map PlacedLeaf.important else leaves := by
  have hnames : ∀ raw ∈ appliedNames params, (d.compile? raw).isSome := by
    intro raw hraw
    obtain ⟨hword, hne⟩ := List.mem_filter.1 hraw
    exact h raw hword (by simpa using hne)
  refine ⟨_, apply_eq (c := ⟨d, [], []⟩) hnames, ?_, ?_⟩
  · intro params' hperm
    have hperm' : (appliedNames params').Perm (appliedNames params) := hperm.filter _
    rw [apply_eq (c := ⟨d, [], []⟩) fun raw hraw => hnames raw (hperm'.subset hraw),
      repeated_compiled_of_perm hperm']
    simp only [hperm.mem_iff]
  · rintro c rfl
    have hleaves : leafSequence [] (appendEach [] ((repeated (appliedNames params)
        (c.compiled (appliedNames params))).flatMap (·.nodes))) =
          (repeated (appliedNames params) (c.compiled (appliedNames params))).flatMap
            fun cc => leafSequence [] cc.nodes := by
      rw [leafSequence_appendEach, leafSequence_flatMap]
      rfl
    dsimp only
    split
    · rw [leafSequence_markImportant, ← hleaves]
      rfl
    · exact hleaves

/-- Two wrappers of one class name become one, and everything is marked. -/
theorem apply_leafSequence_before :
    let c : Compiler := ⟨.builtin {} .media, [], []⟩
    let names := ["before:flex", "flex", "before:flex"]
    (∀ raw ∈ Text.words "before:flex !important flex before:flex", raw ≠ importantWord →
      (c.system.compile? raw).isSome) ∧
    ∃ ns, c.system.apply "before:flex !important flex before:flex" = .ok ns ∧
      c.system.apply "!important before:flex before:flex flex" = .ok ns ∧
      leafSequence [] ns = ((repeated names (c.compiled names)).flatMap fun cc =>
        leafSequence [] cc.nodes).map PlacedLeaf.important := by
  intro c names
  have hcompile : ∀ raw ∈ ["before:flex", "flex"], (c.system.compile? raw).isSome := by
    decide +kernel
  have hwords : ∀ raw ∈ Text.words "before:flex !important flex before:flex", raw ≠ importantWord →
      raw ∈ ["before:flex", "flex"] := by decide +kernel
  have h : ∀ raw ∈ Text.words "before:flex !important flex before:flex", raw ≠ importantWord →
      (c.system.compile? raw).isSome := fun raw hraw hne => hcompile raw (hwords raw hraw hne)
  obtain ⟨ns, hns, hperm, hleaves⟩ := apply_leafSequence c.system _ h
  exact ⟨h, ns, hns, hperm _ (by decide +kernel), hleaves c rfl⟩

end DesignSystem

end UtilityCss
