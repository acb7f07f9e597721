import UtilityCss.Design.Declaration
import UtilityCss.Proofs.Candidate.Reading
import UtilityCss.Proofs.Design.Sort
import UtilityCss.Proofs.Design.VariantBlock
import UtilityCss.Proofs.Variant.Wrap

/-!
# What is kept when names and blocks are expanded

A class name stands for nodes of its utility in the wrappers of its variants, a list of class names for
what its names do, and a variant block for its body in the wrapper. A predicate that only asks something
of each node goes all the way, if utilities give nodes of that kind and variants wrap such in such.
-/

namespace UtilityCss

section Kept

variable {P : Node → Prop} {n : Node} {ns ms : List Node}

namespace IsOfHead

theorem markImportant (hP : IsOfHead P)
    (hdecl : ∀ property value important, P (.decl property value important) →
      P (.decl property value true))
    (h : ∀ m ∈ allNodes ns, P m) : ∀ m ∈ allNodes (markImportant ns), P m := by
  induction ns using forest_induction with
  | nil => exact h
  | cons n ns ihn ih =>
    obtain ⟨hn, hinner, hns⟩ := forall_allNodes_cons.1 h
    rw [UtilityCss.markImportant, ← List.singleton_append, forall_allNodes_append]
    refine ⟨?_, ih hns⟩
    cases n with
    | rule sel inner => exact hP.withChildren hn (ihn hinner)
    | atRule name params inner =>
      rw [Node.markImportant]
      split
      · exact forall_allNodes_singleton.2 ⟨hn, hinner⟩
      · exact hP.withChildren hn (ihn hinner)
    | decl property value important =>
      exact forall_allNodes_singleton.2 ⟨hdecl _ _ _ hn, hinner⟩
    | _ => exact forall_allNodes_singleton.2 ⟨hn, hinner⟩

/-- Nodes that are appended go behind others or into the last one of them. -/
theorem appendEach (hP : IsOfHead P) (h : ∀ m ∈ allNodes ns, P m) (hms : ∀ m ∈ allNodes ms, P m) :
    ∀ m ∈ allNodes (appendEach ms ns), P m := by
  induction ns using forest_induction generalizing ms with
  | nil => exact hms
  | cons n ns ihn ih =>
    obtain ⟨hn, hinner, hns⟩ := forall_allNodes_cons.1 h
    rw [UtilityCss.appendEach]
    refine ih hns ?_
    have hbehind : ∀ m ∈ allNodes (ms ++ [n]), P m :=
      forall_allNodes_append.2 ⟨hms, forall_allNodes_singleton.2 ⟨hn, hinner⟩⟩
    have hinto {last : Node} (hlast : ms.getLast? = some last) : ∀ m ∈ allNodes (ms.dropLast ++
        [last.withChildren (UtilityCss.appendEach last.children n.children)]), P m := by
      have hsplit := List.dropLast_append_getLast? last hlast
      rw [← hsplit] at hms
      obtain ⟨hfront, hlast⟩ := forall_allNodes_append.1 hms
      obtain ⟨hhead, hlastInner⟩ := forall_allNodes_singleton.1 hlast
      exact forall_allNodes_append.2 ⟨hfront, hP.withChildren hhead (ihn hinner hlastInner)⟩
    cases n with
    | rule sel inner =>
      rw [Node.appendTo]
      split
      · next last lastInner hl =>
        split
        · exact hinto hl
        · exact hbehind
      · exact hbehind
    | atRule name params inner =>
      rw [Node.appendTo]
      split
      · next last lastParams lastInner hl =>
        split
        · exact hinto hl
        · exact hbehind
      · exact hbehind
    | _ => exact hbehind

end IsOfHead

end Kept

/-- The nodes that a recipe gives as they are, or with its calls about a candidate answered. -/
def Recipe.body : Recipe → List Node
  | .fixed nodes => nodes
  | .declared body => body
  | _ => []

def Variants.Keeps (vs : Variants) (P : Node → Prop) (v : Variant) : Prop :=
  ∀ ns ms, (∀ n ∈ allNodes ns, P n) → vs.wrap v ns = some ms → ∀ m ∈ allNodes ms, P m

namespace DesignSystem

variable {d d' : DesignSystem} {P : Node → Prop} {raw params name root : String}
  {ns ms applied : List Node} {r : Recipe}

/-- Whether all nodes that a class name stands for are of a kind, if it stands for any. -/
def Gives (d : DesignSystem) (P : Node → Prop) (raw : String) : Prop :=
  ∀ cc, d.compile? raw = some cc → ∀ n ∈ allNodes cc.nodes, P n

section Names

variable (hP : IsOfHead P) (hdecl : ∀ property value important,
  P (.decl property value important) → P (.decl property value true))

include hP hdecl

/-- A class name gives nodes of the kind that its utility gives and its variants keep. -/
theorem gives_of_candidates
    (hgenerate : ∀ c ∈ d.candidates raw, ∀ ns order, d.generate? c = some (ns, order) →
      ∀ n ∈ allNodes ns, P n)
    (hkeeps : ∀ c ∈ d.candidates raw, ∀ v ∈ c.variants, d.variants.Keeps P v) : d.Gives P raw := by
  intro cc h
  obtain ⟨c, hc, hread⟩ := List.exists_of_findSome?_eq_some h
  obtain ⟨⟨ns, order⟩, hns, hread⟩ := Option.bind_eq_some_iff.1 hread
  obtain ⟨nodes, hnodes, hread⟩ := Option.bind_eq_some_iff.1 hread
  cases hread
  have hgenerated : ∀ n ∈ allNodes ns, P n := hgenerate c hc ns order hns
  refine Variants.forall_wrapAll (P := fun ns => ∀ n ∈ allNodes ns, P n)
    (fun v hv => hkeeps c hc v hv) ?_ hnodes
  split
  · exact hP.markImportant hdecl hgenerated
  · exact hgenerated

theorem forall_nodes_apply (hnames : ∀ raw ∈ Text.words params, d.Gives P raw)
    (h : d.apply params = .ok ns) : ∀ n ∈ allNodes ns, P n := by
  rw [apply] at h
  dsimp only at h
  obtain ⟨compiled, hcompiled, h⟩ := bind_eq_ok.1 h
  have hnodes : ∀ cc ∈ compiled, ∀ n ∈ allNodes cc.nodes, P n := by
    intro cc hcc
    obtain ⟨raw, hraw, hread⟩ := exists_of_mem_tryMapM hcompiled hcc
    rw [List.partition_eq_filter_filter] at hraw
    split at hread
    · next hcompile =>
      cases hread
      exact hnames raw (List.mem_filter.1 hraw).1 cc hcompile
    · cases hread
  have hflat (cs : List CompiledCandidate) (hcs : ∀ cc ∈ cs, ∀ n ∈ allNodes cc.nodes, P n) :
      ∀ n ∈ allNodes (cs.flatMap (·.nodes)), P n := by
    induction cs with
    | nil => nofun
    | cons cc cs ih =>
      obtain ⟨hcc, hcs⟩ := List.forall_mem_cons.1 hcs
      rw [List.flatMap_cons]
      exact forall_allNodes_append.2 ⟨hcc, ih hcs⟩
  have happended : ∀ n ∈ allNodes (appendEach [] ((d.sort compiled).flatMap (·.nodes))), P n :=
    hP.appendEach (hflat _ fun cc hcc => hnodes cc ((sortBy_perm compiled).subset hcc)) nofun
  cases h
  split
  · exact happended
  · exact hP.markImportant hdecl happended

end Names

section Stages

private theorem eq_withChildren_of_expandVariants {n m : Node} (h : n.expandVariants d = .ok m) :
    m = n.withChildren m.children := by
  cases n with
  | rule =>
    obtain ⟨ns, -, rfl⟩ := map_eq_ok.1 h
    rfl
  | atRule =>
    obtain ⟨ns, -, rfl⟩ := map_eq_ok.1 h
    rfl
  | _ =>
    cases h
    rfl

variable (hP : IsOfHead P)

include hP

/-- Applying class names leaves all nodes but the lists of them. -/
theorem forall_nodes_applyEach (h : d.applyEach ns = .ok ms) :
    (∀ m ∈ allNodes ms, P m) ↔ ∀ n ∈ visited (!·.isApply) ns,
      if n.isApply then ∀ new, d.apply n.params = .ok new → ∀ m ∈ allNodes new, P m else P n := by
  rw [applyEach_eq] at h
  rw [allNodes, forall_visited_tryReplaceEach (fun _ => rfl) (fun _ _ => rfl) hP h]
  simp only [Bool.true_and]
  rfl

/-- Expanding variant blocks in a rule keeps what all nodes are, if their variants do. -/
theorem forall_nodes_expandInRule (hns : ∀ n ∈ allNodes ns, P n)
    (hblocks : ∀ n ∈ allNodes ns, n.isVariantBlock → ∀ v ∈ d.variants.read? (Text.trim n.params),
      d.variants.Keeps P v)
    (h : d.expandInRule ns = .ok ms) : ∀ m ∈ allNodes ms, P m := by
  rw [expandInRule_eq] at h
  rw [allNodes, forall_visited_tryReplaceEach (fun _ => rfl) (fun _ _ => rfl) hP h]
  intro n hn
  have hall := (visited_sublist _ _).subset hn
  split
  · next hblock =>
    intro new hnew
    obtain ⟨v, hread, hwrap⟩ := expandBlock_eq_ok.1 hnew
    refine hblocks n hall hblock v hread n.children new (fun m hm => ?_) hwrap
    exact hns m ((allNodes_children_sublist hall).subset hm)
  · exact hns n hall

/-- So it does in the rules of a stylesheet. -/
theorem forall_nodes_expandVariants (hns : ∀ n ∈ allNodes ns, P n)
    (hblocks : ∀ n ∈ allNodes ns, n.isVariantBlock → ∀ v ∈ d.variants.read? (Text.trim n.params),
      d.variants.Keeps P v)
    (h : expandVariants d ns = .ok ms) : ∀ m ∈ allNodes ms, P m := by
  induction ns using forest_induction generalizing ms with
  | nil =>
    cases h
    exact hns
  | cons n ns ihn ih =>
    obtain ⟨m, rest, hm, hrest, rfl⟩ := expandVariants_cons h
    obtain ⟨-, -, -, hinner⟩ := expandVariants_cases hm
    obtain ⟨hn, hchildren, htail⟩ := forall_allNodes_cons.1 hns
    obtain ⟨-, hinside, hbehind⟩ := forall_allNodes_cons.1 hblocks
    have hkept : ∀ k ∈ allNodes m.children, P k := by
      split at hinner
      · exact forall_nodes_expandInRule hP hchildren hinside hinner
      · exact ihn hchildren hinside hinner
    refine forall_allNodes_cons.2 ⟨?_, hkept, ih htail hbehind hrest⟩
    rw [eq_withChildren_of_expandVariants hm]
    exact (hP n _).2 hn

end Stages

section Declared

/-- Whether a name and a recipe are what a declaration of a utility comes to, where `applied` is its
body with variant blocks and applied class names expanded. -/
def Declares (d : DesignSystem) (n : Node) (applied : List Node) (e : String × Recipe) : Prop :=
  ∃ params source expanded, n.utilityDeclaration? = some (params, some source) ∧
    d.expandInRule source = .ok expanded ∧ d.applyEach expanded = .ok applied ∧
      evaluateEach d.theme applied = .ok e.2.body ∧ readUtility (Text.trim params) e.2.body = .ok e

private theorem body_readUtility (h : readUtility name ns = .ok (root, r)) : r.body = ns := by
  rw [readUtility] at h
  split at h
  · split at h <;> cases h
    rfl
  · split at h <;> cases h
    rfl

/-- What is declared gives its body as it is, or with its calls about a candidate answered. -/
theorem eq_of_readUtility (h : readUtility name ns = .ok (root, r)) : r = .fixed ns ∨ r = .declared ns := by
  rw [readUtility] at h
  split at h
  · split at h <;> cases h
    exact .inr rfl
  · split at h <;> cases h
    exact .inl rfl

private theorem declareUtility_cases {body? : Option (List Node)}
    (h : d.declareUtility params body? = .ok d') :
    ∃ body expanded root recipe, body? = some body ∧ d.expandBody body = .ok expanded ∧
      readUtility (Text.trim params) expanded = .ok (root, recipe) ∧
      d' = { d with utilities := d.utilities.add root recipe } := by
  cases body? with
  | none => cases h
  | some body =>
    obtain ⟨expanded, hexpanded, h⟩ := bind_eq_ok.1 h
    obtain ⟨⟨root, recipe⟩, hread, h⟩ := bind_eq_ok.1 h
    cases h
    exact ⟨body, expanded, root, recipe, rfl, hexpanded, mapError_eq_ok.1 hread, rfl⟩

theorem children_of_utilityDeclaration? {n : Node} {source : List Node}
    (h : n.utilityDeclaration? = some (params, some source)) : n.children = source :=
  Node.children_of_directive? h

/-- Declaring utilities keeps the theme and the variants, and what each declaration keeps of the
utilities. -/
theorem declareUtilities_invariant {I : Utilities → Prop} (hus : I d.utilities)
    (hstep : ∀ n ∈ ns, ∀ (d₁ : DesignSystem) applied (e : String × Recipe), d₁.theme = d.theme →
      d₁.variants = d.variants → I d₁.utilities → d₁.Declares n applied e →
        I (d₁.utilities.add e.1 e.2))
    (h : d.declareUtilities ns = .ok d') :
    d'.theme = d.theme ∧ d'.variants = d.variants ∧ I d'.utilities := by
  refine foldlM_invariant
    (P := fun d' => d'.theme = d.theme ∧ d'.variants = d.variants ∧ I d'.utilities)
    ?_ ⟨rfl, rfl, hus⟩ h
  rintro ⟨params, body?⟩ hp d₁ d₂ ⟨htheme, hvariants, hus₁⟩ hd₂
  obtain ⟨source, body, root, recipe, rfl, hbody, hread, rfl⟩ := declareUtility_cases hd₂
  obtain ⟨n, hn, hdeclares⟩ := List.mem_filterMap.1 hp
  obtain ⟨expanded, hexpanded, hbody⟩ := bind_eq_ok.1 hbody
  obtain ⟨applied, happlied, hbody⟩ := bind_eq_ok.1 hbody
  obtain rfl := body_readUtility hread
  exact ⟨htheme, hvariants, hstep n hn d₁ applied (root, recipe) htheme hvariants hus₁
    ⟨params, source, expanded, hdeclares, hexpanded, happlied, hbody, hread⟩⟩

theorem theme_and_variants_declareUtilities (h : d.declareUtilities ns = .ok d') :
    d'.theme = d.theme ∧ d'.variants = d.variants :=
  (declareUtilities_invariant (I := fun _ => True) trivial (fun _ _ _ _ _ _ _ _ _ => trivial)
    h).imp_right And.left

/-- Declaring utilities keeps those before, and each new one is evaluated with the same theme. -/
theorem declares_of_mem_declareUtilities (h : d.declareUtilities ns = .ok d') :
    ∀ e ∈ d'.utilities.entries, e ∈ d.utilities.entries ∨
      ∃ n ∈ ns, ∃ (d₁ : DesignSystem) (applied : List Node),
        d₁.theme = d.theme ∧ d₁.Declares n applied e := by
  refine (declareUtilities_invariant (I := fun us => ∀ e ∈ us.entries, e ∈ d.utilities.entries ∨
    ∃ n ∈ ns, ∃ (d₁ : DesignSystem) (applied : List Node),
      d₁.theme = d.theme ∧ d₁.Declares n applied e) (fun e he => .inl he) ?_ h).2.2
  intro n hn d₁ applied e htheme _ hentries hdeclares e' he'
  rcases List.mem_append.1 he' with he' | he'
  · exact hentries e' he'
  · obtain rfl := List.mem_singleton.1 he'
    exact .inr ⟨n, hn, d₁, applied, htheme, hdeclares⟩

end Declared

end DesignSystem

end UtilityCss
