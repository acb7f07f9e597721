import Mathlib.Data.List.Basic
import UtilityCss.Proofs.Stylesheet.Spot
import UtilityCss.Theme.Block

/-!
# What the scan for theme blocks finds

The scan looks among the nodes at the top and inside groups. It takes out theme blocks and
`@media reference`, and puts a mark where the first of these was. It fails at the first node that may
not stand where it does. What it gives is read off the list of the nodes it looks at.
-/

namespace UtilityCss

def Node.isThemeGroup : Node → Bool
  | .atRule name params _ => isGrouping name && !isReferenceMedia name params
  | _ => false

/-- The nodes that are looked at in the scan for theme blocks, in document order. -/
def searched (ns : List Node) : List Node := visited Node.isThemeGroup ns

def Node.isThemeBlock : Node → Bool
  | .atRule name _ _ => name == "theme"
  | _ => false

def Node.isReference : Node → Bool
  | .atRule name params _ => isReferenceMedia name params
  | _ => false

/-- Whether a node is taken out. -/
def Node.isThemeSource (n : Node) : Bool := n.isThemeBlock || n.isReference

/-- Whether a node may stand in a theme block. -/
def Node.isThemeItem : Node → Bool
  | .decl property _ _ => Text.startsWith property "--"
  | .atRule name _ _ | .statement name _ => name == "keyframes"
  | .comment _ => true
  | .rule _ _ => false

/-- Whether a node may stand in `@media reference`. -/
def Node.isReferenceItem : Node → Bool
  | .comment _ => true
  | n => n.isThemeBlock

/-- What a node that may stand in a theme block says. -/
def Node.themeEvent? (options : ThemeOptions) : Node → Option ThemeEvent
  | .decl property value _ => some (.ofDeclaration property value options)
  | .atRule name params body => some (.keyframes ⟨Text.trim params, .atRule name params body, options⟩)
  | .statement name params => some (.keyframes ⟨Text.trim params, .statement name params, options⟩)
  | _ => none

/-- A theme block that the scan finds. -/
structure FoundBlock where
  params : String
  body : List Node
  /-- Whether it stands in `@media reference`. -/
  inReference : Bool

/-- The options of a block: its own, the inherited ones and that of `@media reference`. -/
def FoundBlock.options (inherited : ThemeOptions) (b : FoundBlock) : ThemeOptions :=
  let joined := (ThemeOptions.read b.params).union inherited
  if b.inReference then joined.union { isReference := true } else joined

/-- A block has each option that is among its own words or is inherited; in `@media reference` it is a
reference whatever it says. -/
theorem FoundBlock.options_iff (inherited : ThemeOptions) (b : FoundBlock) :
    ((b.options inherited).isInline ↔ "inline" ∈ Text.words b.params ∨ inherited.isInline) ∧
    ((b.options inherited).isReference ↔
      "reference" ∈ Text.words b.params ∨ inherited.isReference ∨ b.inReference) ∧
    ((b.options inherited).isDefault ↔ "default" ∈ Text.words b.params ∨ inherited.isDefault) ∧
    ((b.options inherited).isStatic ↔ "static" ∈ Text.words b.params ∨ inherited.isStatic) := by
  rw [FoundBlock.options]
  cases b.inReference <;> simp [ThemeOptions.union, ThemeOptions.read]

/-- What a block says, in the order of its body. -/
def FoundBlock.events (inherited : ThemeOptions) (b : FoundBlock) : List ThemeEvent :=
  b.body.filterMap (Node.themeEvent? (b.options inherited))

def Node.block? (inReference : Bool) : Node → Option FoundBlock
  | .atRule name params body => if name == "theme" then some ⟨params, body, inReference⟩ else none
  | _ => none

def Node.blocks (n : Node) : List FoundBlock :=
  if n.isReference then n.children.filterMap (Node.block? true) else (n.block? false).toList

/-- The theme blocks that are found among nodes, in document order. -/
def foundBlocks (ns : List Node) : List FoundBlock := (searched ns).flatMap Node.blocks

/-- The nodes without theme blocks and `@media reference`. All else stays as it is. -/
def withoutSources (ns : List Node) : List Node :=
  replaceEach (fun n => if n.isThemeSource then some [] else if n.isThemeGroup then none else some [n])
    ns

def Spot.IsSearched : Spot → Prop
  | here _ _ => True
  | inRule _ _ _ _ => False
  | inAtRule _ name params inner _ => (Node.atRule name params []).isThemeGroup ∧ inner.IsSearched

/-- Whether the place is that of the first node that is taken out. -/
def Spot.IsFirstSource (ns : List Node) (s : Spot) (n : Node) : Prop :=
  ns = s.fill [n] ∧ s.IsSearched ∧ n.isThemeSource ∧ ∀ m ∈ searched s.before, ¬ m.isThemeSource

section Faults

variable {ε α β : Type}

/-- A result, unless there are faults; the first one is reported. -/
def unlessFault (a : α) : List ε → Except ε α
  | [] => .ok a
  | e :: _ => .error e

private theorem unlessFault_eq_ok {a b : α} {faults : List ε} :
    unlessFault a faults = .ok b ↔ faults = [] ∧ a = b := by
  cases faults <;> simp [unlessFault]

theorem unlessFault_eq_error {a : α} {faults : List ε} {e : ε} :
    unlessFault a faults = .error e ↔ faults.head? = some e := by
  cases faults <;> simp [unlessFault]

theorem map_unlessFault (f : α → β) (a : α) (faults : List ε) :
    (unlessFault a faults).map f = unlessFault (f a) faults := by
  cases faults <;> rfl

theorem unlessFault_bind {f : α → Except ε β} {a : α} {b : β} {faults more : List ε}
    (h : f a = unlessFault b more) : unlessFault a faults >>= f = unlessFault b (faults ++ more) := by
  cases faults with
  | nil => exact h
  | cons => rfl

theorem bind_pure_unlessFault (f : α → β) (a : α) (faults : List ε) :
    unlessFault a faults >>= (fun a => pure (f a)) = unlessFault (f a) faults := by
  cases faults <;> rfl

theorem tryMapM_unlessFault {f : α → Except ε β} {g : α → β} {faults : α → List ε}
    (h : ∀ a, f a = unlessFault (g a) (faults a)) (as : List α) :
    as.mapM f = unlessFault (as.map g) (as.flatMap faults) := by
  induction as with
  | nil => rfl
  | cons a as ih =>
    rw [List.mapM_cons, h, ih, List.flatMap_cons]
    exact unlessFault_bind (bind_pure_unlessFault _ _ _)

end Faults

def Node.itemFaults (n : Node) : List CompileError :=
  if n.isThemeItem then [] else [.invalidTheme n.excerpt]

def Node.referenceFaults : Node → List CompileError
  | .atRule name params body =>
    if name == "theme" then body.flatMap Node.itemFaults
    else [.invalidReferenceMedia (Node.atRule name params body).excerpt]
  | .comment _ => []
  | n => [.invalidReferenceMedia n.excerpt]

def Node.sourceFaults (n : Node) : List CompileError :=
  if n.isReference then n.children.flatMap Node.referenceFaults
  else if n.isThemeBlock then n.children.flatMap Node.itemFaults
  else []

def themeFaults (ns : List Node) : List CompileError := (searched ns).flatMap Node.sourceFaults

namespace Collection

section Blocks

variable {inherited options : ThemeOptions} {met : Bool} {n : Node} {ns ms : List Node}

theorem themeEvents_eq (n : Node) :
    n.themeEvents options = unlessFault (n.themeEvent? options).toList n.itemFaults := by
  cases n with
  | decl property value important =>
    rw [Node.themeEvents, Node.itemFaults, Node.isThemeItem]
    split <;> rfl
  | atRule name params ns =>
    rw [Node.themeEvents.eq_def]
    split <;> simp_all [unlessFault, Node.itemFaults, Node.isThemeItem, Node.themeEvent?]
  | statement name params =>
    rw [Node.themeEvents.eq_def]
    split <;> simp_all [unlessFault, Node.itemFaults, Node.isThemeItem, Node.themeEvent?]
  | _ => rfl

theorem blockEvents_eq (body : List Node) : blockEvents options body =
    unlessFault (body.filterMap (Node.themeEvent? options)) (body.flatMap Node.itemFaults) := by
  rw [blockEvents, tryMapM_unlessFault themeEvents_eq, map_unlessFault, ← List.flatMap_def,
    List.filterMap_eq_flatMap_toList]

private theorem referenceEvents_eq (n : Node) : n.referenceEvents inherited =
    unlessFault ((n.block? true).toList.flatMap (FoundBlock.events inherited)) n.referenceFaults := by
  rw [Node.referenceEvents.eq_def]
  split
  · rw [blockEvents_eq]
    simp [Node.block?, FoundBlock.events, FoundBlock.options, Node.referenceFaults]
  · rfl
  · cases n <;> simp_all [Node.referenceFaults, unlessFault]

/-- What is found in a node that is taken out, in a group, and in any other node. -/
theorem scanThemeWith_eq (n : Node) : n.scanThemeWith inherited met =
    if n.isThemeSource then
      unlessFault (.ofBlock met (n.blocks.flatMap (FoundBlock.events inherited))) n.sourceFaults
    else if n.isThemeGroup then
      (scanThemesWith inherited met n.children).map fun s =>
        { s with nodes := [n.withChildren s.nodes] }
    else .ok ⟨[n], [], met⟩ := by
  cases n with
  | atRule name params body =>
    rw [Node.scanThemeWith]
    by_cases hname : name = "theme"
    · subst hname
      have hblock : (Node.atRule "theme" params body).blocks = [⟨params, body, false⟩] := rfl
      have hfaults : (Node.atRule "theme" params body).sourceFaults =
          body.flatMap Node.itemFaults := rfl
      have hsource : (Node.atRule "theme" params body).isThemeSource = true := rfl
      rw [if_pos (beq_self_eq_true "theme"), if_pos hsource, hblock, hfaults, blockEvents_eq,
        map_unlessFault, List.flatMap_singleton]
      rfl
    · by_cases href : isReferenceMedia name params = true
      · have hevents : (body.map fun n =>
            (n.block? true).toList.flatMap (FoundBlock.events inherited)).flatten =
              (Node.atRule name params body).blocks.flatMap (FoundBlock.events inherited) := by
          have hblocks : (Node.atRule name params body).blocks =
              body.filterMap (Node.block? true) := if_pos href
          rw [hblocks, ← List.flatMap_def, List.filterMap_eq_flatMap_toList, List.flatMap_assoc]
        have hfaults : (Node.atRule name params body).sourceFaults =
            body.flatMap Node.referenceFaults := if_pos href
        have hsource : (Node.atRule name params body).isThemeSource = true := by
          simp [Node.isThemeSource, Node.isReference, href]
        rw [if_neg (by simpa using hname), if_pos href, if_pos hsource, hfaults, ← hevents,
          tryMapM_unlessFault referenceEvents_eq, map_unlessFault]
      · simp [hname, href, Node.isThemeSource, Node.isThemeBlock, Node.isReference,
          Node.isThemeGroup, Node.withChildren, Node.children]
  | _ => rfl

end Blocks

def hasSource (ns : List Node) : Bool := (searched ns).any Node.isThemeSource

/-- Whether `ms` is what a scan leaves of `ns`; `met` says whether a node was taken out before. The
mark is put in the place of the first one. -/
def IsLeft (met : Bool) (ns ms : List Node) : Prop :=
  if met || !hasSource ns then ms = withoutSources ns
  else ∃ place n, Spot.IsFirstSource ns place n ∧ ms = withoutSources (place.fill [themeMark])

section Left

variable {inherited : ThemeOptions} {met : Bool} {n : Node} {ns ms left rest : List Node}

theorem Spot.isSearched_between (front back : List Node) {s : Spot} :
    (s.between front back).IsSearched ↔ s.IsSearched := by
  cases s <;> exact Iff.rfl

theorem searched_append (ns ms : List Node) : searched (ns ++ ms) = searched ns ++ searched ms :=
  visited_append _ ns ms

theorem hasSource_append (ns ms : List Node) :
    hasSource (ns ++ ms) = (hasSource ns || hasSource ms) := by
  rw [hasSource, searched_append, List.any_append, hasSource, hasSource]

theorem hasSource_singleton (n : Node) :
    hasSource [n] = (n.isThemeSource || (n.isThemeGroup && hasSource n.children)) := by
  rw [hasSource, searched, visited_cons, List.any_cons, visited, List.append_nil]
  cases n.isThemeGroup <;> rfl

theorem hasSource_eq_false_iff : hasSource ns = false ↔ ∀ n ∈ searched ns, ¬ n.isThemeSource :=
  List.any_eq_false

theorem withoutSources_append (ns ms : List Node) :
    withoutSources (ns ++ ms) = withoutSources ns ++ withoutSources ms :=
  replaceEach_append _ ns ms

theorem withoutSources_singleton (n : Node) : withoutSources [n] =
    if n.isThemeSource then [] else
      [if n.isThemeGroup then n.withChildren (withoutSources n.children) else n] := by
  rw [withoutSources, replaceEach, replaceEach, List.append_nil, Node.replace_eq]
  split
  · rfl
  · split <;> rfl

theorem withoutSources_eq_self (h : hasSource ns = false) : withoutSources ns = ns := by
  induction ns using forest_induction with
  | nil => rfl
  | cons n ns ihn ih =>
    rw [← List.singleton_append, hasSource_append, Bool.or_eq_false_iff, hasSource_singleton,
      Bool.or_eq_false_iff] at h
    obtain ⟨⟨hsource, hinner⟩, hns⟩ := h
    rw [← List.singleton_append, withoutSources_append, withoutSources_singleton, hsource, ih hns]
    cases hgroup : n.isThemeGroup with
    | true =>
      rw [hgroup, Bool.true_and] at hinner
      rw [ihn hinner, Node.withChildren_children]
      rfl
    | false => rfl

/-- What is left of two lists of nodes in sequence. -/
theorem IsLeft.append (h : IsLeft met ns left) (hrest : IsLeft (met || hasSource ns) ms rest) :
    IsLeft met (ns ++ ms) (left ++ rest) := by
  unfold IsLeft at h hrest ⊢
  rw [hasSource_append]
  cases met with
  | true =>
    obtain rfl : left = withoutSources ns := h
    obtain rfl : rest = withoutSources ms := hrest
    exact (withoutSources_append ns ms).symm
  | false =>
    cases hns : hasSource ns with
    | true =>
      rw [hns] at h hrest
      obtain ⟨place, n, ⟨rfl, hopen, hsource, hbefore⟩, rfl⟩ := h
      obtain rfl : rest = withoutSources ms := hrest
      refine ⟨place.between [] ms, n, ⟨?_, ?_, hsource, ?_⟩, ?_⟩
      · rw [Spot.fill_between, List.nil_append]
      · exact (Spot.isSearched_between [] ms).2 hopen
      · rwa [Spot.before_between, List.nil_append]
      · rw [Spot.fill_between, List.nil_append, withoutSources_append]
    | false =>
      rw [hns] at h hrest
      obtain rfl : left = withoutSources ns := h
      rw [withoutSources_eq_self hns]
      cases hms : hasSource ms with
      | true =>
        rw [hms] at hrest
        obtain ⟨place, n, ⟨rfl, hopen, hsource, hbefore⟩, rfl⟩ := hrest
        refine ⟨place.between ns [], n, ⟨?_, ?_, hsource, ?_⟩, ?_⟩
        · rw [Spot.fill_between, List.append_nil]
        · exact (Spot.isSearched_between ns []).2 hopen
        · rw [Spot.before_between, searched_append, List.forall_mem_append]
          exact ⟨hasSource_eq_false_iff.1 hns, hbefore⟩
        · rw [Spot.fill_between, List.append_nil, withoutSources_append, withoutSources_eq_self hns]
      | false =>
        rw [hms] at hrest
        obtain rfl : rest = withoutSources ms := hrest
        change ns ++ _ = _
        rw [withoutSources_append, withoutSources_eq_self hns]

/-- What is left of a node that is taken out. -/
theorem IsLeft.source (h : n.isThemeSource) :
    IsLeft met [n] (if met then [] else [themeMark]) := by
  have hone : hasSource [n] = true := by rw [hasSource_singleton, h, Bool.true_or]
  rw [IsLeft, hone]
  cases met with
  | true =>
    change [] = _
    rw [withoutSources_singleton, if_pos h]
  | false =>
    exact ⟨.here [] [], n, ⟨rfl, trivial, h, nofun⟩, rfl⟩

/-- What is left of a group is the group around what is left of the nodes inside. -/
theorem IsLeft.group (hsource : n.isThemeSource = false) (hgroup : n.isThemeGroup)
    (h : IsLeft met n.children left) : IsLeft met [n] [n.withChildren left] := by
  have hone : hasSource [n] = hasSource n.children := by
    rw [hasSource_singleton, hsource, hgroup, Bool.false_or, Bool.true_and]
  unfold IsLeft at h ⊢
  rw [hone]
  split at h
  · next hbehind =>
    rw [if_pos hbehind, withoutSources_singleton, hsource, hgroup, h]
    rfl
  · next hfirst =>
    rw [if_neg hfirst]
    obtain ⟨place, m, ⟨hplace, hopen, hm, hbefore⟩, rfl⟩ := h
    cases n with
    | atRule name params body =>
      obtain rfl : body = place.fill [m] := hplace
      refine ⟨.inAtRule [] name params place [], m, ⟨rfl, ⟨hgroup, hopen⟩, hm, hbefore⟩, ?_⟩
      have hsource' : (Node.atRule name params (place.fill [themeMark])).isThemeSource = false :=
        hsource
      have hgroup' : (Node.atRule name params (place.fill [themeMark])).isThemeGroup = true := hgroup
      change _ = withoutSources [.atRule name params (place.fill [themeMark])]
      rw [withoutSources_singleton, hsource', hgroup']
      rfl
    | _ => cases hgroup

theorem IsLeft.other (hsource : n.isThemeSource = false) (hgroup : n.isThemeGroup = false) :
    IsLeft met [n] [n] := by
  have hone : hasSource [n] = false := by
    rw [hasSource_singleton, hsource, hgroup, Bool.false_or, Bool.false_and]
  rw [IsLeft, hone, Bool.not_false, Bool.or_true, if_pos rfl, withoutSources_eq_self hone]

end Left

section Scan

variable {inherited : ThemeOptions} {met : Bool} {n : Node} {ns : List Node}

private theorem searched_singleton (n : Node) :
    searched [n] = n :: if n.isThemeGroup then searched n.children else [] := by
  rw [searched, visited_cons, visited, List.append_nil]
  rfl

private theorem isThemeGroup_of_isThemeSource (h : n.isThemeSource) : n.isThemeGroup = false := by
  cases n with
  | atRule name params body =>
    rcases Bool.or_eq_true_iff.1 h with hname | href
    · obtain rfl : name = "theme" := eq_of_beq hname
      rfl
    · have href : isReferenceMedia name params = true := href
      rw [Node.isThemeGroup, href, Bool.not_true, Bool.and_false]
  | _ => rfl

private theorem blocks_of_not_isThemeSource (h : n.isThemeSource = false) : n.blocks = [] := by
  obtain ⟨hblock, href⟩ := Bool.or_eq_false_iff.1 h
  rw [Node.blocks, href]
  cases n with
  | atRule name params body =>
    have hname : (name == "theme") = false := hblock
    simp [Node.block?, hname]
  | _ => rfl

private theorem sourceFaults_of_not_isThemeSource (h : n.isThemeSource = false) :
    n.sourceFaults = [] := by
  obtain ⟨hblock, href⟩ := Bool.or_eq_false_iff.1 h
  rw [Node.sourceFaults, hblock, href]
  rfl

theorem flatMap_itemFaults_ne_nil_iff (body : List Node) :
    body.flatMap Node.itemFaults ≠ [] ↔ ∃ n ∈ body, ¬ n.isThemeItem := by
  simp [Node.itemFaults]

theorem exists_block_iff (inReference : Bool) (n : Node) :
    (∃ b, n.block? inReference = some b ∧ ∃ m ∈ b.body, ¬ m.isThemeItem) ↔
      n.isThemeBlock ∧ ∃ m ∈ n.children, ¬ m.isThemeItem := by
  cases n with
  | atRule name params body => simp [Node.block?, Node.isThemeBlock, Node.children]
  | _ => simp [Node.block?, Node.isThemeBlock]

private theorem referenceFaults_ne_nil_iff (n : Node) : n.referenceFaults ≠ [] ↔
    (n.isThemeBlock ∧ ∃ m ∈ n.children, ¬ m.isThemeItem) ∨ ¬ n.isReferenceItem := by
  cases n with
  | atRule name params body =>
    rw [Node.referenceFaults]
    split
    · next hname =>
      rw [flatMap_itemFaults_ne_nil_iff]
      simp [Node.isThemeBlock, Node.isReferenceItem, Node.children, hname]
    · next hname => simp [Node.isReferenceItem, Node.isThemeBlock, hname]
  | _ => simp [Node.referenceFaults, Node.isReferenceItem, Node.isThemeBlock]

/-- There is a fault in a block that a node is, in one in `@media reference`, or next to these. -/
theorem sourceFaults_ne_nil_iff (n : Node) : n.sourceFaults ≠ [] ↔
    (∃ b ∈ n.blocks, ∃ m ∈ b.body, ¬ m.isThemeItem) ∨
      (n.isReference ∧ ∃ m ∈ n.children, ¬ m.isReferenceItem) := by
  rw [Node.sourceFaults, Node.blocks]
  cases n.isReference with
  | true =>
    have hblocks : (∃ b ∈ n.children.filterMap (Node.block? true), ∃ m ∈ b.body, ¬ m.isThemeItem) ↔
        ∃ k ∈ n.children, k.isThemeBlock ∧ ∃ m ∈ k.children, ¬ m.isThemeItem := by
      simp only [List.mem_filterMap, ← exists_block_iff true]
      constructor
      · rintro ⟨b, ⟨k, hk, hb⟩, hitem⟩
        exact ⟨k, hk, b, hb, hitem⟩
      · rintro ⟨k, hk, b, hb, hitem⟩
        exact ⟨b, ⟨k, hk, hb⟩, hitem⟩
    have hfaults : n.children.flatMap Node.referenceFaults ≠ [] ↔
        ∃ k ∈ n.children, k.referenceFaults ≠ [] := by
      simp
    rw [if_pos rfl, if_pos rfl, hfaults, hblocks]
    simp only [referenceFaults_ne_nil_iff, and_or_left, exists_or, true_and]
  | false =>
    have hblocks : (∃ b ∈ (n.block? false).toList, ∃ m ∈ b.body, ¬ m.isThemeItem) ↔
        n.isThemeBlock ∧ ∃ m ∈ n.children, ¬ m.isThemeItem := by
      simp only [Option.mem_toList]
      exact exists_block_iff false n
    rw [if_neg Bool.false_ne_true, if_neg Bool.false_ne_true, hblocks, ← flatMap_itemFaults_ne_nil_iff]
    cases n.isThemeBlock <;> simp

private theorem themeFaults_ne_nil_iff (ns : List Node) : themeFaults ns ≠ [] ↔
    (∃ b ∈ foundBlocks ns, ∃ n ∈ b.body, ¬ n.isThemeItem) ∨
      ∃ m ∈ searched ns, m.isReference ∧ ∃ n ∈ m.children, ¬ n.isReferenceItem := by
  have hfault : themeFaults ns ≠ [] ↔ ∃ n ∈ searched ns, n.sourceFaults ≠ [] := by
    simp [themeFaults]
  rw [hfault]
  simp only [sourceFaults_ne_nil_iff, foundBlocks, List.mem_flatMap]
  constructor
  · rintro ⟨n, hn, ⟨b, hb, hitem⟩ | hreference⟩
    · exact .inl ⟨b, ⟨n, hn, hb⟩, hitem⟩
    · exact .inr ⟨n, hn, hreference⟩
  · rintro (⟨b, ⟨n, hn, hb⟩, hitem⟩ | ⟨n, hn, hreference⟩)
    · exact ⟨n, hn, .inl ⟨b, hb, hitem⟩⟩
    · exact ⟨n, hn, .inr hreference⟩

/-- A scan leaves the nodes without what is taken out, but for the mark; it gives the events of all
blocks that are found, and it fails with the first fault. -/
theorem exists_isLeft (inherited : ThemeOptions) (met : Bool) (ns : List Node) :
    ∃ ms, IsLeft met ns ms ∧ scanThemesWith inherited met ns =
      unlessFault ⟨ms, (foundBlocks ns).flatMap (FoundBlock.events inherited), met || hasSource ns⟩
        (themeFaults ns) := by
  induction ns using forest_induction generalizing met with
  | nil =>
    refine ⟨[], ?_, ?_⟩
    · cases met <;> rfl
    · cases met <;> rfl
  | cons n ns ihn ih =>
    have hnode : ∃ ms, IsLeft met [n] ms ∧ n.scanThemeWith inherited met =
        unlessFault ⟨ms, (foundBlocks [n]).flatMap (FoundBlock.events inherited),
          met || hasSource [n]⟩ (themeFaults [n]) := by
      rw [scanThemeWith_eq, hasSource_singleton, foundBlocks, themeFaults, searched_singleton]
      cases hsource : n.isThemeSource with
      | true =>
        refine ⟨_, .source hsource, ?_⟩
        rw [isThemeGroup_of_isThemeSource hsource]
        simp [ThemeScan.ofBlock]
      | false =>
        rw [List.flatMap_cons, blocks_of_not_isThemeSource hsource, List.flatMap_cons,
          sourceFaults_of_not_isThemeSource hsource]
        cases hgroup : n.isThemeGroup with
        | true =>
          obtain ⟨ms, hms, hscan⟩ := ihn met
          refine ⟨_, hms.group hsource hgroup, ?_⟩
          rw [hscan]
          exact map_unlessFault _ _ _
        | false => exact ⟨_, .other hsource hgroup, by cases met <;> rfl⟩
    obtain ⟨front, hfront, hscan⟩ := hnode
    obtain ⟨rest, hrest, hscans⟩ := ih (met || hasSource [n])
    refine ⟨front ++ rest, hfront.append hrest, ?_⟩
    have hsource : hasSource (n :: ns) = (hasSource [n] || hasSource ns) := hasSource_append [n] ns
    have hblocks : foundBlocks (n :: ns) = foundBlocks [n] ++ foundBlocks ns := by
      rw [← List.singleton_append, foundBlocks, searched_append, List.flatMap_append]
      rfl
    have hfaults : themeFaults (n :: ns) = themeFaults [n] ++ themeFaults ns := by
      rw [← List.singleton_append, themeFaults, searched_append, List.flatMap_append]
      rfl
    rw [scanThemesWith, hscan, hsource, hblocks, hfaults, List.flatMap_append, ← Bool.or_assoc]
    apply unlessFault_bind
    dsimp only
    rw [hscans, bind_pure_unlessFault]

/-- A scan fails with the first fault in document order. -/
theorem scanThemesWith_eq_error_iff {e : CompileError} :
    scanThemesWith inherited met ns = .error e ↔ (themeFaults ns).head? = some e := by
  obtain ⟨ms, -, h⟩ := exists_isLeft inherited met ns
  rw [h, unlessFault_eq_error]

end Scan

end Collection

open Collection

/-- A scan fails exactly if a theme block that is found, or `@media reference`, holds what may not
stand in it. Otherwise its events are those of all blocks that are found, in document order. What it
leaves is the nodes without blocks and `@media reference`, and one mark in the place of the first of
these. All else stays as it is. -/
theorem scanThemesWith_exact (inherited : ThemeOptions) (ns : List Node) :
    ((∃ e, scanThemesWith inherited false ns = .error e) ↔
      (∃ b ∈ foundBlocks ns, ∃ n ∈ b.body, ¬ n.isThemeItem) ∨
        ∃ m ∈ searched ns, m.isReference ∧ ∃ n ∈ m.children, ¬ n.isReferenceItem) ∧
    ∀ s, scanThemesWith inherited false ns = .ok s →
      s.events = (foundBlocks ns).flatMap (FoundBlock.events inherited) ∧
      ((∀ n ∈ searched ns, ¬ n.isThemeSource) → s.nodes = ns) ∧
      ((∃ n ∈ searched ns, n.isThemeSource) → ∃ place n, Spot.IsFirstSource ns place n ∧
        s.nodes = withoutSources (place.fill [themeMark])) := by
  obtain ⟨ms, hms, hscan⟩ := exists_isLeft inherited false ns
  rw [hscan]
  constructor
  · rw [← themeFaults_ne_nil_iff, ne_eq, ← List.head?_eq_none_iff, ← ne_eq,
      Option.ne_none_iff_exists']
    simp only [unlessFault_eq_error]
  · intro s hs
    obtain ⟨-, rfl⟩ := unlessFault_eq_ok.1 hs
    unfold IsLeft at hms
    refine ⟨rfl, fun hnone => ?_, fun hsome => ?_⟩
    · have hsource : hasSource ns = false := hasSource_eq_false_iff.2 hnone
      rw [hsource] at hms
      rw [← withoutSources_eq_self hsource]
      exact hms
    · have hsource : hasSource ns = true := List.any_eq_true.2 hsome
      rw [hsource] at hms
      exact hms

end UtilityCss
