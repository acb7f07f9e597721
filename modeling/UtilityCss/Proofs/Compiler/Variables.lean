import UtilityCss.Compiler.Output
import UtilityCss.Proofs.Stylesheet.Replace
import UtilityCss.Proofs.Theme.Reachable

/-!
# Variables that the output reads

The variables to be declared are chosen from the flat stylesheet with the rules for class names in
it. What the flat stylesheet reads is declared, and so is what the declared values read. The theme's
keyframes and the definitions of properties are added afterwards, and what they alone read is not.
-/

namespace UtilityCss

theorem Node.references_head (n : Node) : n.head.references = n.references := by
  cases n <;> rfl

theorem readNames_append (ns ms : List Node) :
    readNames (ns ++ ms) = readNames ns ++ readNames ms := by
  rw [readNames, allNodes_append, List.flatMap_append]
  rfl

namespace Compiler

variable (c : Compiler) (ns : List Node) (names : List String)

/-- The flat stylesheet that the variables and keyframes in use are looked for in. -/
def flatNodes : List Node := flatten (withoutProperties (c.assembled names))

/-- The entries of the theme that are declared for some nodes. -/
def declaredEntries : List ThemeEntry :=
  (c.system.theme.entriesUsed ns).filterMap c.system.theme.get?

/-- The keyframes of the theme that are written for some nodes. -/
def keyframeNodes : List Node :=
  let words := (allNodes (ns ++ c.variableRule ns)).flatMap Node.animationWords
  (c.system.theme.keyframes.filter (·.isEmitted words)).map (·.node)

/-- What is written although the variables were not chosen for it: keyframes of the theme and
definitions of properties. -/
def lateNodes : List Node :=
  c.keyframeNodes (c.flatNodes names) ++
    propertyNodes ((definedProperties (c.assembled names)).foldl PropertyRegistry.register [])

/-- Whether the output declares a variable in the rule for the variables of the theme. -/
def Declares (key : String) : Prop :=
  ∃ n ∈ c.variableRule (c.flatNodes names), n ∈ allNodes (c.output names) ∧
    ∃ value, .plain key value ∈ n.children

theorem variableRule_eq :
    c.variableRule ns = if (c.declaredEntries ns).isEmpty then []
      else [.rule c.rootSelector ((c.declaredEntries ns).map fun e => .plain e.key e.value)] := rfl

theorem themeNodes_eq : c.themeNodes ns = c.variableRule ns ++ c.keyframeNodes ns := rfl

variable {c ns names} {key : String} {e : ThemeEntry}

theorem mem_declaredEntries :
    e ∈ c.declaredEntries ns ↔
      c.system.theme.get? e.key = some e ∧ e.key ∈ c.system.theme.entriesUsed ns := by
  rw [declaredEntries]
  rw [List.mem_filterMap]
  constructor
  · rintro ⟨key, hkey, he⟩
    obtain rfl := (Theme.mem_of_get? he).2
    exact ⟨he, hkey⟩
  · rintro ⟨he, hkey⟩
    exact ⟨_, hkey, he⟩

private theorem exists_declaredEntries :
    (∃ e ∈ c.declaredEntries ns, e.key = key) ↔ key ∈ c.system.theme.entriesUsed ns := by
  constructor
  · rintro ⟨e, he, rfl⟩
    exact (mem_declaredEntries.1 he).2
  · intro h
    obtain ⟨e, he, -, rfl⟩ := (Theme.mem_entriesUsed.1 h).1
    obtain ⟨e', he'⟩ := Option.isSome_iff_exists.1 (entryOf?_isSome he)
    have hkey := (Theme.mem_of_get? he').2
    exact ⟨e', mem_declaredEntries.2 (by rw [hkey]; exact ⟨he', h⟩), hkey⟩

theorem mem_variableRule {n : Node} :
    n ∈ c.variableRule ns ↔ c.declaredEntries ns ≠ [] ∧
      n = .rule c.rootSelector ((c.declaredEntries ns).map fun e => .plain e.key e.value) := by
  rw [variableRule_eq]
  split
  · next h => simp [List.isEmpty_iff.1 h]
  · next h => simp_all

private theorem references_variableRule (ns : List Node) :
    (Node.rule c.rootSelector ns).references = [] := by
  change varReferences c.rootSelector = []
  rw [rootSelector]
  split <;> decide

theorem allNodes_decls (es : List ThemeEntry) :
    allNodes (es.map fun e => Node.plain e.key e.value) = es.map fun e => .plain e.key e.value := by
  induction es with
  | nil => rfl
  | cons e es ih =>
    rw [List.map_cons, allNodes_cons, ih]
    rfl

theorem mem_readNames_variableRule :
    key ∈ readNames (c.variableRule ns) ↔
      ∃ e ∈ c.declaredEntries ns, key ∈ (Node.plain e.key e.value).references := by
  rw [variableRule_eq]
  split
  · next h => simp [List.isEmpty_iff.1 h, readNames]
  · simp only [readNames, allNodes_cons, Node.children, allNodes_decls, allNodes_nil, List.append_nil,
      List.flatMap_cons, references_variableRule, List.nil_append, List.flatMap_map,
      List.mem_flatMap]

private theorem mem_withTheme {m : Node} (h : m ∈ allNodes (c.withTheme ns)) :
    (∃ m' ∈ allNodes ns, m'.head = m.head) ∨ m ∈ allNodes (c.themeNodes ns) := by
  rw [withTheme] at h
  dsimp only at h
  split at h
  · exact mem_placeAtFirst h
  · rw [allNodes_append, List.mem_append] at h
    rcases h with h | h
    · exact .inr h
    · exact mem_placeAtFirst h

theorem themeNodes_subset : allNodes (c.themeNodes ns) ⊆ allNodes (c.withTheme ns) := by
  rw [withTheme]
  dsimp only
  split
  · exact subset_placeAtFirst ‹_›
  · rw [allNodes_append]
    exact List.subset_append_left _ _

theorem output_eq :
    c.output names = c.withTheme (c.flatNodes names) ++
      propertyNodes ((definedProperties (c.assembled names)).foldl PropertyRegistry.register []) :=
  rfl

theorem readNames_output (h : key ∈ readNames (c.output names)) :
    key ∈ readNames (c.flatNodes names) ∨
      (∃ e ∈ c.declaredEntries (c.flatNodes names), key ∈ (Node.plain e.key e.value).references) ∨
      key ∈ readNames (c.lateNodes names) := by
  rw [output_eq, readNames_append, List.mem_append] at h
  rw [lateNodes, readNames_append, List.mem_append, ← mem_readNames_variableRule]
  rcases h with h | h
  · obtain ⟨m, hm, hkey⟩ := mem_readNames.1 h
    rcases mem_withTheme hm with ⟨m', hm', hhead⟩ | hm
    · refine .inl (mem_readNames.2 ⟨m', hm', ?_⟩)
      rwa [← Node.references_head, hhead, Node.references_head]
    · have hmem := mem_readNames.2 ⟨m, hm, hkey⟩
      rw [themeNodes_eq, readNames_append, List.mem_append] at hmem
      exact .inr (hmem.imp_right .inl)
  · exact .inr (.inr (.inr h))

theorem readNames_themeNodes (h : key ∈ readNames (c.themeNodes (c.flatNodes names))) :
    key ∈ readNames (c.output names) := by
  obtain ⟨m, hm, hkey⟩ := mem_readNames.1 h
  rw [output_eq, readNames_append]
  exact List.mem_append_left _ (mem_readNames.2 ⟨m, themeNodes_subset hm, hkey⟩)

theorem readNames_lateNodes (h : key ∈ readNames (c.lateNodes names)) :
    key ∈ readNames (c.output names) := by
  rw [lateNodes, readNames_append, List.mem_append] at h
  rcases h with h | h
  · apply readNames_themeNodes
    rw [themeNodes_eq, readNames_append]
    exact List.mem_append_right _ h
  · rw [output_eq, readNames_append]
    exact List.mem_append_right _ h

/-- The variables that are declared are those that the flat stylesheet needs. -/
theorem declares_iff :
    c.Declares names key ↔
      c.system.theme.IsEmittable key ∧ c.system.theme.IsNeeded (c.flatNodes names) key := by
  rw [← Theme.mem_entriesUsed, ← exists_declaredEntries]
  constructor
  · rintro ⟨n, hn, -, value, hvalue⟩
    rw [(mem_variableRule.1 hn).2] at hvalue
    obtain ⟨e, he, heq⟩ := List.mem_map.1 hvalue
    injection heq with hkey
    exact ⟨e, he, hkey⟩
  · rintro ⟨e, he, rfl⟩
    have hrule := mem_variableRule.2 ⟨List.ne_nil_of_mem he, rfl⟩
    refine ⟨_, hrule, ?_, e.value, List.mem_map_of_mem he⟩
    rw [output_eq, allNodes_append, List.mem_append]
    refine .inl (themeNodes_subset ?_)
    rw [themeNodes_eq, allNodes_append]
    exact List.mem_append_left _ (mem_allNodes_of_mem hrule)

theorem isNeeded_of_declaredEntries (he : e ∈ c.declaredEntries ns)
    (h : key ∈ varReferences e.value) : c.system.theme.IsNeeded ns key := by
  obtain ⟨hget, hused⟩ := mem_declaredEntries.1 he
  exact .value (Theme.mem_entriesUsed.1 hused).2 hget h

@[simp]
theorem compiled_nil : c.compiled [] = [] := by
  have hnames : classNames [] = [] := by
    rw [classNames, sortBy]
    rw [List.map_nil, List.filter_nil, List.mergeSort_nil, List.eraseDups_nil]
  rw [compiled, DesignSystem.sort, sortBy]
  rw [hnames, List.filterMap_nil, List.mergeSort_nil]

theorem flatNodes_nil : c.flatNodes [] =
    flatten (withoutProperties (placeAtFirst Node.isUtilitiesMark [] c.nodes).1) := by
  rw [flatNodes, assembled, utilityRules, compiled_nil, List.map_nil]

theorem declaredEntries_eq_nil (hread : readNames ns = []) (hstatic : c.system.theme.staticKeys = []) :
    c.declaredEntries ns = [] := by
  refine List.eq_nil_iff_forall_not_mem.2 fun e he => ?_
  have hneeded := (Theme.mem_entriesUsed.1 (mem_declaredEntries.1 he).2).2
  rw [Theme.IsNeeded, hread, hstatic] at hneeded
  exact Theme.not_needed_nil hneeded

variable (c names)

/-- No variable of the theme that the flat stylesheet or a declared value reads dangles, and none
does at all exactly if those that are read by keyframes of the theme, by definitions of properties
or inside the name of a declared variable are needed in any case. -/
theorem declares_of_read_and_iff :
    (∀ key, c.system.theme.IsEmittable key →
      key ∈ readNames (c.flatNodes names) ∨
        (∃ e ∈ c.declaredEntries (c.flatNodes names), key ∈ varReferences e.value) →
      c.Declares names key) ∧
    ((∀ key, c.system.theme.IsEmittable key → key ∈ readNames (c.output names) →
        c.Declares names key) ↔
      ∀ key, c.system.theme.IsEmittable key →
        key ∈ readNames (c.lateNodes names) ∨
          (∃ e ∈ c.declaredEntries (c.flatNodes names),
            Text.startsWith e.key "--" ∧ key ∈ varReferences e.key) →
        c.system.theme.IsNeeded (c.flatNodes names) key) := by
  have hread : ∀ key, key ∈ readNames (c.flatNodes names) →
      c.system.theme.IsNeeded (c.flatNodes names) key :=
    fun key h => .start (List.mem_append_left _ h)
  refine ⟨?_, ?_, ?_⟩
  · rintro key hem (h | ⟨e, he, h⟩)
    · exact declares_iff.2 ⟨hem, hread key h⟩
    · exact declares_iff.2 ⟨hem, isNeeded_of_declaredEntries he h⟩
  · rintro hall key hem (h | ⟨e, he, hdash, h⟩)
    · exact (declares_iff.1 (hall key hem (readNames_lateNodes h))).2
    · refine (declares_iff.1 (hall key hem (readNames_themeNodes ?_))).2
      rw [themeNodes_eq, readNames_append, List.mem_append, mem_readNames_variableRule]
      refine .inl ⟨e, he, List.mem_append_right _ ?_⟩
      rwa [if_pos hdash]
  · intro hall key hem h
    refine declares_iff.2 ⟨hem, ?_⟩
    rcases readNames_output h with h | ⟨e, he, h⟩ | h
    · exact hread key h
    · rcases List.mem_append.1 h with h | h
      · exact isNeeded_of_declaredEntries he h
      · split at h
        · exact hall key hem (.inr ⟨e, he, ‹_›, h⟩)
        · exact absurd h List.not_mem_nil
    · exact hall key hem (.inl h)

end Compiler

theorem exists_of_compile (css : String) (p : Compiler → Bool)
    (h : (compile css "" .refusing).toOption.any p = true) :
    ∃ c, compile css "" .refusing = .ok c ∧ p c = true :=
  exists_ok p h

namespace Compiler

/-- What the rule for a class reads is declared. -/
theorem declares_of_read_and_iff_class :
    ∃ c, compile "@theme \x7b --color-x: red; \x7d .a \x7b color: var(--color-x); \x7d" "" .refusing =
      .ok c ∧ c.Declares [] "--color-x" := by
  obtain ⟨c, hc, h⟩ := exists_of_compile
    "@theme \x7b --color-x: red; \x7d .a \x7b color: var(--color-x); \x7d"
    (fun c =>
      c.system.theme.entries.any (fun e => e.emittable && e.key == "--color-x") &&
        (readNames (flatten (withoutProperties
          (placeAtFirst Node.isUtilitiesMark [] c.nodes).1))).contains "--color-x")
    (by decide +kernel)
  simp only [← flatNodes_nil, Bool.and_eq_true, List.any_eq_true, beq_iff_eq,
    List.contains_iff_mem] at h
  exact ⟨c, hc, (c.declares_of_read_and_iff []).1 "--color-x" h.1 (.inl h.2)⟩

def keyframeStyles : String :=
  "@theme \x7b --color-x: red; @keyframes spin \x7b to \x7b color: var(--color-x); \x7d \x7d \x7d" ++
    ".a \x7b animation: spin 1s; \x7d"

/-- A variable that keyframes of the theme alone read dangles. -/
theorem keyframes_dangle :
    ∃ c, compile keyframeStyles "" .refusing = .ok c ∧ c.system.theme.IsEmittable "--color-x" ∧
      "--color-x" ∈ readNames (c.output []) ∧ ¬ c.Declares [] "--color-x" := by
  obtain ⟨c, hc, h⟩ := exists_of_compile keyframeStyles
    (fun c =>
      let ns := flatten (withoutProperties (placeAtFirst Node.isUtilitiesMark [] c.nodes).1)
      let words := (allNodes ns).flatMap Node.animationWords
      (readNames ns).isEmpty && c.system.theme.staticKeys.isEmpty &&
        c.system.theme.entries.any (fun e => e.emittable && e.key == "--color-x") &&
        (readNames ((c.system.theme.keyframes.filter (·.isEmitted words)).map
          (·.node))).contains "--color-x")
    (by decide +kernel)
  simp only [← flatNodes_nil, Bool.and_eq_true, List.isEmpty_iff, List.any_eq_true, beq_iff_eq,
    List.contains_iff_mem] at h
  obtain ⟨⟨⟨hread, hstatic⟩, hem⟩, hkey⟩ := h
  have hrule : c.variableRule (c.flatNodes []) = [] := by
    rw [variableRule_eq, declaredEntries_eq_nil hread hstatic]
    rfl
  refine ⟨c, hc, hem, readNames_lateNodes ?_, ?_⟩
  · rw [lateNodes, readNames_append, List.mem_append]
    left
    rw [keyframeNodes, hrule, List.append_nil]
    exact hkey
  · rintro ⟨n, hn, -⟩
    rw [hrule] at hn
    exact absurd hn List.not_mem_nil

end Compiler

end UtilityCss
