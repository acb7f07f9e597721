import UtilityCss.Import.Loader
import UtilityCss.Proofs.Stylesheet.Replace

/-!
# What is loaded

What is loaded for nodes is put together from the parts that the nodes ask for. A part is a stylesheet
in the conditions of an import, or a module without nodes, or the node itself.
-/

namespace UtilityCss

theorem foldl_append_eq (parts : List Loaded) (start : Loaded) :
    parts.foldl Loaded.append start =
      ⟨start.nodes ++ parts.flatMap (·.nodes), start.modules ++ parts.flatMap (·.modules),
        start.plugins ++ parts.flatMap (·.plugins)⟩ := by
  induction parts generalizing start with
  | nil => simp
  | cons part parts ih => simp [ih, Loaded.append]

theorem mem_addThemeOptions {options : String} {ns : List Node} {m : Node} :
    m ∈ addThemeOptions options ns ↔ ∃ n ∈ ns, n.addThemeOptions options = m := by
  induction ns with
  | nil => simp [addThemeOptions]
  | cons n ns ih => simp [addThemeOptions, ih, eq_comm]

namespace Resolver

def Knows (r : Resolver) (m : Module) : Prop :=
  ∃ kind name base place, r.module kind name base = .ok (m, place)

variable {r : Resolver} {base : String} {ns : List Node} {load : Import → Except CompileError Loaded}
  {loaded part : Loaded} {n : Node}

theorem exists_parts (h : r.loadNodes base load ns = .ok loaded) :
    ∃ parts, ns.mapM (r.loadNode base load) = .ok parts ∧
      loaded.nodes = parts.flatMap (·.nodes) ∧ loaded.modules = parts.flatMap (·.modules) := by
  obtain ⟨parts, hparts, rfl⟩ := map_eq_ok.1 h
  rw [foldl_append_eq]
  exact ⟨parts, hparts, List.nil_append _, List.nil_append _⟩

theorem knows_of_moduleOf {kind : ModuleKind} {name base place : String} {m : Module}
    (h : r.moduleOf kind name base = .ok (m, place)) : r.Knows m :=
  ⟨kind, name, base, place, mapError_eq_ok.1 h⟩

private theorem of_loadConfig {params : String} (h : r.loadConfig params base = .ok part) :
    part.nodes = [] ∧ ∀ m ∈ part.modules, r.Knows m.module := by
  rw [loadConfig] at h
  obtain ⟨name, -, h⟩ := bind_eq_ok.1 h
  obtain ⟨⟨m, place⟩, hm, h⟩ := bind_eq_ok.1 h
  split at h
  · cases h
  · next heq =>
    cases heq
    obtain ⟨plugins, hplugins, h⟩ := bind_eq_ok.1 h
    cases h
    refine ⟨rfl, List.forall_mem_cons.2 ⟨knows_of_moduleOf hm, fun m hmem => ?_⟩⟩
    obtain ⟨⟨plugin, place'⟩, hplugin, rfl⟩ := List.mem_map.1 hmem
    obtain ⟨name', -, hread⟩ := exists_of_mem_tryMapM hplugins hplugin
    exact knows_of_moduleOf hread

theorem of_loadPlugin {params : String} {body : List Node}
    (h : r.loadPlugin params body base = .ok part) :
    part.nodes = [] ∧ ∀ m ∈ part.modules, r.Knows m.module := by
  rw [loadPlugin] at h
  obtain ⟨name, -, h⟩ := bind_eq_ok.1 h
  obtain ⟨options, -, h⟩ := bind_eq_ok.1 h
  obtain ⟨⟨m, place⟩, hm, h⟩ := bind_eq_ok.1 h
  split at h
  · cases h
  · next heq =>
    cases heq
    cases h
    exact ⟨rfl, List.forall_mem_singleton.2 (knows_of_moduleOf hm)⟩

/-- What a node asks for: the stylesheet that it imports, modules, or itself. -/
theorem loadNode_cases (h : r.loadNode base load n = .ok part) :
    (∃ params i inner, n = .statement "import" params ∧ Import.read? params = some i ∧
        load i = .ok inner ∧ part = { inner with nodes := i.wrap inner.nodes }) ∨
      (part.nodes = [] ∧ ∀ m ∈ part.modules, r.Knows m.module) ∨
      part = { nodes := [n] } ∧
        ∀ params, n = .statement "import" params → Import.read? params = none := by
  rw [loadNode.eq_def] at h
  split at h
  · next params =>
    split at h
    · next i hread =>
      obtain ⟨inner, hinner, rfl⟩ := map_eq_ok.1 h
      exact .inl ⟨params, i, inner, rfl, hread, hinner, rfl⟩
    · next hread =>
      cases h
      exact .inr (.inr ⟨rfl, fun _ heq => by cases heq; exact hread⟩)
  · exact .inr (.inl (of_loadConfig h))
  · exact .inr (.inl (of_loadPlugin h))
  · exact .inr (.inl (of_loadPlugin h))
  · next himport _ _ _ =>
    cases h
    exact .inr (.inr ⟨rfl, fun params heq => (himport params heq).elim⟩)

/-- An import is loaded by opening its stylesheet and loading what is in it, one import deeper. -/
theorem exists_of_loadWithin {depth : Nat} {chain : List String}
    (h : r.loadWithin depth base chain ns = .ok loaded) :
    ∃ load, r.loadNodes base load ns = .ok loaded ∧ ∀ i part, load i = .ok part →
      ∃ depth' inner place chain', depth = depth' + 1 ∧
        r.openImport base chain i = .ok (inner, place, chain') ∧
        r.loadWithin depth' place chain' inner = .ok part := by
  cases depth with
  | zero => exact ⟨_, h, nofun⟩
  | succ depth =>
    refine ⟨_, h, fun i part hpart => ?_⟩
    obtain ⟨⟨inner, place, chain'⟩, hopen, hpart⟩ := bind_eq_ok.1 hpart
    exact ⟨depth, inner, place, chain', rfl, hopen, hpart⟩

/-- An import that is opened has a text that is read. -/
theorem exists_of_openImport {chain chain' : List String} {i : Import} {inner : List Node}
    {place : String} (h : r.openImport base chain i = .ok (inner, place, chain')) :
    ∃ text, r.stylesheet i.name base = .ok (text, place) ∧ parse text = .ok inner ∧
      place ++ "\n" ++ text ∉ chain ∧ chain' = (place ++ "\n" ++ text) :: chain := by
  rw [openImport] at h
  obtain ⟨⟨text, place'⟩, htext, h⟩ := bind_eq_ok.1 h
  dsimp only at h
  split at h
  · cases h
  · next hnew =>
    obtain ⟨ns, hns, h⟩ := bind_eq_ok.1 h
    cases h
    exact ⟨text, mapError_eq_ok.1 htext, mapError_eq_ok.1 hns, by simpa using hnew, rfl⟩

/-- All modules that are loaded come from the resolver. -/
theorem knows_of_loadWithin {depth : Nat} {chain : List String}
    (h : r.loadWithin depth base chain ns = .ok loaded) : ∀ m ∈ loaded.modules, r.Knows m.module := by
  induction depth using Nat.strongRecOn generalizing base chain ns loaded with
  | ind depth ih =>
    intro m hm
    obtain ⟨load, hload, hinner⟩ := exists_of_loadWithin h
    obtain ⟨parts, hparts, -, hmodules⟩ := exists_parts hload
    rw [hmodules] at hm
    obtain ⟨part, hpart, hm⟩ := List.mem_flatMap.1 hm
    obtain ⟨n, -, hnode⟩ := exists_of_mem_tryMapM hparts hpart
    obtain ⟨params, i, loaded', -, -, hi, rfl⟩ | ⟨-, hknown⟩ | ⟨rfl, -⟩ := loadNode_cases hnode
    · obtain ⟨depth', inner, place, chain', rfl, -, hwithin⟩ := hinner i loaded' hi
      exact ih depth' (Nat.lt_succ_self _) hwithin m hm
    · exact hknown m hm
    · exact absurd hm List.not_mem_nil

end Resolver

end UtilityCss
