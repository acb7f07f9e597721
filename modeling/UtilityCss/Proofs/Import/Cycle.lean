import Mathlib.Order.WellFounded
import UtilityCss.Proofs.Import.Machine
import UtilityCss.Proofs.Import.Reading

/-!
# Cycles of imports

Where stylesheets are known by name, the imports at their top level make up a graph. What can be loaded
has no cycle in it, since each import inside another one uses up some of the depth, and an import fails
as circular in a cycle only, since the stylesheet that it gets is then the same as one around it.
-/

namespace UtilityCss

/-- Imports at the top level lead from nodes to the stylesheet of a name, directly or by way of other
stylesheets. -/
inductive Reaches (stylesheets : List (String × String)) : List Node → String → Prop
  | direct {ns n i} (hn : n ∈ ns) (himport : n.import? = some i) : Reaches stylesheets ns i.name
  | through {ns n i text inner name} (hn : n ∈ ns) (himport : n.import? = some i)
      (htext : stylesheets.lookup i.name = some text) (hparse : parse text = .ok inner)
      (hrest : Reaches stylesheets inner name) : Reaches stylesheets ns name

/-- Imports lead to a stylesheet that they lead back to. -/
def HasCycle (stylesheets : List (String × String)) (ns : List Node) : Prop :=
  ∃ name text inner, Reaches stylesheets ns name ∧ stylesheets.lookup name = some text ∧
    parse text = .ok inner ∧ Reaches stylesheets inner name

/-- No local import is left among nodes, unless its conditions follow the closing quote at once. -/
def ImportsLoaded (ns : List Node) : Prop :=
  ∀ params name conditions, .statement "import" params ∈ ns → Import.IsLocal params name conditions →
    ∃ c ∈ conditions.head?, c ≠ ' '

namespace Resolver

variable {stylesheets : List (String × String)} {modules : List (String × Module)} {r : Resolver}
  {depth : Nat} {base : String} {chain : List String} {ns : List Node} {n : Node} {name : String}
  {loaded : Loaded} {i : Import}

theorem stylesheet_ofTables {text place : String} :
    (ofTables stylesheets modules).stylesheet name base = .ok (text, place) ↔
      stylesheets.lookup name = some text ∧ place = base := by
  rw [ofTables]
  dsimp only
  cases stylesheets.lookup name with
  | none => exact ⟨nofun, nofun⟩
  | some found => simp [eq_comm]

/-! ### What can be loaded has no cycle -/

theorem exists_of_import? (hn : n ∈ ns) (himport : n.import? = some i)
    (h : (ofTables stylesheets modules).loadWithin depth base chain ns = .ok loaded) :
    ∃ depth' text inner chain' loaded', depth' < depth ∧ stylesheets.lookup i.name = some text ∧
      parse text = .ok inner ∧
      (ofTables stylesheets modules).loadWithin depth' base chain' inner = .ok loaded' := by
  obtain ⟨load, hload, hinner⟩ := exists_of_loadWithin h
  obtain ⟨parts, hparts, -⟩ := exists_parts hload
  obtain ⟨part, hpart⟩ := exists_ok_of_tryMapM hparts hn
  rw [loadNode_of_import? himport] at hpart
  obtain ⟨loaded', hi, -⟩ := map_eq_ok.1 hpart
  obtain ⟨depth', inner, place, chain', rfl, hopen, hwithin⟩ := hinner i loaded' hi
  obtain ⟨text, htext, hparse, -, -⟩ := exists_of_openImport hopen
  obtain ⟨hlookup, rfl⟩ := stylesheet_ofTables.1 htext
  exact ⟨depth', text, inner, chain', loaded', Nat.lt_succ_self _, hlookup, hparse, hwithin⟩

theorem exists_of_reaches (hreach : Reaches stylesheets ns name)
    (h : (ofTables stylesheets modules).loadWithin depth base chain ns = .ok loaded) :
    ∃ depth' text inner chain' loaded', depth' < depth ∧ stylesheets.lookup name = some text ∧
      parse text = .ok inner ∧
      (ofTables stylesheets modules).loadWithin depth' base chain' inner = .ok loaded' := by
  induction hreach generalizing depth chain loaded with
  | direct hn himport => exact exists_of_import? hn himport h
  | through hn himport htext hparse _ ih =>
    obtain ⟨depth₁, text, inner, chain₁, loaded₁, hless, htext', hparse', h⟩ :=
      exists_of_import? hn himport h
    cases htext.symm.trans htext'
    cases hparse.symm.trans hparse'
    obtain ⟨depth₂, text', inner', chain₂, loaded₂, hless', hrest⟩ := ih h
    exact ⟨depth₂, text', inner', chain₂, loaded₂, Nat.lt_trans hless' hless, hrest⟩

/-- A stylesheet that imports lead back to cannot be loaded. By induction on the depth, which would be
less each time. -/
theorem not_ok_of_reaches_self {text : String} (htext : stylesheets.lookup name = some text)
    (hparse : parse text = .ok ns) (hreach : Reaches stylesheets ns name) :
    (ofTables stylesheets modules).loadWithin depth base chain ns ≠ .ok loaded := by
  induction depth using Nat.strongRecOn generalizing chain loaded with
  | ind depth ih =>
    intro h
    obtain ⟨depth', text', inner, chain', loaded', hless, htext', hparse', hinner⟩ :=
      exists_of_reaches hreach h
    cases htext.symm.trans htext'
    cases hparse.symm.trans hparse'
    exact ih depth' hless hinner

private theorem exists_error_of_hasCycle (h : HasCycle stylesheets ns) :
    ∃ e, (ofTables stylesheets modules).load base ns = .error e := by
  obtain ⟨name, text, inner, hreach, htext, hparse, hself⟩ := h
  cases hload : (ofTables stylesheets modules).load base ns with
  | error e => exact ⟨e, rfl⟩
  | ok loaded =>
    obtain ⟨depth, text', inner', chain, loaded', -, htext', hparse', hinner⟩ :=
      exists_of_reaches hreach hload
    cases htext.symm.trans htext'
    cases hparse.symm.trans hparse'
    exact absurd hinner (not_ok_of_reaches_self htext hparse hself)

/-! ### What fails as circular has a cycle -/

theorem readModuleName_ne (kind : ModuleKind) (params id : String) (fault : ImportFault) :
    readModuleName kind params ≠ .error (.importFailed id fault) := by
  intro h
  unfold readModuleName at h
  split at h <;> cases h

theorem moduleOf_ne (kind : ModuleKind) (name base id : String) (fault : ImportFault) :
    r.moduleOf kind name base ≠ .error (.importFailed id fault) := by
  rw [moduleOf]
  cases r.module kind name base <;> exact nofun

private theorem readOptions_ne (name id : String) (body : List Node) (fault : ImportFault) :
    readOptions name body ≠ .error (.importFailed id fault) := by
  intro h
  obtain ⟨n, -, options, h⟩ := exists_of_foldlM_eq_error h
  split at h <;> cases h

private theorem loadConfig_ne (params base id : String) (fault : ImportFault) :
    r.loadConfig params base ≠ .error (.importFailed id fault) := by
  intro h
  rw [loadConfig] at h
  obtain h | ⟨name, -, h⟩ := bind_eq_error.1 h
  · exact readModuleName_ne _ _ _ _ h
  · obtain h | ⟨⟨m, place⟩, -, h⟩ := bind_eq_error.1 h
    · exact moduleOf_ne _ _ _ _ _ h
    · split at h
      · cases h
      · obtain h | ⟨plugins, -, h⟩ := bind_eq_error.1 h
        · obtain ⟨plugin, -, h⟩ := exists_of_tryMapM_eq_error h
          exact moduleOf_ne _ _ _ _ _ h
        · cases h

theorem loadPlugin_ne (params base id : String) (body : List Node) (fault : ImportFault) :
    r.loadPlugin params body base ≠ .error (.importFailed id fault) := by
  intro h
  rw [loadPlugin] at h
  obtain h | ⟨name, -, h⟩ := bind_eq_error.1 h
  · exact readModuleName_ne _ _ _ _ h
  · obtain h | ⟨options, -, h⟩ := bind_eq_error.1 h
    · exact readOptions_ne _ _ _ _ h
    · obtain h | ⟨⟨m, place⟩, -, h⟩ := bind_eq_error.1 h
      · exact moduleOf_ne _ _ _ _ _ h
      · split at h <;> cases h

/-- Only an import fails as one. -/
theorem exists_import_of_importFailed {load : Import → Except CompileError Loaded} {id : String}
    {fault : ImportFault} (h : r.loadNode base load n = .error (.importFailed id fault)) :
    ∃ i, n.import? = some i ∧ load i = .error (.importFailed id fault) := by
  cases himport : n.import? with
  | some i =>
    rw [loadNode_of_import? himport] at h
    exact ⟨i, rfl, map_eq_error.1 h⟩
  | none =>
    rw [loadNode.eq_def] at h
    split at h
    · rw [import?_import] at himport
      rw [himport] at h
      cases h
    · exact absurd h (loadConfig_ne _ _ _ _)
    · exact absurd h (loadPlugin_ne _ _ _ _ _)
    · exact absurd h (loadPlugin_ne _ _ _ _ _)
    · cases h

theorem exists_of_openImport_circular {id : String}
    (h : r.openImport base chain i = .error (.importFailed id .circular)) :
    ∃ text place, r.stylesheet i.name base = .ok (text, place) ∧ place ++ "\n" ++ text ∈ chain := by
  rw [openImport] at h
  cases hsheet : r.stylesheet i.name base with
  | error e =>
    rw [hsheet] at h
    cases h
  | ok sheet =>
    obtain ⟨text, place⟩ := sheet
    rw [hsheet] at h
    replace h : (if chain.contains (place ++ "\n" ++ text) then _ else _) = _ := h
    split at h
    · next hmem => exact ⟨text, place, rfl, List.contains_iff_mem.1 hmem⟩
    · obtain h | ⟨inner, -, h⟩ := bind_eq_error.1 h
      · cases hparse : parse text with
        | error e =>
          rw [hparse] at h
          cases h
        | ok inner =>
          rw [hparse] at h
          cases h
      · cases h

/-- If an import fails as circular, the stylesheet that it gets is being imported from outside, or is in
a cycle. -/
theorem exists_of_circular {id : String} (h : (ofTables stylesheets modules).loadWithin depth base chain
      ns = .error (.importFailed id .circular)) :
    ∃ name text, Reaches stylesheets ns name ∧ stylesheets.lookup name = some text ∧
      (base ++ "\n" ++ text ∈ chain ∨
        ∃ inner, parse text = .ok inner ∧ Reaches stylesheets inner name) := by
  induction depth generalizing chain ns with
  | zero =>
    rw [loadWithin_eq] at h
    obtain ⟨n, -, hnode⟩ := exists_of_tryMapM_eq_error (map_eq_error.1 h)
    obtain ⟨i, -, hi⟩ := exists_import_of_importFailed hnode
    cases hi
  | succ depth ih =>
    rw [loadWithin_eq] at h
    obtain ⟨n, hn, hnode⟩ := exists_of_tryMapM_eq_error (map_eq_error.1 h)
    obtain ⟨i, himport, hi⟩ := exists_import_of_importFailed hnode
    obtain hfail | ⟨⟨inner, place, chain'⟩, hopen, hinner⟩ := bind_eq_error.1 hi
    · obtain ⟨text, place, hsheet, hmem⟩ := exists_of_openImport_circular hfail
      obtain ⟨htext, rfl⟩ := stylesheet_ofTables.1 hsheet
      exact ⟨i.name, text, .direct hn himport, htext, .inl hmem⟩
    · obtain ⟨text, hsheet, hparse, -, rfl⟩ := exists_of_openImport hopen
      obtain ⟨htext, rfl⟩ := stylesheet_ofTables.1 hsheet
      obtain ⟨name, text', hreach, htext', hopened⟩ := ih hinner
      have hreach' : Reaches stylesheets ns name := .through hn himport htext hparse hreach
      refine ⟨name, text', hreach', htext', ?_⟩
      rw [List.mem_cons] at hopened
      obtain (hkey | hmem) | hself := hopened
      · -- the stylesheet of the name has the text of the one that is opened here
        obtain rfl : text' = text := String.append_right_inj _ |>.1 hkey
        exact .inr ⟨inner, hparse, hreach⟩
      · exact .inl hmem
      · exact .inr hself

private theorem hasCycle_of_circular {id : String}
    (h : (ofTables stylesheets modules).load base ns = .error (.importFailed id .circular)) :
    HasCycle stylesheets ns := by
  obtain ⟨name, text, hreach, htext, hmem | ⟨inner, hparse, hself⟩⟩ := exists_of_circular h
  · exact absurd hmem List.not_mem_nil
  · exact ⟨name, text, inner, hreach, htext, hparse, hself⟩

/-! ### Loading as a whole -/

/-- Where no import is left that is read, no local import is left but with conditions at the quote. -/
theorem importsLoaded_of_forall (h : ∀ n ∈ ns, n.import? = none) : ImportsLoaded ns := by
  intro params name conditions hmem hlocal
  by_contra hblank
  push Not at hblank
  obtain ⟨i, hread, -⟩ := Import.exists_read?_of_isLocal hlocal hblank
  have himport : (Node.statement "import" params).import? = some i :=
    Node.import?_eq_some.2 ⟨params, rfl, hread⟩
  rw [h _ hmem] at himport
  cases himport

/-- Loading ends, and what it gives has no cycle. In detail:

* No run goes on forever, even if each step is answered by a resolver of its own.
* In all states of a run, at most `importLimit` stylesheets are open inside the outermost one, and no
  local import is left in what has been loaded of any of them, but such as have their conditions at the
  closing quote. All other local imports are read.
* If one resolver answers, the run ends with what `load` gives, and so no local import is left in it.
* If stylesheets are known by name, a cycle of imports makes `load` fail, and no import is refused as
  circular where there is no cycle, however often a stylesheet is imported. -/
theorem load_ends_without_cycles (base : String) (ns : List Node) :
    (¬ ∃ run : Nat → LoadState, run 0 = .start base ns ∧ ∀ k, (run k).Next (run (k + 1))) ∧
    (∀ s, Relation.ReflTransGen LoadState.Next (.start base ns) s →
      s.outer.length ≤ importLimit ∧ ∀ sheet ∈ s.sheets, ImportsLoaded sheet.done.nodes) ∧
    (∀ params name conditions, Import.IsLocal params name conditions →
      (∀ c ∈ conditions.head?, c = ' ') →
        ∃ i, (Node.statement "import" params).import? = some i ∧ i.name = name) ∧
    (∀ r, (∀ out, LoadState.Ends r (.start base ns) out ↔ r.load base ns = out) ∧
      ∀ loaded, r.load base ns = .ok loaded → ImportsLoaded loaded.nodes) ∧
    ∀ stylesheets modules,
      (HasCycle stylesheets ns → ∃ e, (ofTables stylesheets modules).load base ns = .error e) ∧
      (¬ HasCycle stylesheets ns → ∀ id,
        (ofTables stylesheets modules).load base ns ≠ .error (.importFailed id .circular)) := by
  have hstart := LoadState.sound_start base ns
  refine ⟨fun ⟨run, hrun⟩ => ?_, fun s hreach => ?_, fun params name conditions hlocal hblank => ?_,
    fun r => ⟨fun _ => LoadState.ends_start_iff, fun loaded hload => ?_⟩, fun stylesheets modules =>
    ⟨exists_error_of_hasCycle, fun hcycle id hload => hcycle (hasCycle_of_circular hload)⟩⟩
  · exact (acc_iff_isEmpty_descending_chain.1 (LoadState.halts hstart.depth)).false ⟨run, hrun⟩
  · have hsound := hstart.of_reach hreach
    exact ⟨hsound.depth, fun sheet hsheet => importsLoaded_of_forall (hsound.loaded sheet hsheet)⟩
  · obtain ⟨i, hread, hname⟩ := Import.exists_read?_of_isLocal hlocal hblank
    exact ⟨i, Node.import?_eq_some.2 ⟨params, rfl, hread⟩, hname⟩
  · exact importsLoaded_of_forall
      (hstart.import?_of_ends (LoadState.ends_start_iff.2 hload) rfl)

def isLoneImport (params : String) : List Node → Bool
  | [.statement name own] => name == "import" && own == params
  | _ => false

theorem eq_of_isLoneImport {params : String} (h : isLoneImport params ns) :
    ns = [.statement "import" params] := by
  rw [isLoneImport.eq_def] at h
  split at h
  · simp only [Bool.and_eq_true, beq_iff_eq] at h
    rw [h.1, h.2]
  · cases h

theorem parse_of_isLoneImport {text params : String}
    (h : (parse text).toOption.any (isLoneImport params) = true) :
    parse text = .ok [.statement "import" params] := by
  obtain ⟨ns, hns, hlone⟩ := exists_ok _ h
  rw [hns, eq_of_isLoneImport hlone]

/-- Two stylesheets that import each other cannot be loaded. -/
theorem load_ends_without_cycles_mutual : ∃ e, (ofTables [("a.css", "@import \"b.css\";"),
    ("b.css", "@import \"a.css\";")] []).load "" [.statement "import" "\"a.css\""] = .error e := by
  have ha : parse "@import \"a.css\";" = .ok [.statement "import" "\"a.css\""] :=
    parse_of_isLoneImport (by decide +kernel)
  have hb : parse "@import \"b.css\";" = .ok [.statement "import" "\"b.css\""] :=
    parse_of_isLoneImport (by decide +kernel)
  have hreada : (Node.statement "import" "\"a.css\"").import? = some { name := "a.css" } :=
    Node.import?_eq_some.2 ⟨_, rfl, by decide +kernel⟩
  have hreadb : (Node.statement "import" "\"b.css\"").import? = some { name := "b.css" } :=
    Node.import?_eq_some.2 ⟨_, rfl, by decide +kernel⟩
  refine ((load_ends_without_cycles "" _).2.2.2.2 _ _).1 ⟨"a.css", _, _, ?_, rfl, hb, ?_⟩
  · exact .direct List.mem_cons_self hreada
  · exact .through List.mem_cons_self hreadb rfl ha (.direct List.mem_cons_self hreada)

/-- A stylesheet that imports itself, with a condition at the closing quote of the name, is loaded
without an error, and the import is left. -/
theorem exists_cycle_loaded : ∃ (stylesheets : List (String × String)) (ns inner : List Node)
    (i : Import) (text params : String) (conditions : List Char) (loaded : Loaded),
    ns = [.statement "import" "\"b.css\""] ∧ Import.read? "\"b.css\"" = some i ∧
    stylesheets.lookup i.name = some text ∧ parse text = .ok inner ∧
    .statement "import" params ∈ inner ∧ Import.IsLocal params i.name conditions ∧
    (ofTables stylesheets []).load "" ns = .ok loaded ∧ .statement "import" params ∈ loaded.nodes := by
  have hparse : parse "@import \"b.css\"print;" = .ok [.statement "import" "\"b.css\"print"] :=
    parse_of_isLoneImport (by decide +kernel)
  obtain ⟨loaded, hload, hlone⟩ := exists_ok (e := (ofTables [("b.css", "@import \"b.css\"print;")]
    []).load "" [.statement "import" "\"b.css\""]) (fun l => isLoneImport "\"b.css\"print" l.nodes)
    (by decide +kernel)
  have hlocal : Import.IsLocal "\"b.css\"print" "b.css" "print".toList :=
    ⟨by decide +kernel, '"', "b.css".toList, rfl, by simp [Chars.IsLiteralBody], rfl,
      by decide +kernel⟩
  refine ⟨_, _, _, { name := "b.css" }, _, _, _, loaded, rfl, by decide +kernel, rfl, hparse,
    List.mem_cons_self, hlocal, hload, ?_⟩
  rw [eq_of_isLoneImport hlone]
  exact List.mem_cons_self

end Resolver

end UtilityCss
