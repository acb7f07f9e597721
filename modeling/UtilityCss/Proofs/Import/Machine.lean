import Mathlib.Logic.Relation
import UtilityCss.Proofs.Import.Load

/-!
# Loading step by step

A loader goes through the nodes of one stylesheet. An import makes it open another one, inside the
first, and when that is at its end, its nodes take the place of the import. Here this is a machine
whose state is the stylesheet that is read with those that are open around it. Each step may be
answered by a resolver of its own, so that a stylesheet may have another text at each request.

No run of the machine goes on forever, and where one resolver answers everything it ends with what
`load` gives.
-/

namespace UtilityCss

/-- The import that a node is, if it is one of a local stylesheet. -/
def Node.import? : Node → Option Import
  | .statement "import" params => Import.read? params
  | _ => none

theorem import?_import (params : String) :
    (Node.statement "import" params).import? = Import.read? params := by
  rw [Node.import?]

theorem Node.import?_eq_some {n : Node} {i : Import} : n.import? = some i ↔
    ∃ params, n = .statement "import" params ∧ Import.read? params = some i := by
  rw [Node.import?.eq_def]
  split
  · next params => exact ⟨fun h => ⟨params, rfl, h⟩, fun ⟨_, heq, h⟩ => by cases heq; exact h⟩
  · next hne => exact ⟨nofun, fun ⟨params, heq, _⟩ => (hne params heq).elim⟩

theorem import?_atRule (name params : String) (ns : List Node) :
    (Node.atRule name params ns).import? = none := rfl

private theorem import?_addThemeOptions (options : String) (n : Node) :
    (n.addThemeOptions options).import? = n.import? := by
  cases n with
  | atRule name params ns =>
    rw [Node.addThemeOptions]
    split <;> rw [import?_atRule, import?_atRule]
  | rule sel ns =>
    rw [Node.addThemeOptions]
    rfl
  | _ => rw [Node.addThemeOptions] <;> exact nofun

theorem import?_of_mem_wrapIn {ns : List Node} {name : String} {params : Option String}
    (h : ∀ n ∈ ns, n.import? = none) : ∀ n ∈ wrapIn name params ns, n.import? = none := by
  cases params with
  | none => exact h
  | some params => exact List.forall_mem_singleton.2 rfl

theorem import?_of_mem_wrap {ns : List Node} (i : Import) (h : ∀ n ∈ ns, n.import? = none) :
    ∀ n ∈ i.wrap ns, n.import? = none := by
  rw [Import.wrap]
  refine import?_of_mem_wrapIn (import?_of_mem_wrapIn (import?_of_mem_wrapIn ?_))
  cases i.theme with
  | none => exact h
  | some options =>
    intro n hn
    obtain ⟨m, hm, rfl⟩ := mem_addThemeOptions.1 hn
    rw [import?_addThemeOptions]
    exact h m hm

/-- What an import loads, from what its stylesheet does. -/
def Import.place (i : Import) (loaded : Loaded) : Loaded :=
  { loaded with nodes := i.wrap loaded.nodes }

theorem Loaded.append_empty (l : Loaded) : l.append {} = l := by
  simp [append]

theorem Loaded.empty_append (l : Loaded) : Loaded.append {} l = l := by
  simp [append]

theorem Loaded.append_assoc (a b c : Loaded) : (a.append b).append c = a.append (b.append c) := by
  simp [append]

namespace Resolver

variable {r : Resolver} {base : String} {load : Import → Except CompileError Loaded} {n : Node}
  {ns : List Node} {i : Import} {depth : Nat} {chain : List String}

/-- Loads the stylesheet of an import, where imports may be `depth` times inside each other. -/
def loadImport (r : Resolver) (base : String) (chain : List String) (i : Import) :
    Nat → Except CompileError Loaded
  | 0 => .error (.importFailed i.name (.tooDeep importLimit))
  | depth + 1 => do
    let (inner, place, chain) ← r.openImport base chain i
    r.loadWithin depth place chain inner

theorem import?_of_mem_loadNode {part : Loaded} (h : r.loadNode base load n = .ok part)
    (himport : n.import? = none) : ∀ m ∈ part.nodes, m.import? = none := by
  obtain ⟨params, i, inner, rfl, hread, -⟩ | ⟨hnil, -⟩ | ⟨rfl, -⟩ := loadNode_cases h
  · rw [import?_import, hread] at himport
    cases himport
  · rw [hnil]
    exact nofun
  · exact List.forall_mem_singleton.2 himport

private theorem loadNodes_cons :
    r.loadNodes base load (n :: ns) = (do
      let part ← r.loadNode base load n
      let loaded ← r.loadNodes base load ns
      return part.append loaded) := by
  rw [loadNodes, loadNodes, List.mapM_cons]
  cases r.loadNode base load n with
  | error e => rfl
  | ok part =>
    cases ns.mapM (r.loadNode base load) with
    | error e => rfl
    | ok parts =>
      change Except.ok ((part :: parts).foldl Loaded.append {}) =
        Except.ok (part.append (parts.foldl Loaded.append {}))
      rw [foldl_append_eq, foldl_append_eq]
      simp [Loaded.append]

/-- An import loads its stylesheet in its conditions. -/
theorem loadNode_of_import? (h : n.import? = some i) :
    r.loadNode base load n = (load i).map i.place := by
  obtain ⟨params, rfl, hread⟩ := Node.import?_eq_some.1 h
  rw [loadNode.eq_def]
  split
  · next heq =>
    cases heq
    rw [hread]
    rfl
  · next heq => simp at heq
  · next heq => simp at heq
  · next heq => cases heq
  · next hne _ _ _ => exact (hne params rfl).elim

private theorem loadNode_of_import?_eq_none (load load' : Import → Except CompileError Loaded)
    (h : n.import? = none) : r.loadNode base load n = r.loadNode base load' n := by
  rw [loadNode.eq_def, loadNode.eq_def]
  split
  · rw [import?_import] at h
    rw [h]
  all_goals rfl

theorem loadWithin_eq : r.loadWithin depth base chain ns =
    r.loadNodes base (r.loadImport base chain · depth) ns := by
  cases depth <;> rfl

end Resolver

/-- A stylesheet that is being loaded: what has been loaded of it, and the nodes that are left. -/
structure OpenSheet where
  base : String
  rest : List Node
  done : Loaded := {}

def OpenSheet.add (sheet : OpenSheet) (part : Loaded) : OpenSheet :=
  { sheet with done := sheet.done.append part }

/-- The stylesheet that is read, and those in which the imports around it stand, innermost first. -/
structure LoadState where
  sheet : OpenSheet
  outer : List (Import × OpenSheet) := []
  chain : List String := []

namespace LoadState

def start (base : String) (ns : List Node) : LoadState := { sheet := { base, rest := ns } }

/-- All stylesheets that are open. -/
def sheets (s : LoadState) : List OpenSheet := s.sheet :: s.outer.map (·.2)

/-- Goes on to the next state, or to the end with what has been loaded. -/
def step (r : Resolver) (s : LoadState) : Except CompileError (LoadState ⊕ Loaded) :=
  match s.sheet.rest with
  | [] => match s.outer with
    | [] => .ok (.inr s.sheet.done)
    | (i, around) :: outer =>
      .ok (.inl ⟨around.add (i.place s.sheet.done), outer, s.chain.tail⟩)
  | n :: rest => match n.import? with
    | some i =>
      if s.outer.length = Resolver.importLimit then
        .error (.importFailed i.name (.tooDeep Resolver.importLimit))
      else do
        let (inner, place, chain) ← r.openImport s.sheet.base s.chain i
        return .inl ⟨{ base := place, rest := inner }, (i, { s.sheet with rest }) :: s.outer, chain⟩
    | none => do
      let part ← r.loadNode s.sheet.base (fun _ => .ok {}) n
      return .inl ⟨{ s.sheet with rest }.add part, s.outer, s.chain⟩

/-- A state may follow another one, with whatever answers. -/
def Next (s s' : LoadState) : Prop := ∃ r, s.step r = .ok (.inl s')

/-- A run from a state ends so, if all requests in it are answered by one resolver. -/
inductive Ends (r : Resolver) : LoadState → Except CompileError Loaded → Prop
  | done {s loaded} (h : s.step r = .ok (.inr loaded)) : Ends r s (.ok loaded)
  | failed {s e} (h : s.step r = .error e) : Ends r s (.error e)
  | next {s s' out} (h : s.step r = .ok (.inl s')) (hout : Ends r s' out) : Ends r s out

section Step

variable {r : Resolver} {s s' : LoadState} {loaded : Loaded}

/-- What a step does: it closes a stylesheet, opens one for an import, or loads another node. -/
theorem step_cases (h : s.step r = .ok (.inl s')) :
    (∃ i around outer, s.sheet.rest = [] ∧ s.outer = (i, around) :: outer ∧
      s' = ⟨around.add (i.place s.sheet.done), outer, s.chain.tail⟩) ∨
    (∃ n rest i inner place chain, s.sheet.rest = n :: rest ∧ n.import? = some i ∧
      s.outer.length ≠ Resolver.importLimit ∧
      r.openImport s.sheet.base s.chain i = .ok (inner, place, chain) ∧
      s' = ⟨{ base := place, rest := inner }, (i, { s.sheet with rest }) :: s.outer, chain⟩) ∨
    (∃ n rest part, s.sheet.rest = n :: rest ∧ n.import? = none ∧
      r.loadNode s.sheet.base (fun _ => .ok {}) n = .ok part ∧
      s' = ⟨{ s.sheet with rest }.add part, s.outer, s.chain⟩) := by
  obtain ⟨⟨base, rest, done⟩, outer, chain⟩ := s
  cases rest with
  | nil =>
    cases outer with
    | nil => cases h
    | cons frame outer =>
      cases h
      exact .inl ⟨_, _, outer, rfl, rfl, rfl⟩
  | cons n rest =>
    cases himport : n.import? with
    | some i =>
      simp only [step, himport] at h
      split at h
      · cases h
      · next hdepth =>
        obtain ⟨⟨inner, place, chain'⟩, hopen, h⟩ := bind_eq_ok.1 h
        cases h
        exact .inr (.inl ⟨n, rest, i, inner, place, chain', rfl, himport, hdepth, hopen, rfl⟩)
    | none =>
      simp only [step, himport] at h
      obtain ⟨part, hpart, h⟩ := bind_eq_ok.1 h
      cases h
      exact .inr (.inr ⟨n, rest, part, rfl, himport, hpart, rfl⟩)

theorem eq_of_step_inr (h : s.step r = .ok (.inr loaded)) : loaded = s.sheet.done := by
  obtain ⟨⟨base, rest, done⟩, outer, chain⟩ := s
  cases rest with
  | nil =>
    cases outer with
    | nil =>
      cases h
      rfl
    | cons => cases h
  | cons n rest =>
    cases himport : n.import? with
    | some i =>
      simp only [step, himport] at h
      split at h
      · cases h
      · obtain ⟨_, -, h⟩ := bind_eq_ok.1 h
        cases h
    | none =>
      simp only [step, himport] at h
      obtain ⟨_, -, h⟩ := bind_eq_ok.1 h
      cases h

end Step

/-! ### Every run ends -/

section Termination

variable {s : LoadState} {outer : List (Import × OpenSheet)}

/-- No run from a state goes on forever. -/
def Halts (s : LoadState) : Prop := Acc (fun s' s => Next s s') s

theorem halts_of_next (h : ∀ s', Next s s' → s'.Halts) : s.Halts := Acc.intro s h

theorem halts_of_rest_eq_nil (hrest : s.sheet.rest = []) (h : ∀ i around outer,
    s.outer = (i, around) :: outer →
      Halts ⟨around.add (i.place s.sheet.done), outer, s.chain.tail⟩) : s.Halts := by
  refine halts_of_next fun s' ⟨r, hstep⟩ => ?_
  obtain ⟨i, around, outer, -, houter, rfl⟩ | ⟨n, rest, _, _, _, _, hcons, -⟩ |
    ⟨n, rest, _, hcons, -⟩ := step_cases hstep
  · exact h i around outer houter
  · rw [hrest] at hcons
    cases hcons
  · rw [hrest] at hcons
    cases hcons

/-- If runs end that begin where a stylesheet is closed, then so do those that begin inside of it. The
induction is on how many imports may still be opened inside, then on the nodes that are left. -/
theorem halts_of_halts_closed (spare : Nat) (hspare : outer.length + spare = Resolver.importLimit)
    (hclosed : ∀ base done chain, Halts ⟨⟨base, [], done⟩, outer, chain⟩)
    (base : String) (rest : List Node) (done : Loaded) (chain : List String) :
    Halts ⟨⟨base, rest, done⟩, outer, chain⟩ := by
  induction spare using Nat.strongRecOn generalizing outer base rest done chain with
  | ind spare ihspare =>
    induction rest generalizing done chain with
    | nil => exact hclosed base done chain
    | cons n rest ih =>
      refine halts_of_next fun s' ⟨r, hstep⟩ => ?_
      obtain ⟨_, _, _, hrest, -⟩ | ⟨n', rest', i, inner, place, chain', hrest, -, hdepth, -, rfl⟩ |
        ⟨n', rest', part, hrest, -, -, rfl⟩ := step_cases hstep
      · cases hrest
      · cases hrest
        have hlt : outer.length < Resolver.importLimit := by
          have hne : outer.length ≠ Resolver.importLimit := hdepth
          omega
        refine ihspare (spare - 1) (by omega) ?_ (fun base' done' chain'' => ?_) _ _ _ _
        · change outer.length + 1 + (spare - 1) = Resolver.importLimit
          omega
        · -- fewer nodes are left in the stylesheet around when the imported one is closed
          refine halts_of_rest_eq_nil rfl fun _ _ _ houter => ?_
          cases houter
          exact ih _ _
      · cases hrest
        exact ih _ _

/-- Runs end, whatever the requests are answered with. -/
theorem halts (hdepth : s.outer.length ≤ Resolver.importLimit) : s.Halts := by
  obtain ⟨⟨base, rest, done⟩, outer, chain⟩ := s
  refine halts_of_halts_closed _ (Nat.add_sub_cancel' hdepth) (fun base done chain => ?_) _ _ _ _
  induction outer generalizing base done chain with
  | nil => exact halts_of_rest_eq_nil rfl nofun
  | cons frame outer ih =>
    have hless : outer.length ≤ Resolver.importLimit := Nat.le_of_succ_le hdepth
    refine halts_of_rest_eq_nil rfl fun _ _ _ houter => ?_
    cases houter
    exact halts_of_halts_closed _ (Nat.add_sub_cancel' hless) (fun _ _ _ => ih hless _ _ _) _ _ _ _

end Termination

/-! ### What holds of all states of a run -/

section Sound

variable {r : Resolver} {s s' : LoadState} {n : Node} {ns : List Node}

/-- No more stylesheets are open inside each other than may be, and no local import is left in what
has been loaded of any of them. -/
structure Sound (s : LoadState) : Prop where
  depth : s.outer.length ≤ Resolver.importLimit
  loaded : ∀ sheet ∈ s.sheets, ∀ n ∈ sheet.done.nodes, n.import? = none

theorem import?_of_mem_add {sheet : OpenSheet} {part : Loaded}
    (h : ∀ n ∈ sheet.done.nodes, n.import? = none) (hpart : ∀ n ∈ part.nodes, n.import? = none) :
    ∀ n ∈ (sheet.add part).done.nodes, n.import? = none :=
  List.forall_mem_append.2 ⟨h, hpart⟩

theorem sound_start (base : String) (ns : List Node) : (start base ns).Sound :=
  ⟨Nat.zero_le _, List.forall_mem_singleton.2 nofun⟩

theorem depth_le_of_next (hnext : Next s s') (h : s.outer.length ≤ Resolver.importLimit) :
    s'.outer.length ≤ Resolver.importLimit := by
  obtain ⟨r, hstep⟩ := hnext
  obtain ⟨_, _, outer, -, houter, rfl⟩ | ⟨_, _, _, _, _, _, -, -, hne, -, rfl⟩ |
    ⟨_, _, _, -, -, -, rfl⟩ := step_cases hstep
  · rw [houter] at h
    exact Nat.le_of_succ_le h
  · exact Nat.lt_of_le_of_ne h hne
  · exact h

theorem Sound.next (h : s.Sound) (hnext : Next s s') : s'.Sound := by
  refine ⟨depth_le_of_next hnext h.depth, ?_⟩
  obtain ⟨r, hstep⟩ := hnext
  obtain ⟨⟨base, rest, done⟩, outer, chain⟩ := s
  obtain ⟨hsheet, houter⟩ := List.forall_mem_cons.1 h.loaded
  obtain ⟨i, around, outer', -, rfl, rfl⟩ |
    ⟨n, rest', i, inner, place, chain', -, himport, hne, -, rfl⟩ |
    ⟨n, rest', part, -, himport, hpart, rfl⟩ := step_cases hstep
  · obtain ⟨haround, houter⟩ := List.forall_mem_cons.1 houter
    exact List.forall_mem_cons.2
      ⟨import?_of_mem_add haround (import?_of_mem_wrap i hsheet), houter⟩
  · exact List.forall_mem_cons.2 ⟨nofun, List.forall_mem_cons.2 ⟨hsheet, houter⟩⟩
  · exact List.forall_mem_cons.2
      ⟨import?_of_mem_add hsheet (Resolver.import?_of_mem_loadNode hpart himport), houter⟩

theorem Sound.of_reach (h : s.Sound) (hreach : Relation.ReflTransGen Next s s') : s'.Sound := by
  induction hreach with
  | refl => exact h
  | tail _ hnext ih => exact ih.next hnext

/-- No local import is left in what a run ends with. -/
theorem Sound.import?_of_ends {out : Except CompileError Loaded} {loaded : Loaded} (h : s.Sound)
    (hends : Ends r s out) (hout : out = .ok loaded) : ∀ n ∈ loaded.nodes, n.import? = none := by
  induction hends with
  | done hstep =>
    cases hout
    rw [eq_of_step_inr hstep]
    exact h.loaded _ List.mem_cons_self
  | failed => cases hout
  | next hstep _ ih => exact ih (h.next ⟨r, hstep⟩) hout

end Sound

/-! ### Runs that one resolver answers -/

section Result

variable {r : Resolver} {s : LoadState} {n : Node} {ns rest : List Node} {depth : Nat}
  {base : String} {chain : List String} {done : Loaded} {i : Import}

def finish (r : Resolver) (depth : Nat) (chain : List String) (sheet : OpenSheet) :
    Except CompileError Loaded :=
  (r.loadWithin depth sheet.base chain sheet.rest).map sheet.done.append

def close (r : Resolver) :
    List (Import × OpenSheet) → List String → Loaded → Except CompileError Loaded
  | [], _, loaded => .ok loaded
  | (i, around) :: outer, chain, loaded => do
    let loaded ← finish r (Resolver.importLimit - outer.length) chain.tail
      (around.add (i.place loaded))
    close r outer chain.tail loaded

def result (r : Resolver) (s : LoadState) : Except CompileError Loaded := do
  let loaded ← finish r (Resolver.importLimit - s.outer.length) s.chain s.sheet
  close r s.outer s.chain loaded

private theorem finish_nil : finish r depth chain ⟨base, [], done⟩ = .ok done := by
  cases depth <;> exact congrArg Except.ok (Loaded.append_empty done)

theorem finish_cons : finish r depth chain ⟨base, n :: rest, done⟩ = (do
    let part ← r.loadNode base (r.loadImport base chain · depth) n
    finish r depth chain (OpenSheet.add ⟨base, rest, done⟩ part)) := by
  simp only [finish, OpenSheet.add, Resolver.loadWithin_eq, Resolver.loadNodes_cons]
  cases r.loadNode base (r.loadImport base chain · depth) n with
  | error e => rfl
  | ok part =>
    cases r.loadNodes base (r.loadImport base chain · depth) rest with
    | error e => rfl
    | ok loaded => exact congrArg Except.ok (Loaded.append_assoc done part loaded).symm

theorem result_opened (r : Resolver) (i : Import) (around : OpenSheet)
    (outer : List (Import × OpenSheet)) (key place : String) (chain : List String)
    (inner : List Node) :
    result r ⟨{ base := place, rest := inner }, (i, around) :: outer, key :: chain⟩ = (do
      let loaded ← r.loadWithin (Resolver.importLimit - (outer.length + 1)) place (key :: chain) inner
      let loaded ← finish r (Resolver.importLimit - outer.length) chain
        (around.add (i.place loaded))
      close r outer chain loaded) := by
  rw [result, finish]
  dsimp only [List.length_cons]
  cases r.loadWithin (Resolver.importLimit - (outer.length + 1)) place (key :: chain) inner with
  | error e => rfl
  | ok loaded =>
    rw [Except.map, Loaded.empty_append]
    rfl

theorem result_cons_import {outer : List (Import × OpenSheet)} (h : n.import? = some i)
    (hdepth : outer.length ≤ Resolver.importLimit) :
    result r ⟨⟨base, n :: rest, done⟩, outer, chain⟩ =
      if outer.length = Resolver.importLimit then
        .error (.importFailed i.name (.tooDeep Resolver.importLimit))
      else (do
        let (inner, place, chain) ← r.openImport base chain i
        result r ⟨{ base := place, rest := inner }, (i, ⟨base, rest, done⟩) :: outer, chain⟩) := by
  rw [result, finish_cons, Resolver.loadNode_of_import? h]
  dsimp only
  by_cases hfull : outer.length = Resolver.importLimit
  · rw [if_pos hfull, hfull, Nat.sub_self]
    rfl
  · obtain ⟨spare, hspare⟩ : ∃ spare, Resolver.importLimit - outer.length = spare + 1 :=
      Nat.exists_eq_add_one.2 (Nat.sub_pos_of_lt (Nat.lt_of_le_of_ne hdepth hfull))
    have hless : Resolver.importLimit - (outer.length + 1) = spare := by omega
    rw [if_neg hfull, hspare, Resolver.loadImport]
    cases hopen : r.openImport base chain i with
    | error e => rfl
    | ok opened =>
      obtain ⟨inner, place, chain'⟩ := opened
      obtain ⟨text, -, -, -, rfl⟩ := Resolver.exists_of_openImport hopen
      have hresult := result_opened r i ⟨base, rest, done⟩ outer (place ++ "\n" ++ text) place chain
        inner
      rw [hless, hspare] at hresult
      refine Eq.trans ?_ hresult.symm
      change ((r.loadWithin spare place _ inner).map i.place >>= _) >>= _ = _
      cases r.loadWithin spare place _ inner with
      | error e => rfl
      | ok loaded => rfl

/-- A step changes nothing about the result. -/
theorem result_eq (hdepth : s.outer.length ≤ Resolver.importLimit) :
    result r s = (do
      match ← s.step r with
      | .inl s' => result r s'
      | .inr loaded => .ok loaded) := by
  obtain ⟨⟨base, rest, done⟩, outer, chain⟩ := s
  cases rest with
  | nil =>
    rw [result, finish_nil]
    cases outer with
    | nil => rfl
    | cons frame outer => rfl
  | cons n rest =>
    cases himport : n.import? with
    | none =>
      rw [result, finish_cons, Resolver.loadNode_of_import?_eq_none _ (fun _ => .ok {}) himport]
      simp only [step, himport]
      cases r.loadNode base (fun _ => .ok {}) n with
      | error e => rfl
      | ok part => rfl
    | some i =>
      rw [result_cons_import himport hdepth]
      simp only [step, himport]
      by_cases hfull : outer.length = Resolver.importLimit
      · rw [if_pos hfull, if_pos hfull]
        rfl
      · rw [if_neg hfull, if_neg hfull]
        cases r.openImport base chain i with
        | error e => rfl
        | ok opened => rfl

/-- Every run ends, and so that the result comes out. -/
theorem ends_iff {out : Except CompileError Loaded} (hdepth : s.outer.length ≤ Resolver.importLimit) :
    Ends r s out ↔ result r s = out := by
  constructor
  · intro h
    induction h with
    | done hstep => rw [result_eq hdepth, hstep]; rfl
    | failed hstep => rw [result_eq hdepth, hstep]; rfl
    | next hstep _ ih =>
      rw [result_eq hdepth, hstep]
      exact ih (depth_le_of_next ⟨r, hstep⟩ hdepth)
  · rintro rfl
    have hhalts := halts hdepth
    induction hhalts with
    | intro s _ ih =>
      rw [result_eq hdepth]
      cases hstep : s.step r with
      | error e => exact .failed hstep
      | ok next =>
        cases next with
        | inl s' => exact .next hstep (ih s' ⟨r, hstep⟩ (depth_le_of_next ⟨r, hstep⟩ hdepth))
        | inr loaded => exact .done hstep

/-- The whole run is what `load` does. -/
theorem ends_start_iff {out : Except CompileError Loaded} :
    Ends r (start base ns) out ↔ r.load base ns = out := by
  rw [ends_iff (Nat.zero_le _), result, finish]
  change (r.load base ns).map (Loaded.append {}) >>= _ = _ ↔ _
  cases r.load base ns with
  | error e => rfl
  | ok loaded =>
    rw [Except.map, Loaded.empty_append]
    rfl

end Result

end LoadState

end UtilityCss
