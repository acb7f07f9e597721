import UtilityCss.Design.Apply
import UtilityCss.Design.VariantBlock
import UtilityCss.Proofs.Stylesheet.Replace
import UtilityCss.Theme.Function

/-!
# Variant blocks that are left in rules

A variant block in a rule is replaced by its body wrapped in the variant, and a list of applied class
names by what they stand for. Neither is searched for further blocks, so a block is left exactly
where a wrapped body or something applied holds one.
-/

namespace UtilityCss

namespace Node

def isRule : Node → Bool
  | rule _ _ => true
  | _ => false

/-- Whether a node stands for its body wrapped in a variant, if it is in a rule. -/
def isVariantBlock : Node → Bool
  | atRule name _ _ => name == "variant"
  | _ => false

/-- Whether a node is a list of applied class names. -/
def isApply (n : Node) : Bool := n.isAt "apply"

/-- The text behind the name of an at-rule. -/
def params : Node → String
  | atRule _ params _ => params
  | statement _ params => params
  | _ => ""

variable (n : Node) (ns : List Node)

@[simp]
theorem isRule_withChildren : (n.withChildren ns).isRule = n.isRule := by
  cases n <;> rfl

@[simp]
theorem isVariantBlock_withChildren : (n.withChildren ns).isVariantBlock = n.isVariantBlock := by
  cases n <;> rfl

@[simp]
theorem isApply_withChildren : (n.withChildren ns).isApply = n.isApply := by
  cases n <;> rfl

@[simp]
theorem params_withChildren : (n.withChildren ns).params = n.params := by
  cases n <;> rfl

variable {n}

private theorem isRule_of_isApply (h : n.isApply) : n.isRule = false := by
  cases n with
  | rule => exact absurd h Bool.false_ne_true
  | _ => rfl

theorem isVariantBlock_of_isApply (h : n.isApply) : n.isVariantBlock = false := by
  cases n with
  | atRule name params ns =>
    have hname : name = "apply" := by simpa [isApply, isAt, atName?] using h
    rw [hname]
    rfl
  | _ => rfl

private theorem isApply_of_isVariantBlock (h : n.isVariantBlock) : n.isApply = false := by
  rw [Bool.eq_false_iff]
  intro happly
  rw [isVariantBlock_of_isApply happly] at h
  exact Bool.false_ne_true h

end Node

def NoVariantBlock (ns : List Node) : Prop := ∀ n ∈ allNodes ns, ¬ n.isVariantBlock

/-- Whether no variant block is inside a style rule, at any depth. -/
def NoVariantBlockInRule (ns : List Node) : Prop :=
  ∀ n ∈ allNodes ns, n.isRule → NoVariantBlock n.children

section Forest

variable {n : Node} {ns ms : List Node}

theorem noVariantBlock_cons : NoVariantBlock (n :: ns) ↔
    ¬ n.isVariantBlock ∧ NoVariantBlock n.children ∧ NoVariantBlock ns :=
  forall_allNodes_cons

theorem NoVariantBlock.inRule (h : NoVariantBlock ns) : NoVariantBlockInRule ns := by
  induction ns using forest_induction with
  | nil => exact fun _ hn => absurd hn List.not_mem_nil
  | cons n ns ihn ih =>
    obtain ⟨-, hinner, hns⟩ := noVariantBlock_cons.1 h
    exact forall_allNodes_cons.2 ⟨fun _ => hinner, ihn hinner, ih hns⟩

@[simp]
theorem noVariantBlockInRule_nil : NoVariantBlockInRule [] := nofun

private theorem noVariantBlockInRule_append :
    NoVariantBlockInRule (ns ++ ms) ↔ NoVariantBlockInRule ns ∧ NoVariantBlockInRule ms :=
  forall_allNodes_append

/-- Inside of a rule the rules do not matter any more. -/
theorem noVariantBlockInRule_cons : NoVariantBlockInRule (n :: ns) ↔
    (if n.isRule then NoVariantBlock n.children else NoVariantBlockInRule n.children) ∧
      NoVariantBlockInRule ns := by
  rw [NoVariantBlockInRule, forall_allNodes_cons, ← and_assoc]
  refine and_congr ?_ Iff.rfl
  split
  · next hrule => exact ⟨fun h => h.1 hrule, fun h => ⟨fun _ => h, h.inRule⟩⟩
  · next hrule => exact ⟨fun h => h.2, fun h => ⟨fun hr => absurd hr hrule, h⟩⟩

/-- Whether no variant block is in a rule, where the nodes themselves are in one if `inRule`. -/
def NoVariantBlockFrom (inRule : Bool) (ns : List Node) : Prop :=
  if inRule then NoVariantBlock ns else NoVariantBlockInRule ns

theorem noVariantBlockFrom_false : NoVariantBlockFrom false ns ↔ NoVariantBlockInRule ns := Iff.rfl

@[simp]
theorem noVariantBlockFrom_nil {inRule : Bool} : NoVariantBlockFrom inRule [] := by
  cases inRule <;> exact nofun

theorem noVariantBlockFrom_cons {inRule : Bool} : NoVariantBlockFrom inRule (n :: ns) ↔
    (inRule → ¬ n.isVariantBlock) ∧ NoVariantBlockFrom (inRule || n.isRule) n.children ∧
      NoVariantBlockFrom inRule ns := by
  cases inRule with
  | true => simp [NoVariantBlockFrom, noVariantBlock_cons]
  | false => simp [NoVariantBlockFrom, noVariantBlockInRule_cons]

end Forest

namespace DesignSystem

variable (d : DesignSystem)

/-- Whether some nodes are the body of a variant block wrapped in its variant. -/
def Wraps (n : Node) (ns : List Node) : Prop :=
  ∃ v, d.variants.read? (Text.trim n.params) = some v ∧ d.variants.wrap v n.children = some ns

/-- Whether what class names stand for that are applied by a node satisfies a predicate. -/
def Applies (P : List Node → Prop) (n : Node) : Prop :=
  n.isApply → ∀ ns, d.apply n.params = .ok ns → P ns

/-- Whether no variant block is left of nodes in a rule when class names are applied: there is none
outside of what is replaced then, and none is applied. -/
def LeavesNone (ns : List Node) : Prop :=
  ∀ n ∈ visited (!·.isApply) ns, ¬ n.isVariantBlock ∧ d.Applies NoVariantBlock n

/-- Whether none is left when the outermost variant blocks have been replaced before. -/
def ExpandsAll (ns : List Node) : Prop :=
  ∀ n ∈ visited (fun n => !n.isApply && !n.isVariantBlock) ns,
    (n.isVariantBlock → ∀ ms, d.Wraps n ms → d.LeavesNone ms) ∧ d.Applies NoVariantBlock n

section InRule

variable {d} {n : Node} {ns ms : List Node}

theorem expandBlock_eq_ok {params : String} {body : List Node} :
    d.expandBlock params body = .ok ms ↔
      ∃ v, d.variants.read? (Text.trim params) = some v ∧ d.variants.wrap v body = some ms := by
  rw [expandBlock]
  cases hread : d.variants.read? (Text.trim params) with
  | none => simp
  | some v =>
    cases hwrap : d.variants.wrap v body with
    | none => simp [hwrap]
    | some => simp [hwrap]

/-- The nodes that are expanded in a rule are the variant blocks. -/
theorem expandInRule_eq (ns : List Node) : d.expandInRule ns = tryReplaceEach (fun n =>
    if n.isVariantBlock then (d.expandBlock n.params n.children).map some else .ok none) ns := by
  rw [expandInRule]
  congr 1
  funext n
  cases n with
  | atRule name params ns =>
    by_cases hname : name = "variant"
    · subst hname
      rfl
    · simp [Node.isVariantBlock, hname]
  | _ => rfl

/-- The nodes that are replaced when class names are applied are the lists of them. -/
theorem applyEach_eq (ns : List Node) : d.applyEach ns = tryReplaceEach (fun n =>
    if n.isApply then (d.apply n.params).map some else .ok none) ns := by
  rw [applyEach]
  congr 1
  funext n
  cases n with
  | atRule name params ns =>
    by_cases hname : name = "apply"
    · subst hname
      rfl
    · simp [Node.isApply, Node.isAt, Node.atName?, hname]
  | statement name params =>
    by_cases hname : name = "apply"
    · subst hname
      rfl
    · simp [Node.isApply, Node.isAt, Node.atName?, hname]
  | _ => rfl

/-- Applying class names leaves a variant block exactly if one is outside of them or applied. -/
theorem noVariantBlock_applyEach (h : d.applyEach ns = .ok ms) :
    NoVariantBlock ms ↔ d.LeavesNone ns := by
  rw [applyEach_eq] at h
  rw [NoVariantBlock, allNodes, forall_visited_tryReplaceEach (fun _ => rfl) (fun _ _ => rfl)
    (fun n ns => by rw [Node.isVariantBlock_withChildren]) h, LeavesNone]
  simp only [Bool.true_and]
  refine forall₂_congr fun n _ => ?_
  cases happly : n.isApply with
  | true => simp [Node.isVariantBlock_of_isApply happly, Applies, happly, NoVariantBlock, allNodes]
  | false => simp [Applies, happly]

/-- Where variant blocks have been replaced by their wrapped bodies, none is left in the end exactly
if none is left of any of those and none is applied. -/
theorem leavesNone_expandInRule (h : d.expandInRule ns = .ok ms) :
    d.LeavesNone ms ↔ d.ExpandsAll ns := by
  rw [expandInRule_eq] at h
  rw [LeavesNone, forall_visited_tryReplaceEach (fun _ => rfl) (fun n ns => by simp)
    (fun n ns => by simp [Applies]) h, ExpandsAll]
  refine forall₂_congr fun n _ => ?_
  cases hblock : n.isVariantBlock with
  | true =>
    have happly : n.isApply = false := Node.isApply_of_isVariantBlock hblock
    simp only [if_true, expandBlock_eq_ok, Applies, happly]
    simp [Wraps, LeavesNone, Applies]
  | false => simp

end InRule

section Outside

variable {d} {n m : Node} {ns ms : List Node}

/-- Applying class names in a whole stylesheet leaves no variant block in a rule exactly if it leaves
none in the rules of the stylesheet and none is in a rule that is applied outside of them. -/
theorem noVariantBlockInRule_applyEach (h : d.applyEach ns = .ok ms) :
    NoVariantBlockInRule ms ↔ ∀ n ∈ visited (fun n => !n.isRule && !n.isApply) ns,
      (n.isRule → d.LeavesNone n.children) ∧ d.Applies NoVariantBlockInRule n := by
  rw [applyEach_eq] at h
  induction ns using forest_induction generalizing ms with
  | nil =>
    cases h
    exact ⟨fun _ => nofun, fun _ _ hn => absurd hn List.not_mem_nil⟩
  | cons n ns ihn ih =>
    obtain ⟨new, rest, hnew, hrest, rfl⟩ := tryReplaceEach_cons h
    rw [noVariantBlockInRule_append, ih hrest, visited_cons, List.forall_mem_cons,
      List.forall_mem_append, ← and_assoc]
    refine and_congr ?_ Iff.rfl
    rcases Node.tryReplace_cases (fun _ => rfl) hnew with
      ⟨happly, hnew⟩ | ⟨happly, inner, hinner, rfl, hchildren⟩
    · simp [happly, Node.isRule_of_isApply happly, Applies, hnew]
    · rw [noVariantBlockInRule_cons, hchildren, Node.isRule_withChildren]
      cases hrule : n.isRule with
      | true =>
        have hleft := noVariantBlock_applyEach ((applyEach_eq _).trans hinner)
        simp [happly, Applies, hleft]
      | false =>
        have hleft := ihn hinner
        simpa [happly, Applies] using hleft

theorem expandVariants_cons (h : expandVariants d (n :: ns) = .ok ms) :
    ∃ m rest, n.expandVariants d = .ok m ∧ expandVariants d ns = .ok rest ∧ ms = m :: rest := by
  rw [expandVariants] at h
  obtain ⟨m, hm, h⟩ := bind_eq_ok.1 h
  obtain ⟨rest, hrest, h⟩ := bind_eq_ok.1 h
  exact ⟨m, rest, hm, hrest, (Except.ok.inj h).symm⟩

/-- Only what is inside a node is expanded, by one step in a rule and by the other one elsewhere. -/
theorem expandVariants_cases (h : n.expandVariants d = .ok m) :
    m.isRule = n.isRule ∧ m.isApply = n.isApply ∧ m.params = n.params ∧
      (if n.isRule then d.expandInRule n.children else expandVariants d n.children) =
        .ok m.children := by
  cases n with
  | rule =>
    obtain ⟨ns, hns, rfl⟩ := map_eq_ok.1 h
    exact ⟨rfl, rfl, rfl, hns⟩
  | atRule =>
    obtain ⟨ns, hns, rfl⟩ := map_eq_ok.1 h
    exact ⟨rfl, rfl, rfl, hns⟩
  | _ =>
    cases h
    exact ⟨rfl, rfl, rfl, rfl⟩

/-- What is left after variant blocks and applied class names have been replaced can be told from
the nodes before. -/
theorem forall_expandVariants (h : expandVariants d ns = .ok ms) :
    (∀ m ∈ visited (fun n => !n.isRule && !n.isApply) ms,
      (m.isRule → d.LeavesNone m.children) ∧ d.Applies NoVariantBlockInRule m) ↔
    ∀ n ∈ visited (fun n => !n.isRule && !n.isApply) ns,
      (n.isRule → d.ExpandsAll n.children) ∧ d.Applies NoVariantBlockInRule n := by
  induction ns using forest_induction generalizing ms with
  | nil =>
    cases h
    exact ⟨fun _ _ hn => absurd hn List.not_mem_nil, fun _ _ hn => absurd hn List.not_mem_nil⟩
  | cons n ns ihn ih =>
    obtain ⟨m, rest, hm, hrest, rfl⟩ := expandVariants_cons h
    obtain ⟨hrule, happly, hparams, hinner⟩ := expandVariants_cases hm
    rw [visited_cons, List.forall_mem_cons, List.forall_mem_append, ih hrest, visited_cons,
      List.forall_mem_cons, List.forall_mem_append, hrule, happly]
    refine and_congr (and_congr ?_ ?_) (and_congr ?_ Iff.rfl)
    · refine forall_congr' fun hr => ?_
      rw [if_pos hr] at hinner
      exact leavesNone_expandInRule hinner
    · rw [Applies, Applies, happly, hparams]
    · split
      · next henter =>
        have hr : n.isRule = false := by
          rw [Bool.and_eq_true, Bool.not_eq_true'] at henter
          exact henter.1
        rw [hr] at hinner
        exact ihn hinner
      · exact ⟨fun _ _ hn => absurd hn List.not_mem_nil, fun _ _ hn => absurd hn List.not_mem_nil⟩

/-- The outermost variant blocks of a rule that is in no other one are read and wrap their bodies,
where expanding them does not fail. -/
theorem exists_wraps_of_expandVariants (h : expandVariants d ns = .ok ms) :
    ∀ r ∈ visited (!·.isRule) ns, r.isRule →
      ∀ b ∈ visited (!·.isVariantBlock) r.children, b.isVariantBlock → ∃ ks, d.Wraps b ks := by
  induction ns using forest_induction generalizing ms with
  | nil => exact fun _ hr => absurd hr List.not_mem_nil
  | cons n ns ihn ih =>
    obtain ⟨m, rest, hm, hrest, rfl⟩ := expandVariants_cons h
    obtain ⟨-, -, -, hinner⟩ := expandVariants_cases hm
    rw [visited_cons, List.forall_mem_cons, List.forall_mem_append]
    refine ⟨?_, ?_, ih hrest⟩
    · intro hrule b hb hblock
      rw [if_pos hrule, expandInRule_eq] at hinner
      obtain ⟨ks, hks⟩ := exists_of_tryReplaceEach (fun _ => rfl) hinner hb hblock
      exact ⟨ks, expandBlock_eq_ok.1 hks⟩
    · split
      · next houter =>
        rw [Bool.not_eq_true'] at houter
        rw [houter] at hinner
        exact ihn hinner
      · exact fun _ hr => absurd hr List.not_mem_nil

end Outside

end DesignSystem

section Kept

variable {t : Theme} {n m : Node} {ns ms : List Node} {inRule : Bool}

theorem evaluateEach_cons (h : evaluateEach t (n :: ns) = .ok ms) :
    ∃ m rest, n.evaluate t = .ok m ∧ evaluateEach t ns = .ok rest ∧ ms = m :: rest := by
  rw [evaluateEach] at h
  obtain ⟨m, hm, h⟩ := bind_eq_ok.1 h
  obtain ⟨rest, hrest, h⟩ := bind_eq_ok.1 h
  exact ⟨m, rest, hm, hrest, (Except.ok.inj h).symm⟩

theorem evaluate_cases (h : n.evaluate t = .ok m) :
    m.isRule = n.isRule ∧ m.isVariantBlock = n.isVariantBlock ∧ m.isApply = n.isApply ∧
      evaluateEach t n.children = .ok m.children := by
  cases n with
  | rule =>
    obtain ⟨ns, hns, rfl⟩ := map_eq_ok.1 h
    exact ⟨rfl, rfl, rfl, hns⟩
  | atRule =>
    rw [Node.evaluate] at h
    obtain ⟨params, -, h⟩ := bind_eq_ok.1 h
    obtain ⟨ns, hns, h⟩ := bind_eq_ok.1 h
    cases h
    exact ⟨rfl, rfl, rfl, hns⟩
  | statement =>
    obtain ⟨params, -, rfl⟩ := map_eq_ok.1 h
    exact ⟨rfl, rfl, rfl, rfl⟩
  | decl =>
    obtain ⟨value, -, rfl⟩ := map_eq_ok.1 h
    exact ⟨rfl, rfl, rfl, rfl⟩
  | comment =>
    cases h
    exact ⟨rfl, rfl, rfl, rfl⟩

/-- Evaluating the functions in a stylesheet keeps its blocks. -/
theorem noVariantBlockFrom_evaluateEach (h : evaluateEach t ns = .ok ms) :
    NoVariantBlockFrom inRule ms ↔ NoVariantBlockFrom inRule ns := by
  induction ns using forest_induction generalizing ms inRule with
  | nil =>
    cases h
    exact Iff.rfl
  | cons n ns ihn ih =>
    obtain ⟨m, rest, hm, hrest, rfl⟩ := evaluateEach_cons h
    obtain ⟨hrule, hblock, -, hinner⟩ := evaluate_cases hm
    rw [noVariantBlockFrom_cons, noVariantBlockFrom_cons, hrule, hblock, ihn hinner, ih hrest]

/-- So does removing markers that are no blocks. -/
theorem noVariantBlockFrom_placeEach {isMarker : Node → Bool} {met : Bool}
    (hmarker : ∀ n, isMarker n → n.isRule = false ∧ n.isVariantBlock = false ∧ n.children = []) :
    NoVariantBlockFrom inRule (placeEach isMarker (fun n => [n]) met ns).1 ↔
      NoVariantBlockFrom inRule ns := by
  induction ns using forest_induction generalizing met inRule with
  | nil => exact Iff.rfl
  | cons n ns ihn ih =>
    rw [placeEach, Node.placeAtFirst_eq, noVariantBlockFrom_cons]
    by_cases hmark : isMarker n
    · obtain ⟨hrule, hblock, hchildren⟩ := hmarker n hmark
      rw [if_pos hmark, hblock, hrule, hchildren]
      cases met with
      | true => simpa using ih
      | false => simpa [noVariantBlockFrom_cons, hblock, hrule, hchildren] using ih
    · rw [if_neg hmark]
      dsimp only
      rw [List.singleton_append, noVariantBlockFrom_cons, Node.children_placeEach, ihn, ih,
        Node.isRule_withChildren, Node.isVariantBlock_withChildren]

end Kept

end UtilityCss
