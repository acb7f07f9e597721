import UtilityCss.Proofs.Stylesheet.Replace
import UtilityCss.Proofs.Theme.VarReference
import UtilityCss.Utility.Custom

/-!
# When a declared utility fits

A declared utility fits a candidate if a call of its body is answered from the value and, where there
is a modifier, something is answered from that. An answer counts as soon as it is found: also in a
declaration that is left out afterwards, since another call in it is not answered.
-/

namespace UtilityCss

/-- Whether some call in a text that begins with `opening` is answered for an input. -/
def HasAnswer (t : Theme) (opening : String) (input : CallInput) (text : String) : Prop :=
  ∃ front args back, text = front ++ opening ++ args ++ ")" ++ back ∧
    (answerCall? t input args).isSome

def hasCalls (text : String) : Bool :=
  Text.containsPhrase text "--value(" || Text.containsPhrase text "--modifier("

def answerValue? (t : Theme) (value : CallInput) (text : String) : Option CallAnswer :=
  if Text.containsPhrase text "--value(" then answerCalls? t "--value(" value text else some { text }

def answerModifier? (t : Theme) (modifier : Option CallInput) (text : String) : Option String :=
  (answerModifier t modifier {} text).1

/-- What a candidate has to have used. -/
inductive CallPart where
  | value
  | modifier

def CallPart.isIn (usage : CallUsage) : CallPart → Bool
  | .value => usage.value
  | .modifier => usage.modifier

section Answer

variable (t : Theme) (value : CallInput) (modifier : Option CallInput)

/-- Whether the calls about the value use a part: the value itself, or the modifier in a ratio. The
text with their answers is `a`. -/
def CallPart.IsTaken (text : String) (a : CallAnswer) : CallPart → Prop
  | .value => HasAnswer t "--value(" value text
  | .modifier => a.isRatio = true

def CallPart.IsUsed (text : String) (a : CallAnswer) (p : CallPart) : Prop :=
  p.IsTaken t value text a ∨
    p = .modifier ∧ ∃ m ∈ modifier, HasAnswer t "--modifier(" m a.text

/-- Whether a declaration `n` of a body uses a part and is `m` once all its calls are answered. -/
def CallPart.IsKept (p : CallPart) (n m : Node) : Prop :=
  ∃ property text important a s, n = .decl property text important ∧
    m = .decl property s important ∧ answerValue? t value text = some a ∧
    answerModifier? t modifier a.text = some s ∧ p.IsUsed t value modifier text a

/-- Whether a declaration of a body uses a part by its calls about the value and is left out, since a
call about the modifier is not answered. -/
def CallPart.IsWasted (p : CallPart) (n : Node) : Prop :=
  ∃ property text important a, n = .decl property text important ∧
    answerValue? t value text = some a ∧ answerModifier? t modifier a.text = none ∧
    p.IsTaken t value text a

/-- What stands for a declaration with calls; all other nodes stay. -/
def Node.answered? : Node → Option (List Node)
  | .decl property text important =>
    if hasCalls text then
      some (((answerText t value modifier text).1.map (.decl property · important)).toList)
    else none
  | _ => none

end Answer

/-- The input that the modifier of a candidate is. -/
def Candidate.modifierInput? (c : Candidate) : Option CallInput := c.modifier?.map (·.input)

namespace Chars

variable {opening : List Char} {answer : List Char → Option CallAnswer} {s text : List Char}
  {ratio : Bool}

theorem exists_answer_of_answerCalls? (hopening : opening ≠ [])
    (h : answerCalls? opening answer s = some (text, ratio))
    (hcall : (cutPhrase opening s).isSome) :
    ∃ front args back, s = front ++ opening ++ args ++ ')' :: back ∧ (answer args).isSome := by
  induction s generalizing text with
  | nil => simp [cutPhrase, hopening] at hcall
  | cons c s ih =>
    rw [answerCalls?] at h
    rw [cutPhrase] at hcall
    split at h
    · next hnone =>
      obtain ⟨⟨text', ratio'⟩, htail, heq⟩ := Option.map_eq_some_iff.1 h
      cases heq
      rw [hnone, Option.isSome_map] at hcall
      obtain ⟨front, args, back, rfl, hanswer⟩ := ih htail hcall
      exact ⟨c :: front, args, back, rfl, hanswer⟩
    · next rest hrest =>
      split at h
      · cases h
      · next args behind hcut =>
        obtain ⟨a, ha, -⟩ := Option.bind_eq_some_iff.1 h
        refine ⟨[], args, behind, ?_, by rw [ha]; rfl⟩
        rw [← List.append_eq_of_isPrefixOf?_eq_some hrest, ← append_of_cutCall hcut]
        simp

end Chars

section Call

variable {t : Theme} {opening text : String} {input : CallInput} {a : CallAnswer}

theorem HasAnswer.containsPhrase (h : HasAnswer t opening input text) :
    Text.containsPhrase text opening := by
  obtain ⟨front, args, back, rfl, -⟩ := h
  rw [Text.containsPhrase, Chars.cutPhrase_isSome_iff]
  exact ⟨front.toList, args.toList ++ ")".toList ++ back.toList, by simp⟩

/-- A text in which all calls of a function are answered calls it exactly if some call is answered. -/
theorem hasAnswer_iff (hopening : opening.toList ≠ [])
    (h : answerCalls? t opening input text = some a) :
    HasAnswer t opening input text ↔ Text.containsPhrase text opening := by
  constructor
  · exact HasAnswer.containsPhrase
  · intro hcall
    obtain ⟨⟨text', ratio⟩, hcalls, -⟩ := Option.map_eq_some_iff.1 h
    obtain ⟨front, args, back, htext, hanswer⟩ :=
      Chars.exists_answer_of_answerCalls? hopening hcalls hcall
    refine ⟨String.ofList front, String.ofList args, String.ofList back, ?_, hanswer⟩
    apply String.toList_injective
    simp [htext]

end Call

section Text

variable {t : Theme} {value : CallInput} {modifier : Option CallInput} {text : String}

theorem fst_answerModifier (usage : CallUsage) :
    (answerModifier t modifier usage text).1 = answerModifier? t modifier text := by
  unfold answerModifier? answerModifier
  split
  · split <;> rfl
  · rfl

private theorem value_answerModifier (usage : CallUsage) :
    (answerModifier t modifier usage text).2.value = usage.value := by
  unfold answerModifier
  split
  · split <;> rfl
  · rfl

/-- The calls about the modifier use it if there are any and all of them are answered. -/
theorem modifier_answerModifier_iff (usage : CallUsage) :
    (answerModifier t modifier usage text).2.modifier = true ↔ usage.modifier = true ∨
      (answerModifier? t modifier text).isSome ∧ ∃ m ∈ modifier, HasAnswer t "--modifier(" m text := by
  have hopening : "--modifier(".toList ≠ [] := by decide
  unfold answerModifier? answerModifier
  split
  · next hcall =>
    cases modifier with
    | none => simp
    | some m =>
      rw [Option.bind_some]
      cases hanswer : answerCalls? t "--modifier(" m text with
      | none => simp
      | some a => simp [hasAnswer_iff hopening hanswer, hcall]
  · next hcall =>
    have hnone (m : CallInput) : ¬ HasAnswer t "--modifier(" m text := fun h => hcall h.containsPhrase
    simp [hnone]

theorem answerText_eq : answerText t value modifier text =
    match answerValue? t value text with
    | some a => answerModifier t modifier ⟨Text.containsPhrase text "--value(", a.isRatio⟩ a.text
    | none => (none, {}) := by
  unfold answerText answerValue?
  split
  · next hcall =>
    cases answerCalls? t "--value(" value text with
    | none => rfl
    | some a =>
      exact congrArg (fun used => answerModifier t modifier ⟨used, a.isRatio⟩ a.text) hcall.symm
  · next hcall => rw [Bool.eq_false_iff.2 hcall]

theorem fst_answerText : (answerText t value modifier text).1 =
    (answerValue? t value text).bind fun a => answerModifier? t modifier a.text := by
  rw [answerText_eq]
  cases answerValue? t value text with
  | none => rfl
  | some a => exact fst_answerModifier _

/-- Calls that are all answered have used the value if there is one among them. -/
theorem isTaken_value_iff {a : CallAnswer} (h : answerValue? t value text = some a) :
    CallPart.value.IsTaken t value text a ↔ Text.containsPhrase text "--value(" := by
  unfold answerValue? at h
  split at h
  · exact hasAnswer_iff (by decide) h
  · next hcall => exact ⟨HasAnswer.containsPhrase, fun h => absurd h hcall⟩

/-- What the calls in a text use: what those about the value do and, if all about the modifier are
answered too, what these do. -/
theorem isIn_answerText_iff (p : CallPart) : p.isIn (answerText t value modifier text).2 = true ↔
    ∃ a, answerValue? t value text = some a ∧ (p.IsTaken t value text a ∨
      (answerModifier? t modifier a.text).isSome ∧ p.IsUsed t value modifier text a) := by
  rw [answerText_eq]
  cases h : answerValue? t value text with
  | none => cases p <;> simp [CallPart.isIn]
  | some a =>
    cases p with
    | value => simp [CallPart.isIn, value_answerModifier, CallPart.IsUsed, isTaken_value_iff h]
    | modifier =>
      simp only [CallPart.isIn, modifier_answerModifier_iff, CallPart.IsUsed, CallPart.IsTaken]
      simp
      tauto

end Text

section Body

variable {t : Theme} {value : CallInput} {modifier : Option CallInput} {body ns : List Node}

/-- What the calls in a declaration have used; nothing in other nodes. -/
def Node.ownUsage (t : Theme) (value : CallInput) (modifier : Option CallInput) :
    Node → CallUsage
  | .decl _ text _ => (answerText t value modifier text).2
  | _ => {}

theorem answerText_of_hasCalls_eq_false {text : String} (h : hasCalls text = false) :
    answerText t value modifier text = (some text, {}) := by
  simp only [hasCalls, Bool.or_eq_false_iff] at h
  simp [answerText, answerModifier, h]

theorem answerEach_cons (n : Node) (ns : List Node) :
    answerEach t value modifier (n :: ns) =
      ((n.answer t value modifier).1 ++ (answerEach t value modifier ns).1,
        (n.answer t value modifier).2.union (answerEach t value modifier ns).2) := rfl

theorem fst_answerEach (body : List Node) :
    (answerEach t value modifier body).1 = replaceEach (Node.answered? t value modifier) body := by
  induction body using forest_induction with
  | nil => rfl
  | cons n ns ihn ih =>
    have hnode : (n.answer t value modifier).1 = n.replace (Node.answered? t value modifier) := by
      rw [Node.replace_eq, ← ihn]
      cases n with
      | decl property text important =>
        rw [Node.answered?, Node.answer]
        dsimp only
        split
        · rfl
        · next hcalls =>
          rw [answerText_of_hasCalls_eq_false (Bool.eq_false_iff.2 hcalls)]
          rfl
      | _ => rfl
    rw [answerEach_cons, replaceEach, hnode, ih]

/-- Answering calls about a candidate changes declarations only. -/
theorem IsOfHead.answerEach {P Q : Node → Prop} {body : List Node} (hQ : IsOfHead Q)
    (hkeep : ∀ n, P n → ¬ n.isDecl → Q n)
    (hdecl : ∀ property text important s, P (.decl property text important) →
      (answerText t value modifier text).1 = some s → Q (.decl property s important))
    (h : ∀ m ∈ allNodes body, P m) : ∀ m ∈ allNodes (answerEach t value modifier body).1, Q m := by
  rw [fst_answerEach]
  refine hQ.replaceEach (fun n hn hnone => ?_) (fun n new hn hnew => ?_) h
  · cases n with
    | decl property text important =>
      refine hdecl property text important text hn ?_
      rw [answerText_of_hasCalls_eq_false]
      simpa [Node.answered?] using hnone
    | _ => exact hkeep _ hn Bool.false_ne_true
  · cases n with
    | decl property text important =>
      obtain ⟨-, hnew⟩ := Option.ite_none_right_eq_some.1 hnew
      cases hnew
      cases hanswer : (answerText t value modifier text).1 with
      | none => nofun
      | some s => exact forall_allNodes_singleton.2 ⟨hdecl _ _ _ s hn hanswer, nofun⟩
    | _ => cases hnew

private theorem snd_answerEach (body : List Node) :
    (answerEach t value modifier body).2 =
      ⟨(allNodes body).any fun n => (n.ownUsage t value modifier).value,
        (allNodes body).any fun n => (n.ownUsage t value modifier).modifier⟩ := by
  induction body using forest_induction with
  | nil => rfl
  | cons n ns ihn ih =>
    have hnode : (n.answer t value modifier).2 =
        (n.ownUsage t value modifier).union (answerEach t value modifier n.children).2 := by
      cases n <;> simp [Node.answer, Node.ownUsage, Node.children, answerEach, CallUsage.union]
    rw [answerEach_cons, allNodes_cons]
    simp [hnode, ihn, ih, CallUsage.union, Bool.or_assoc]

theorem mem_replaceEach_answered {property text s : String} {important : Bool}
    (hmem : .decl property text important ∈ allNodes body)
    (hs : (answerText t value modifier text).1 = some s) :
    .decl property s important ∈ allNodes (replaceEach (Node.answered? t value modifier) body) := by
  induction body using forest_induction with
  | nil => exact absurd hmem List.not_mem_nil
  | cons n ns ihn ih =>
    rw [← fst_answerEach] at ihn
    rw [allNodes_cons, List.mem_cons, List.mem_append] at hmem
    rw [← fst_answerEach, answerEach_cons, fst_answerEach, allNodes_append, List.mem_append]
    rcases hmem with rfl | hmem | hmem
    · left
      simp [Node.answer, hs, allNodes_cons]
    · left
      cases n with
      | rule selector inner =>
        exact List.mem_cons_of_mem _ (List.mem_append_left _ (ihn hmem))
      | atRule name params inner =>
        exact List.mem_cons_of_mem _ (List.mem_append_left _ (ihn hmem))
      | _ => exact absurd hmem List.not_mem_nil
    · exact .inr (ih hmem)

/-- What a declaration uses, it uses where it is kept or where it is left out. -/
theorem isIn_ownUsage_iff (p : CallPart) (n : Node) :
    p.isIn (n.ownUsage t value modifier) = true ↔
      (∃ m, p.IsKept t value modifier n m) ∨ p.IsWasted t value modifier n := by
  cases n with
  | decl property text important =>
    rw [Node.ownUsage, isIn_answerText_iff]
    constructor
    · rintro ⟨a, ha, hused⟩
      cases hs : answerModifier? t modifier a.text with
      | some s =>
        left
        have hused : p.IsUsed t value modifier text a := hused.elim .inl fun h => h.2
        exact ⟨_, property, text, important, a, s, rfl, rfl, ha, hs, hused⟩
      | none =>
        right
        have htaken : p.IsTaken t value text a := by simpa [hs] using hused
        exact ⟨property, text, important, a, rfl, ha, hs, htaken⟩
    · rintro (⟨_, _, _, _, a, s, ⟨⟩, -, ha, hs, hused⟩ | ⟨_, _, _, a, ⟨⟩, ha, -, htaken⟩)
      · exact ⟨a, ha, .inr ⟨by rw [hs]; rfl, hused⟩⟩
      · exact ⟨a, ha, .inl htaken⟩
  | _ => cases p <;> simp [CallPart.isIn, Node.ownUsage, CallPart.IsKept, CallPart.IsWasted]

/-- A declaration that is kept gets all answers and uses the part. -/
theorem CallPart.IsKept.answerText {p : CallPart} {property text : String} {important : Bool}
    {m : Node} (h : p.IsKept t value modifier (.decl property text important) m) :
    (UtilityCss.answerText t value modifier text).1.isSome ∧
      p.isIn (UtilityCss.answerText t value modifier text).2 = true := by
  constructor
  · obtain ⟨_, _, _, a, s, ⟨⟩, -, ha, hs, -⟩ := h
    rw [fst_answerText, ha, Option.bind_some, hs]
    rfl
  · exact (isIn_ownUsage_iff p (.decl property text important)).2 (.inl ⟨m, h⟩)

theorem CallPart.IsKept.mem {p : CallPart} {n m : Node} (h : p.IsKept t value modifier n m)
    (hn : n ∈ allNodes body) :
    m ∈ allNodes (replaceEach (Node.answered? t value modifier) body) := by
  obtain ⟨property, text, important, a, s, rfl, rfl, ha, hs, -⟩ := h
  apply mem_replaceEach_answered hn
  rw [fst_answerText, ha]
  exact hs

/-- A part is used by a body where a declaration that uses it is kept, or where one is left out. -/
theorem isIn_answerEach_iff (p : CallPart) (body : List Node) :
    p.isIn (answerEach t value modifier body).2 = true ↔
      (∃ n ∈ allNodes body, ∃ m ∈ allNodes (replaceEach (Node.answered? t value modifier) body),
        p.IsKept t value modifier n m) ∨
      ∃ n ∈ allNodes body, p.IsWasted t value modifier n := by
  have hany : p.isIn (answerEach t value modifier body).2 = true ↔
      ∃ n ∈ allNodes body, p.isIn (n.ownUsage t value modifier) = true := by
    rw [snd_answerEach]
    cases p <;> exact List.any_eq_true
  rw [hany]
  constructor
  · rintro ⟨n, hn, hused⟩
    rcases (isIn_ownUsage_iff p n).1 hused with ⟨m, hm⟩ | hwasted
    · exact .inl ⟨n, hn, m, hm.mem hn, hm⟩
    · exact .inr ⟨n, hn, hwasted⟩
  · rintro (⟨n, hn, m, -, hm⟩ | ⟨n, hn, hwasted⟩)
    · exact ⟨n, hn, (isIn_ownUsage_iff p n).2 (.inl ⟨m, hm⟩)⟩
    · exact ⟨n, hn, (isIn_ownUsage_iff p n).2 (.inr hwasted)⟩

end Body

/-- A declared utility fits a candidate with a value that is not negated if a declaration of its body
uses the value and, where there is a modifier, one uses that; but it need not be one that is kept. The
nodes are those of the body, where declarations with calls are kept with the answers or left out. -/
theorem customNodes?_eq_some_iff (t : Theme) (body : List Node) (c : Candidate) (ns : List Node) :
    customNodes? t body c = some ns ↔ ∃ value, c.value? = some value ∧ c.negative = false ∧
      ns = replaceEach (Node.answered? t value c.modifierInput?) body ∧
      ((∃ n ∈ allNodes body, ∃ m ∈ allNodes ns, CallPart.value.IsKept t value c.modifierInput? n m) ∨
        ∃ n ∈ allNodes body, CallPart.value.IsWasted t value c.modifierInput? n) ∧
      (c.modifier?.isSome →
        (∃ n ∈ allNodes body, ∃ m ∈ allNodes ns,
          CallPart.modifier.IsKept t value c.modifierInput? n m) ∨
        ∃ n ∈ allNodes body, CallPart.modifier.IsWasted t value c.modifierInput? n) := by
  rw [customNodes?, Option.bind_eq_bind, Option.bind_eq_some_iff]
  refine exists_congr fun value => and_congr_right fun _ => ?_
  change (if c.negative || !(answerEach t value c.modifierInput? body).2.value ||
      (c.modifier?.isSome && !(answerEach t value c.modifierInput? body).2.modifier) then none
    else some (answerEach t value c.modifierInput? body).1) = some ns ↔ _
  have hvalue : CallPart.value.isIn (answerEach t value c.modifierInput? body).2 = true ↔ _ :=
    isIn_answerEach_iff .value body
  have hmodifier : CallPart.modifier.isIn (answerEach t value c.modifierInput? body).2 = true ↔ _ :=
    isIn_answerEach_iff .modifier body
  simp only [CallPart.isIn] at hvalue hmodifier
  rw [fst_answerEach]
  constructor
  · intro h
    obtain ⟨hfits, h⟩ := Option.ite_none_left_eq_some.1 h
    cases h
    rw [← hvalue, ← hmodifier]
    simpa [and_assoc] using hfits
  · rintro ⟨hnegative, rfl, hused⟩
    rw [← hvalue, ← hmodifier] at hused
    rw [if_neg]
    simpa [hnegative] using hused

def tabBody : List Node :=
  [.plain "tab-size" "--value(integer) --modifier(integer)", .plain "color" "red"]

def boxBody : List Node :=
  [.plain "aspect-ratio" "--value(ratio) --modifier([integer])", .plain "width" "--value(integer)"]

def tabCandidate : Candidate := ⟨.functional "tab" (some (.named "4" none)) none false, [], false, "tab-4"⟩

def boxCandidate : Candidate :=
  ⟨.functional "box" (some (.named "16" (some "16/9"))) (some (.named "9")) false, [], false,
    "box-16/9"⟩

/-- The only declaration that uses the value of `tab-4` is left out, and so is the only one that uses
the modifier of `box-16/9`. The utilities fit all the same. -/
theorem customNodes?_eq_some_of_wasted :
    (customNodes? {} tabBody tabCandidate = some [.plain "color" "red"] ∧
      ¬ ∃ n ∈ allNodes tabBody, ∃ m ∈ allNodes [.plain "color" "red"],
        CallPart.value.IsKept {} (.named "4" none) tabCandidate.modifierInput? n m) ∧
    (customNodes? {} boxBody boxCandidate = some [.plain "width" "16"] ∧
      boxCandidate.modifier?.isSome ∧
      ¬ ∃ n ∈ allNodes boxBody, ∃ m ∈ allNodes [.plain "width" "16"],
        CallPart.modifier.IsKept {} (.named "16" (some "16/9")) boxCandidate.modifierInput? n m) := by
  have htab : answerText {} (.named "4" none) none "--value(integer) --modifier(integer)" =
      (none, ⟨true, false⟩) := by decide +kernel
  have hcolor : answerText {} (.named "4" none) none "red" = (some "red", {}) := by decide +kernel
  have hratio : answerText {} (.named "16" (some "16/9")) (some (.named "9" none))
      "--value(ratio) --modifier([integer])" = (none, ⟨true, true⟩) := by decide +kernel
  have hwidth : answerText {} (.named "16" (some "16/9")) (some (.named "9" none))
      "--value(integer)" = (some "16", ⟨true, false⟩) := by decide +kernel
  have hnone : tabCandidate.modifierInput? = none := rfl
  have hnine : boxCandidate.modifierInput? = some (.named "9" none) := rfl
  refine ⟨⟨?_, ?_⟩, ?_, rfl, ?_⟩
  · simp [customNodes?, tabBody, tabCandidate, Candidate.value?, Candidate.modifier?,
      Candidate.negative, answerEach, Node.answer, Node.plain, htab, hcolor, CallUsage.union]
  · rintro ⟨n, hn, m, -, hkept⟩
    rw [hnone] at hkept
    rcases List.mem_pair.1 hn with rfl | rfl
    · have hanswer := hkept.answerText.1
      rw [htab] at hanswer
      cases hanswer
    · have hused := hkept.answerText.2
      rw [hcolor] at hused
      cases hused
  · simp [customNodes?, boxBody, boxCandidate, Candidate.value?, Candidate.modifier?, Argument.input,
      Candidate.negative, answerEach, Node.answer, Node.plain, hratio, hwidth, CallUsage.union]
  · rintro ⟨n, hn, m, -, hkept⟩
    rw [hnine] at hkept
    rcases List.mem_pair.1 hn with rfl | rfl
    · have hanswer := hkept.answerText.1
      rw [hratio] at hanswer
      cases hanswer
    · have hused := hkept.answerText.2
      rw [hwidth] at hused
      cases hused

end UtilityCss
