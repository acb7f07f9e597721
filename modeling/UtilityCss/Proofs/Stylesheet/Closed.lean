import UtilityCss.Candidate.Parser
import UtilityCss.Design.System
import UtilityCss.Proofs.Stylesheet.Block
import UtilityCss.Proofs.Stylesheet.Reading
import UtilityCss.Proofs.Stylesheet.Selector
import UtilityCss.Proofs.Text.Blank

/-!
# Closed nodes

A node is closed if a scan passes over each of its texts, with marks of importance and without. Such
nodes can be nested and put into the blocks of others, and what is printed for them is read back.
-/

namespace UtilityCss

namespace Chars

variable {s t : List Char} {c : Char}

/-- No comment opens in tame characters. -/
theorem stripComments_tame (hs : ∀ c ∈ s, isTame c) :
    stripComments .plain (s ++ t) = s ++ stripComments .plain t := by
  induction s with
  | nil => rfl
  | cons c s ih =>
    have hc : isTame c := hs c List.mem_cons_self
    have henter : Scan.enter c = .plain := by
      rw [Scan.enter]
      rw [if_neg]
      intro h
      simp only [isQuote, Bool.or_eq_true, beq_iff_eq] at h
      rcases h with rfl | rfl <;> exact absurd hc (by decide)
    rw [List.cons_append, stripComments, henter, ih fun c hc => hs c (List.mem_cons_of_mem _ hc)]
    · rfl
    · rintro _ rfl
      exact absurd hc (by decide)

theorem scanValue_tame (hs : ∀ c ∈ s, isTame c) (t : List Char) :
    scanValue none 0 (s ++ t) = (s ++ (scanValue none 0 t).1, (scanValue none 0 t).2) := by
  induction s with
  | nil => rfl
  | cons c s ih =>
    obtain ⟨hc, hs⟩ := List.forall_mem_cons.1 hs
    have hstop : c ≠ ';' := by
      rintro rfl
      exact absurd hc (by decide)
    have hstep : scanValue none 0 (c :: (s ++ t)) = before c (scanValue none 0 (s ++ t)) :=
      scanValue_of_next (n := {}) (ne_backslash_of_isTame hc) (next?_tame hc) fun h => hstop h.2
    rw [List.cons_append, hstep, ih hs]
    rfl

def headsRule (s : List Char) : Bool := leads s && !startsCustomProperty s

/-- Whether a text begins in a way that a rule and no other node does. -/
def startsRule : List Char → Bool
  | [] => false
  | c :: _ => !(isBlank c || c == '@' || c == '-')

theorem startsRule_append (h : startsRule s) : startsRule (s ++ t) := by
  cases s with
  | nil => exact absurd h Bool.false_ne_true
  | cons => exact h

theorem isNodeGap_of_isBlank (hc : isBlank c = false) : isNodeGap c = false := by
  rw [Bool.eq_false_iff]
  intro h
  simp only [isNodeGap, Bool.or_eq_true, beq_iff_eq] at h
  rcases h with ((rfl | rfl) | rfl) | rfl <;> exact absurd hc (by decide)

theorem headsRule_of_startsRule (h : startsRule s) : headsRule s := by
  cases s with
  | nil => rfl
  | cons c s =>
    simp only [startsRule, Bool.not_eq_true', Bool.or_eq_false_iff, beq_eq_false_iff_ne] at h
    have hcustom : isCustomProperty (c :: s) = false := by
      simp [isCustomProperty, List.isPrefixOf, Ne.symm h.2]
    simp [headsRule, leads, h, isNodeGap_of_isBlank h.1.1, startsCustomProperty, trimStart, hcustom]

/-- What begins with the name of a custom property and a colon is a custom property. -/
theorem startsCustomProperty_append (h : isCustomProperty s) (t : List Char) :
    startsCustomProperty (s ++ ':' :: t) := by
  obtain ⟨u, rfl⟩ := List.isPrefixOf_iff_prefix.1 h
  have hstart : trimStart ("--".toList ++ u ++ ':' :: t) = "--".toList ++ u ++ ':' :: t := rfl
  have hprefix : isCustomProperty ("--".toList ++ u ++ ':' :: t) :=
    List.isPrefixOf_iff_prefix.2 ⟨u ++ ':' :: t, by simp⟩
  rw [startsCustomProperty, hstart, hprefix]
  simp

end Chars

section Property

variable {property : String} {c : Char}

theorem isPropertyName_chars (h : isPropertyName property) :
    (∃ c s, property.toList = c :: s ∧ (c = '-' ∨ c.isLower)) ∧
      ∀ c ∈ property.toList, c.isAlphanum || c == '-' || c == '_' := by
  rw [isPropertyName] at h
  split at h
  · exact absurd h Bool.false_ne_true
  · next c s hs =>
    rw [Bool.and_eq_true, Bool.or_eq_true, beq_iff_eq] at h
    exact ⟨⟨c, s, hs, h.1⟩, List.all_eq_true.1 h.2⟩

def isNameStart (c : Char) : Bool := (Nat.ble 97 c.toNat && Nat.ble c.toNat 122) || Nat.beq c.toNat 45

def isSmallName : List Char → Bool
  | [] => false
  | c :: s => isNameStart c && s.all fun c => isNameStart c || (Nat.ble 48 c.toNat && Nat.ble c.toNat 57)

theorem isNameStart_iff : isNameStart c ↔ c.isLower ∨ c = '-' := by
  simp only [isNameStart, Chars.isLower_iff, Bool.or_eq_true, Bool.and_eq_true, Nat.ble_eq,
    Nat.beq_eq]
  apply or_congr Iff.rfl
  rw [Char.ext_iff, ← UInt32.toNat_inj]
  rfl

private theorem isPropertyName_of_isSmallName (h : isSmallName property.toList) :
    isPropertyName property := by
  have hstart {c : Char} (hc : isNameStart c) : c.isAlphanum || c == '-' || c == '_' := by
    rcases isNameStart_iff.1 hc with hc | rfl
    · simp [Chars.isAlphanum_iff.2 (.inl (.inr hc))]
    · rfl
  rw [isPropertyName]
  split
  · next hs => simp [isSmallName, hs] at h
  · next c s hs =>
    rw [hs, isSmallName, Bool.and_eq_true, List.all_eq_true] at h
    have hall : ∀ d ∈ property.toList, d.isAlphanum || d == '-' || d == '_' := by
      rw [hs]
      intro d hd
      rcases List.mem_cons.1 hd with rfl | hd
      · exact hstart h.1
      · have hd := h.2 d hd
        rw [Bool.or_eq_true, Bool.and_eq_true, Nat.ble_eq, Nat.ble_eq] at hd
        rcases hd with hd | hd
        · exact hstart hd
        · simp [Chars.isAlphanum_iff.2 (.inr (Char.isDigit_iff_toNat.2 hd))]
    rw [Bool.and_eq_true, Text.all, List.all_eq_true, Bool.or_eq_true, beq_iff_eq]
    exact ⟨(isNameStart_iff.1 h.1).symm, hall⟩

instance (property : String) : Decidable (isPropertyName property = true) :=
  if h : isSmallName (Text.chars property) then
    .isTrue (isPropertyName_of_isSmallName (Text.chars_eq property ▸ h))
  else inferInstanceAs (Decidable (isPropertyName property = true))

theorem isTame_of_isPropertyName (h : isPropertyName property) :
    ∀ c ∈ property.toList, Chars.isTame c :=
  fun c hc => Chars.isTame_of (p := fun c => c.isAlphanum || c == '-' || c == '_') (by decide)
    ((isPropertyName_chars h).2 c hc)

/-- A character of a property's name is no white space. -/
theorem isBlank_of_isNameChar (hc : c.isAlphanum || c == '-' || c == '_') : isBlank c = false :=
  isBlank_eq_false_of (p := fun c => c.isAlphanum || c == '-' || c == '_') (by decide) hc

private theorem trim_of_isPropertyName (h : isPropertyName property) :
    Chars.trim property.toList = property.toList :=
  Chars.trim_eq_self_of_forall fun c hc => isBlank_of_isNameChar ((isPropertyName_chars h).2 c hc)

theorem ne_nil_of_isPropertyName (h : isPropertyName property) : property.toList ≠ [] := by
  obtain ⟨⟨c, s, hs, -⟩, -⟩ := isPropertyName_chars h
  rw [hs]
  exact List.cons_ne_nil c s

theorem readDeclaration_declarationText (h : isPropertyName property) (value : String)
    (important : Bool) : readDeclaration (declarationText property value important) =
      .ok (Node.decl property value important).reread := by
  have hcolon : ':' ∉ property.toList :=
    fun hc => absurd ((isPropertyName_chars h).2 _ hc) (by decide)
  have hstrip (s : List Char) : Chars.stripComments .plain (':' :: ' ' :: s) =
      ':' :: ' ' :: Chars.stripComments .plain s :=
    Chars.stripComments_tame (s := [':', ' ']) (by decide)
  apply readDeclaration_of_stripComments (ne_nil_of_isPropertyName h) hcolon (trim_of_isPropertyName h)
  rw [declarationText_eq, Chars.stripComments_tame (isTame_of_isPropertyName h), hstrip]

theorem leads_of_isPropertyName (h : isPropertyName property) (t : List Char) :
    Chars.leads (property.toList ++ t) := by
  obtain ⟨⟨c, s, hs, hc⟩, -⟩ := isPropertyName_chars h
  rw [hs]
  rcases hc with rfl | hc
  · rfl
  · have hgap : isNodeGap c = false :=
      Chars.isNodeGap_of_isBlank
        (isBlank_of_isNameChar (by simp [Chars.isAlphanum_iff.2 (.inl (.inr hc))]))
    have hat : c ≠ '@' := by
      rintro rfl
      exact absurd hc (by decide)
    simp [Chars.leads, hgap, hat]

end Property

section Blocks

variable {property value : String} {important : Bool}

theorem scanValue_declarationText {rest : List Char} (hblocks : Chars.HoldsBlocks value.toList)
    (hproperty : Chars.scanValue none 0 (property.toList ++ [';']) = (property.toList, [';'])) :
    Chars.scanValue none 0 (declarationText property value important ++ ';' :: rest) =
      (declarationText property value important, ';' :: rest) := by
  have hmark : Chars.scanValue none 0
      ((if important then " !important" else "").toList ++ ';' :: rest) =
      ((if important then " !important" else "").toList, ';' :: rest) := by
    cases important <;> rfl
  have hvalue : Chars.scanValue none 0 (valueText value important ++ ';' :: rest) =
      (valueText value important, ';' :: rest) := by
    rw [valueText, String.toList_append, List.append_assoc, hblocks.scanValue, hmark]
  have hcolon : Chars.scanValue none 0 (':' :: ' ' :: (valueText value important ++ ';' :: rest)) =
      (':' :: ' ' :: valueText value important, ';' :: rest) := by
    change Chars.before ':' (Chars.before ' ' (Chars.scanValue none 0 _)) = _
    rw [hvalue]
    rfl
  rw [declarationText_eq, List.append_assoc, Chars.scanValue_append _ hproperty]
  simp only [List.cons_append, hcolon]

/-- Where blocks stand in the value, the first scan stops at one of them and the second one finds
the end of the declaration. -/
theorem resume_blockDecl {opened : List (BlockHead × List Node)} {done : List Node}
    {rest u v : List Char} (hne : property.toList ≠ []) (hpass : Passes .whole property)
    (hlead : Chars.leads property.toList)
    (hstarts : ∀ t, Chars.startsCustomProperty (property.toList ++ ':' :: t))
    (hread : readDeclaration (declarationText property value important) =
      .ok (Node.decl property value important).reread)
    (hblocks : Chars.HoldsBlocks value.toList)
    (hproperty : Chars.scanValue none 0 (property.toList ++ [';']) = (property.toList, [';']))
    (hvalue : value.toList = u ++ '\x7b' :: v) (hu : Chars.Passes .whole u) :
    resume opened done (declarationText property value important ++ ';' :: rest) =
      resume opened ((Node.decl property value important).reread :: done) rest := by
  apply resume_leaf
  have hfront : Chars.Passes .whole (property.toList ++ [':', ' '] ++ u) :=
    Chars.Passes.join hpass hu (by decide)
  have htext : declarationText property value important ++ ';' :: rest =
      (property.toList ++ [':', ' '] ++ u) ++ '\x7b' ::
        (v ++ (if important then " !important" else "").toList ++ ';' :: rest) := by
    rw [declarationText_eq, valueText, String.toList_append, hvalue]
    simp
  have hsplit : declarationText property value important ++ ';' :: rest =
      property.toList ++ ':' :: ' ' :: (valueText value important ++ ';' :: rest) := by
    simp [declarationText_eq]
  have hcustom : Chars.startsCustomProperty (property.toList ++ [':', ' '] ++ u) := by
    rw [List.append_assoc]
    exact hstarts _
  have hstep : ruleStep (declarationText property value important ++ ';' :: rest) =
      .ok (.leaf (Node.decl property value important).reread, rest) := by
    rw [ruleStep]
    conv => lhs; arg 1; rw [htext]
    rw [hfront.scanPrelude (by decide)]
    change preludeStep _ _ ('\x7b' :: _) = _
    rw [preludeStep, if_pos hcustom, scanValue_declarationText hblocks hproperty, declarationStep,
      hread]
    rfl
  rw [hsplit, nextToken_of_leads hpass hlead hne (by simp), ← hsplit, hstep]
  rfl

end Blocks

/-- Whether each of the node's own texts can stand where the printer puts it. The kind says what is
asked of selectors, and the value of a custom property may hold blocks. -/
def Node.IsClosed (k : TextKind) : Node → Prop
  | .rule sel _ => Passes k sel ∧ Chars.headsRule sel.toList
  | .atRule name params _ => Chars.isAtName name.toList ∧ Passes .part params
  | .statement name params => Chars.isAtName name.toList ∧ Passes .part params
  | .decl property value _ => isPropertyName property ∧ (Passes .part value ∨
      Chars.isCustomProperty property.toList ∧ Chars.HoldsBlocks value.toList)
  | .comment text => Text.containsPhrase text "*/" = false

instance (k : TextKind) : DecidablePred (Node.IsClosed k)
  | .rule sel _ => inferInstanceAs (Decidable (Passes k sel ∧ Chars.headsRule sel.toList))
  | .atRule name params _ =>
    inferInstanceAs (Decidable (Chars.isAtName name.toList ∧ Passes .part params))
  | .statement name params =>
    inferInstanceAs (Decidable (Chars.isAtName name.toList ∧ Passes .part params))
  | .decl property value _ =>
    inferInstanceAs (Decidable (isPropertyName property ∧ (Passes .part value ∨
      Chars.isCustomProperty property.toList ∧ Chars.HoldsBlocks value.toList)))
  | .comment text => inferInstanceAs (Decidable (Text.containsPhrase text "*/" = false))

def Closed (k : TextKind) (ns : List Node) : Prop := ∀ n ∈ allNodes ns, n.IsClosed k

instance (k : TextKind) : DecidablePred (Closed k) :=
  fun ns => inferInstanceAs (Decidable (∀ n ∈ allNodes ns, n.IsClosed k))

section Closed

variable {k : TextKind} {n m : Node} {ns ms : List Node}

theorem closed_nil : Closed k [] := nofun

theorem closed_cons : Closed k (n :: ns) ↔ n.IsClosed k ∧ Closed k n.children ∧ Closed k ns :=
  forall_allNodes_cons

theorem closed_append : Closed k (ns ++ ms) ↔ Closed k ns ∧ Closed k ms :=
  forall_allNodes_append

theorem closed_singleton : Closed k [n] ↔ n.IsClosed k ∧ Closed k n.children := by
  rw [closed_cons]
  simp [closed_nil]

theorem Node.IsClosed.of_selector (h : n.IsClosed .selector) : n.IsClosed k := by
  cases n with
  | rule => exact ⟨Chars.Passes.of_selector h.1, h.2⟩
  | _ => exact h

theorem Closed.of_selector (h : Closed .selector ns) : Closed k ns :=
  fun n hn => (h n hn).of_selector

/-- A property and a value that a scan passes over can be read where they are printed, with a mark
and without. -/
theorem isPrintable_decl {property value : String} {important : Bool}
    (hname : isPropertyName property) (hpass : Passes .whole value) :
    (Node.decl property value important).IsPrintable := by
  have htext : declarationText property value important = property.toList ++ ':' :: ' ' ::
      (value.toList ++ (if important then " !important" else "").toList) := by
    simp [declarationText]
  have hmark : Chars.Passes .whole (if important then " !important" else "").toList := by
    cases important <;> decide
  have hvalue : Chars.Passes .whole
      (value.toList ++ (if important then " !important" else "").toList) := by
    refine hpass.append hmark ?_ ?_ <;> cases important <;> decide
  refine ⟨?_, ?_, readDeclaration_declarationText hname value important⟩
  all_goals rw [htext]
  · obtain ⟨slash, hvalue⟩ := hvalue
    refine ⟨slash, ?_⟩
    rw [Place.run_append_of (Chars.run_tame (isTame_of_isPropertyName hname) 0)]
    exact hvalue
  · exact leads_of_isPropertyName hname _

/-- Closed nodes are read where they are printed. -/
theorem Node.IsClosed.isReadable (h : n.IsClosed .part) : n.IsReadable := by
  cases n with
  | rule sel =>
    obtain ⟨hpass, hhead⟩ := h
    rw [Chars.headsRule, Bool.and_eq_true, Bool.not_eq_true'] at hhead
    exact ⟨hpass.whole, hhead.1, by simp [hhead.2]⟩
  | atRule => exact ⟨h.1, h.2.whole⟩
  | statement => exact ⟨h.1, h.2.whole⟩
  | comment => exact h
  | decl property value important =>
    obtain ⟨hname, hvalue⟩ := h
    have htame := isTame_of_isPropertyName hname
    have hread := readDeclaration_declarationText hname value important
    have hlead : Chars.leads property.toList := by simpa using leads_of_isPropertyName hname []
    rcases hvalue with hpass | ⟨hcustom, hblocks⟩
    · exact (isPrintable_decl hname hpass.whole).isReadable
    · rcases hblocks.passes with hpass | ⟨u, v, htext, hu⟩
      · exact (isPrintable_decl hname hpass).isReadable
      · exact fun _ _ _ => resume_blockDecl (ne_nil_of_isPropertyName hname)
          (Chars.passes_tame htame) hlead (Chars.startsCustomProperty_append hcustom) hread
          hblocks (by rw [Chars.scanValue_tame htame]; simp [Chars.scanValue]) htext hu

theorem Closed.readable (h : Closed .part ns) : Readable ns := fun n hn => (h n hn).isReadable

/-- Whether all but the values and parameters of a node can stand where the printer puts it. -/
def Node.IsShaped : Node → Prop
  | .rule sel _ => Passes .part sel ∧ Chars.headsRule sel.toList
  | .atRule name _ _ | .statement name _ => Chars.isAtName name.toList
  | .decl property _ _ => isPropertyName property
  | .comment text => Text.containsPhrase text "*/" = false

instance : DecidablePred Node.IsShaped
  | .rule sel _ => inferInstanceAs (Decidable (Passes .part sel ∧ Chars.headsRule sel.toList))
  | .atRule name _ _ | .statement name _ => inferInstanceAs (Decidable (Chars.isAtName name.toList = true))
  | .decl property _ _ => inferInstanceAs (Decidable (isPropertyName property = true))
  | .comment text => inferInstanceAs (Decidable (Text.containsPhrase text "*/" = false))

/-- Whether all nodes of a forest are shaped like closed ones and their values and parameters are as
asked. -/
def Sound (P : String → Prop) (ns : List Node) : Prop :=
  ∀ n ∈ allNodes ns, n.IsShaped ∧ ∀ text ∈ n.texts, P text

instance (P : String → Prop) [DecidablePred P] : DecidablePred (Sound P) :=
  fun ns => inferInstanceAs (Decidable (∀ n ∈ allNodes ns, n.IsShaped ∧ ∀ text ∈ n.texts, P text))

variable {P Q : String → Prop}

theorem sound_nil : Sound P [] := nofun

theorem sound_append : Sound P (ns ++ ms) ↔ Sound P ns ∧ Sound P ms := forall_allNodes_append

theorem sound_singleton :
    Sound P [n] ↔ (n.IsShaped ∧ ∀ text ∈ n.texts, P text) ∧ Sound P n.children :=
  forall_allNodes_singleton

theorem sound_iff_forall_mem : Sound P ns ↔ ∀ n ∈ ns, Sound P [n] := by
  induction ns with
  | nil => exact iff_of_true sound_nil (List.forall_mem_nil _)
  | cons n ns ih => rw [← List.singleton_append, sound_append, ih, List.forall_mem_append]; simp

theorem Sound.imp (h : Sound P ns) (hPQ : ∀ s, P s → Q s) : Sound Q ns :=
  fun n hn => ⟨(h n hn).1, fun text htext => hPQ _ ((h n hn).2 text htext)⟩

theorem Sound.texts (h : Sound P ns) : TextsHold P ns := fun n hn => (h n hn).2

/-- Nodes are closed if a scan passes over their values and parameters. -/
theorem Sound.closed (h : Sound (Passes .part) ns) : Closed .part ns := by
  intro n hn
  obtain ⟨hshape, hpass⟩ := h n hn
  cases n with
  | rule => exact hshape
  | atRule => exact ⟨hshape, hpass _ List.mem_cons_self⟩
  | statement => exact ⟨hshape, hpass _ List.mem_cons_self⟩
  | decl => exact ⟨hshape, .inl (hpass _ List.mem_cons_self)⟩
  | comment => exact hshape

theorem closed_markImportant (h : Closed k ns) : Closed k (markImportant ns) := by
  induction ns using forest_induction with
  | nil => exact closed_nil
  | cons n ns ihn ih =>
    obtain ⟨hn, hinner, hns⟩ := closed_cons.1 h
    rw [markImportant, closed_cons]
    cases n with
    | rule => exact ⟨hn, ihn hinner, ih hns⟩
    | atRule name params inner =>
      rw [Node.markImportant]
      split
      · exact ⟨hn, hinner, ih hns⟩
      · exact ⟨hn, ihn hinner, ih hns⟩
    | _ => exact ⟨hn, hinner, ih hns⟩

theorem closed_fillEach (h : Closed k ns) (hbody : Closed k ms) : Closed k (fillEach ms ns) := by
  induction ns using forest_induction with
  | nil => exact closed_nil
  | cons n ns ihn ih =>
    obtain ⟨hn, hinner, hns⟩ := closed_cons.1 h
    have hblock : Closed k (if n.children.isEmpty then ms else fillEach ms n.children) := by
      split
      · exact hbody
      · exact ihn hinner
    rw [fillEach, closed_cons]
    cases n with
    | rule => exact ⟨hn, hblock, ih hns⟩
    | atRule => exact ⟨hn, hblock, ih hns⟩
    | _ => exact ⟨hn, hinner, ih hns⟩

end Closed

mutual

/-- Whether something is printed for a node, or, with `room`, would be if its empty blocks were
filled. -/
def Node.isFull (room : Bool) : Node → Bool
  | .rule _ ns => (room && ns.isEmpty) || anyFull room ns
  | .atRule _ _ ns => (room && ns.isEmpty) || anyFull room ns
  | _ => true

def anyFull (room : Bool) : List Node → Bool
  | [] => false
  | n :: ns => n.isFull room || anyFull room ns

end

def isFullBlock (room : Bool) (ns : List Node) : Bool := (room && ns.isEmpty) || anyFull room ns

theorem anyFull_append (room : Bool) (ns ms : List Node) :
    anyFull room (ns ++ ms) = (anyFull room ns || anyFull room ms) := by
  induction ns with
  | nil => rfl
  | cons n ns ih => rw [List.cons_append, anyFull, ih, anyFull, Bool.or_assoc]

theorem anyFull_markImportant (room : Bool) (ns : List Node) :
    anyFull room (markImportant ns) = anyFull room ns := by
  induction ns using forest_induction with
  | nil => rfl
  | cons n ns ihn ih =>
    have hempty (ns : List Node) : (markImportant ns).isEmpty = ns.isEmpty := by
      cases ns <;> rfl
    rw [markImportant, anyFull, ih, anyFull]
    congr 1
    cases n with
    | rule =>
      rw [Node.children] at ihn
      rw [Node.markImportant, Node.isFull, hempty, ihn, Node.isFull]
    | atRule =>
      rw [Node.children] at ihn
      rw [Node.markImportant]
      split
      · rfl
      · rw [Node.isFull, hempty, ihn, Node.isFull]
    | _ => rfl

theorem anyContent_of_anyFull {ns : List Node} (h : anyFull false ns) : anyContent ns := by
  induction ns using forest_induction with
  | nil => exact h
  | cons n ns ihn ih =>
    rw [anyFull, Bool.or_eq_true] at h
    rw [anyContent, Bool.or_eq_true]
    refine h.imp (fun h => ?_) ih
    cases n with
    | rule => exact ihn h
    | atRule =>
      rw [Node.hasContent, Bool.or_eq_true]
      exact .inl (ihn h)
    | _ => rfl

theorem isFullBlock_of_anyFull {room : Bool} {ns : List Node} (h : anyFull room ns) :
    isFullBlock room ns := by
  rw [isFullBlock, h, Bool.or_true]

/-- Filling empty blocks with a full one gives full nodes. -/
theorem anyFull_fillEach {room : Bool} {ns body : List Node} (h : anyFull true ns)
    (hbody : isFullBlock room body) : anyFull room (fillEach body ns) := by
  induction ns using forest_induction with
  | nil => exact absurd h Bool.false_ne_true
  | cons n ns ihn ih =>
    rw [anyFull, Bool.or_eq_true] at h
    rw [fillEach, anyFull, Bool.or_eq_true]
    refine h.imp (fun h => ?_) ih
    have hblock (hn : isFullBlock true n.children) :
        isFullBlock room (if n.children.isEmpty then body else fillEach body n.children) := by
      rw [isFullBlock] at hn
      split
      · exact hbody
      · next hempty => exact isFullBlock_of_anyFull (ihn (by simpa [hempty] using hn))
    cases n with
    | rule => exact hblock h
    | atRule => exact hblock h
    | _ => rfl

end UtilityCss
