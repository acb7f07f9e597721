import UtilityCss.Proofs.Stylesheet.Block
import UtilityCss.Proofs.Stylesheet.Closed

/-!
# Normal forests

A node is normal if reading one of its texts by itself leaves it as it is and the scan takes it
whole. Printing and reading a forest of such nodes gives it back without its empty blocks. Only a
declaration asks for more: its property and its value are scanned as one text, so they must fit
together.
-/

namespace UtilityCss

namespace Chars

/-- Whether a text has no comment and no blanks around it, which is what is asked of a property. -/
def IsTrimmed (s : List Char) : Prop := trim (stripComments .plain s) = s

def IsClean (s : List Char) : Prop := cleanText s = s

instance : DecidablePred IsTrimmed :=
  fun s => inferInstanceAs (Decidable (trim (stripComments .plain s) = s))

instance : DecidablePred IsClean := fun s => inferInstanceAs (Decidable (cleanText s = s))

section Clean

variable {s t : List Char} {c : Char}

theorem stripComments_sublist (st : Scan) (s : List Char) : (stripComments st s).Sublist s := by
  fun_induction stripComments st s with
  | case1 => exact List.nil_sublist _
  | case2 s ih => exact (ih.cons _).cons _
  | case3 c s _ ih => exact ih.cons _
  | case4 s ih => exact (ih.cons _).cons _
  | case5 c s _ ih => exact ih.cons_cons _
  | case6 q c s ih => exact ih.cons_cons _

theorem trimEnd_sublist (s : List Char) : (trimEnd s).Sublist s := by
  rw [← List.reverse_sublist, trimEnd, List.reverse_reverse]
  exact List.dropWhile_sublist _

theorem trim_sublist (s : List Char) : (trim s).Sublist s :=
  (trimEnd_sublist _).trans (List.dropWhile_sublist _)

theorem length_collapseBlanks_le (q : Option Char) (spaced : Bool) (s : List Char) :
    (collapseBlanks q spaced s).length ≤ s.length := by
  fun_induction collapseBlanks q spaced s <;> grind

theorem IsTrimmed.stripComments (h : IsTrimmed s) : Chars.stripComments .plain s = s := by
  have hsub : s.Sublist (Chars.stripComments .plain s) := by
    conv => lhs; rw [← h]
    exact trim_sublist _
  exact (stripComments_sublist .plain s).eq_of_length_le hsub.length_le

theorem IsTrimmed.trim (h : IsTrimmed s) : Chars.trim s = s := by
  conv => lhs; rw [← h.stripComments]
  exact h

theorem IsTrimmed.trimStart (h : IsTrimmed s) : Chars.trimStart s = s := by
  have hsub : s.Sublist (Chars.trimStart s) := by
    conv => lhs; rw [← h.trim]
    exact trimEnd_sublist _
  exact (List.dropWhile_sublist _).eq_of_length_le hsub.length_le

theorem IsTrimmed.trimEnd (h : IsTrimmed s) : Chars.trimEnd s = s := by
  conv => lhs; rw [← h.trimStart]
  exact h.trim

theorem IsTrimmed.isBlank_head? (h : IsTrimmed (c :: s)) : isBlank c = false := by
  rw [Bool.eq_false_iff]
  intro hblank
  have hstart := congrArg List.length h.trimStart
  rw [Chars.trimStart, List.dropWhile_cons_of_pos hblank, List.length_cons] at hstart
  have hle := (List.dropWhile_sublist (l := s) isBlank).length_le
  omega

theorem IsTrimmed.leads (h : IsTrimmed s) (hat : s.head? ≠ some '@') : leads s := by
  cases s with
  | nil => rfl
  | cons c s =>
    have hc : c ≠ '@' := fun hc => hat (congrArg some hc)
    simp [Chars.leads, isNodeGap_of_isBlank h.isBlank_head?, hc]

/-- Cleaning only ever shortens a text. -/
theorem IsClean.isTrimmed (h : IsClean s) : IsTrimmed s := by
  have hsub : (Chars.trim (Chars.stripComments .plain s)).Sublist s :=
    (trim_sublist _).trans (stripComments_sublist _ _)
  apply hsub.eq_of_length_le
  have hle := length_collapseBlanks_le none false (Chars.trim (Chars.stripComments .plain s))
  rwa [show collapseBlanks _ _ _ = s from h] at hle

theorem IsClean.collapseBlanks (h : IsClean s) : Chars.collapseBlanks none false s = s := by
  conv => lhs; rw [← h.isTrimmed]
  exact h

/-- Comments are not found in a text behind one that has none either, unless one opens where they
meet. -/
theorem stripComments_append {st : Scan} (hst : st ≠ .comment) (hs : Chars.stripComments st s = s)
    (hlead : t.head? ≠ some '*') (ht : ¬ "/*".toList <:+: t) :
    Chars.stripComments st (s ++ t) = s ++ t := by
  induction s generalizing st with
  | nil => exact stripComments_eq_self st hst ht
  | cons c s ih =>
    cases st with
    | comment => exact absurd rfl hst
    | quoted q =>
      rw [Chars.stripComments] at hs
      rw [List.cons_append, Chars.stripComments, ih (leave_ne_comment q c) (List.cons.inj hs).2]
    | plain =>
      have hopens (u : List Char) (hc : c = '/') (hu : s = '*' :: u) : False := by
        subst hc hu
        have hlength := (stripComments_sublist .comment u).length_le
        rw [Chars.stripComments] at hs
        rw [hs, List.length_cons, List.length_cons] at hlength
        omega
      have hopens' (u : List Char) (hc : c = '/') (hu : s ++ t = '*' :: u) : False := by
        cases s with
        | nil => exact hlead (by rw [show t = '*' :: u from hu]; rfl)
        | cons d s => exact hopens s hc (by rw [(List.cons.inj hu).1])
      rw [Chars.stripComments.eq_5 _ _ hopens] at hs
      rw [List.cons_append, Chars.stripComments.eq_5 _ _ hopens',
        ih (enter_ne_comment c) (List.cons.inj hs).2]

theorem beforeImportant?_append (s : List Char) :
    beforeImportant? (s ++ "!important".toList) = some s := by
  have htrim : Chars.trimEnd (s ++ "!important".toList) = s ++ "!important".toList := by
    rw [show "!important".toList = "!importan".toList ++ ['t'] from rfl, ← List.append_assoc]
    exact trimEnd_concat (by decide)
  have htake : (s ++ "!important".toList).take ((s ++ "!important".toList).length - 9) =
      s ++ ['!'] := by
    rw [show "!important".toList = ['!'] ++ "important".toList from rfl, ← List.append_assoc]
    exact List.take_left' (by simp)
  have hmark : ("tnatropmi".toList.isPrefixOf?
      ((s ++ "!important".toList).reverse.map Char.toLower)).isSome := by
    rw [isPrefixOf?_isSome_iff, List.reverse_append, List.map_append]
    exact ⟨'!' :: s.reverse.map Char.toLower, rfl⟩
  obtain ⟨_, hmark⟩ := Option.isSome_iff_exists.1 hmark
  rw [beforeImportant?, htrim, hmark, htake, trimEnd_concat (by decide)]
  simp

end Clean

end Chars

section Value

variable {property value : String} {important : Bool}

theorem stripComments_valueText (h : Chars.IsTrimmed value.toList) :
    Chars.stripComments .plain (valueText value important) = valueText value important := by
  rw [valueText, String.toList_append]
  refine Chars.stripComments_append (by simp) h.stripComments ?_ ?_
  · cases important <;> simp
  · cases important <;> simp [List.infix_cons_iff]

theorem trim_valueText (h : Chars.IsTrimmed value.toList) :
    ∃ s, Chars.trim (valueText value true) = s ++ "!important".toList ∧
      Chars.trimEnd s = value.toList := by
  have htext : valueText value true = value.toList ++ ' ' :: "!important".toList := by
    simp [valueText]
  cases hvalue : value.toList with
  | nil =>
    refine ⟨[], ?_, rfl⟩
    rw [htext, hvalue]
    rfl
  | cons c s =>
    rw [hvalue] at h htext
    refine ⟨c :: s ++ [' '], ?_, ?_⟩
    · have hstart : Chars.trimStart (valueText value true) = valueText value true := by
        rw [Chars.trimStart, htext, List.cons_append,
          List.dropWhile_cons_of_neg (by simp [h.isBlank_head?])]
      have hend : valueText value true = (c :: s ++ [' '] ++ "!importan".toList) ++ ['t'] := by
        simp [htext]
      rw [Chars.trim, hstart, hend, Chars.trimEnd_concat (by decide)]
      simp
    · have hblank : Chars.trimEnd (c :: s ++ [' ']) = Chars.trimEnd (c :: s) := by
        simp [Chars.trimEnd, List.dropWhile_cons_of_pos (show isBlank ' ' from rfl)]
      rw [hblank, h.trimEnd]

/-- A value that is cleaned as far as its property asks for and has no mark of importance is read as
it is, with a mark behind it or without. -/
theorem tidyValue_valueText (h : Chars.IsTrimmed value.toList)
    (hclean : Chars.isCustomProperty property.toList ∨ Chars.IsClean value.toList)
    (hmark : Chars.beforeImportant? value.toList = none) :
    tidyValue (Chars.stripComments .plain) property (valueText value important) =
      (value, important) := by
  have hkeep : (if Chars.isCustomProperty property.toList then value.toList
      else Chars.collapseBlanks none false value.toList) = value.toList := by
    split
    · rfl
    · next hcustom => exact (hclean.resolve_left hcustom).collapseBlanks
  rw [tidyValue, stripComments_valueText h]
  cases important with
  | false =>
    have htext : valueText value false = value.toList := by simp [valueText]
    rw [htext, h.trim]
    simp only [hmark, Option.map_none, Option.getD_none, Option.isSome_none]
    rw [hkeep, String.ofList_toList]
  | true =>
    obtain ⟨s, htext, hs⟩ := trim_valueText h
    rw [htext]
    simp only [Chars.beforeImportant?_append, Option.map_some, Option.getD_some, Option.isSome_some]
    rw [hs, hkeep, String.ofList_toList]

end Value

/-- Whether each of the node's own texts is left as it is by reading and taken whole by the scan, and
none of them makes it another node. Blocks may stand in the value of a custom property. -/
def Node.IsNormal : Node → Prop
  | .rule sel _ =>
    Chars.IsClean sel.toList ∧ Passes .whole sel ∧ sel.toList.head? ≠ some '@' ∧
      ¬ (Chars.isCustomProperty sel.toList ∧ ':' ∈ sel.toList)
  | .atRule name params _ =>
    Chars.isAtName name.toList ∧ Chars.IsClean params.toList ∧ Passes .whole params
  | .statement name params =>
    Chars.isAtName name.toList ∧ Chars.IsClean params.toList ∧ Passes .whole params
  | .decl property value _ =>
    (property.toList ≠ [] ∧ ':' ∉ property.toList ∧ property.toList.head? ≠ some '@' ∧
      Chars.IsTrimmed property.toList ∧ Passes .whole property) ∧
    Chars.IsTrimmed value.toList ∧
    (Chars.isCustomProperty property.toList ∨ Chars.IsClean value.toList) ∧
    Chars.beforeImportant? value.toList = none ∧
    (Passes .whole value ∨
      Chars.isCustomProperty property.toList ∧ Chars.HoldsBlocks value.toList)
  | .comment text => Text.containsPhrase text "*/" = false

instance : DecidablePred Node.IsNormal
  | .rule _ _ => inferInstanceAs (Decidable (_ ∧ _))
  | .atRule _ _ _ => inferInstanceAs (Decidable (_ ∧ _))
  | .statement _ _ => inferInstanceAs (Decidable (_ ∧ _))
  | .decl _ _ _ => inferInstanceAs (Decidable (_ ∧ _))
  | .comment text => inferInstanceAs (Decidable (Text.containsPhrase text "*/" = false))

/-- Whether all nodes of a forest are normal. -/
def Normal (ns : List Node) : Prop := ∀ n ∈ allNodes ns, n.IsNormal

instance : DecidablePred Normal :=
  fun ns => inferInstanceAs (Decidable (∀ n ∈ allNodes ns, n.IsNormal))

/-- Whether the parts of a declaration fit together: no comment is found in it as a whole, and, if
its value holds blocks, no bracket or quote of the property reaches into it where braces count as
brackets. -/
def Node.Coheres : Node → Prop
  | .decl property value important =>
    Chars.stripComments .plain (declarationText property value important) =
      declarationText property value important ∧
    (Passes .whole value ∨
      Chars.scanValue none 0 (property.toList ++ [';']) = (property.toList, [';']))
  | _ => True

instance : DecidablePred Node.Coheres
  | .decl _ _ _ => inferInstanceAs (Decidable (_ ∧ _))
  | .rule _ _ => .isTrue trivial
  | .atRule _ _ _ => .isTrue trivial
  | .statement _ _ => .isTrue trivial
  | .comment _ => .isTrue trivial

section Declaration

variable {property value : String} {important : Bool}

theorem readDeclaration_of_isNormal (h : (Node.decl property value important).IsNormal)
    (hfit : (Node.decl property value important).Coheres) :
    readDeclaration (declarationText property value important) =
      .ok (Node.decl property value important).reread := by
  obtain ⟨⟨hne, hcolon, -, hproperty, -⟩, hvalue, -⟩ := h
  apply readDeclaration_of_stripComments hne hcolon hproperty.trim
  rw [hfit.1, declarationText_eq, stripComments_valueText hvalue]

private theorem head?_declarationText (hne : property.toList ≠ []) :
    (declarationText property value important).head? = property.toList.head? := by
  rw [declarationText_eq]
  cases hproperty : property.toList with
  | nil => exact absurd hproperty hne
  | cons => rfl

/-- Where no block stands in the value, the scan finds the end of the declaration. -/
theorem isPrintable_of_isNormal (h : (Node.decl property value important).IsNormal)
    (hfit : (Node.decl property value important).Coheres) (hvalue : Passes .whole value) :
    (Node.decl property value important).IsPrintable := by
  obtain ⟨hne, -, hat, hproperty, hpass⟩ := h.1
  have hmark : Chars.Passes .whole (if important then " !important" else "").toList := by
    cases important <;> decide
  have htail : Chars.Passes .whole (valueText value important) := by
    rw [valueText, String.toList_append]
    refine Chars.Passes.append hvalue hmark ?_ ?_ <;> cases important <;> simp
  refine ⟨?_, ?_, readDeclaration_of_isNormal h hfit⟩
  · have htext : declarationText property value important =
        property.toList ++ [':', ' '] ++ valueText value important := by
      simp [declarationText_eq]
    rw [htext]
    exact Chars.Passes.join hpass htail (by decide)
  · have hlead := hproperty.leads hat
    rwa [Chars.leads, head?_declarationText hne]

end Declaration

section Forest

variable {n : Node} {ns : List Node}

private theorem normal_cons : Normal (n :: ns) ↔ n.IsNormal ∧ Normal n.children ∧ Normal ns :=
  forall_allNodes_cons

/-- The parser finds normal nodes where they are printed. -/
theorem Node.IsNormal.isReadable (h : n.IsNormal) (hfit : n.Coheres) : n.IsReadable := by
  cases n with
  | rule sel ns =>
    obtain ⟨hclean, hpass, hat, hcustom⟩ := h
    refine ⟨hpass, hclean.isTrimmed.leads hat, fun hstarts => hcustom ?_⟩
    rw [Chars.startsCustomProperty, hclean.isTrimmed.trimStart, Bool.and_eq_true,
      List.contains_iff_mem] at hstarts
    exact hstarts
  | atRule => exact ⟨h.1, h.2.2⟩
  | statement => exact ⟨h.1, h.2.2⟩
  | comment => exact h
  | decl property value important =>
    by_cases hvalue : Passes .whole value
    · exact (isPrintable_of_isNormal h hfit hvalue).isReadable
    · obtain ⟨hcustom, hblocks⟩ := h.2.2.2.2.resolve_left hvalue
      obtain ⟨u, v, htext, hu⟩ := hblocks.passes.resolve_left hvalue
      obtain ⟨hne, -, hat, htrimmed, hpass⟩ := h.1
      exact fun _ _ _ => resume_blockDecl hne hpass (htrimmed.leads hat)
        (Chars.startsCustomProperty_append hcustom) (readDeclaration_of_isNormal h hfit) hblocks
        (hfit.2.resolve_left hvalue) htext hu

theorem rereadEach_prune_of_isNormal (h : n.IsNormal)
    (hinner : rereadEach (pruneEach n.children) = pruneEach n.children) :
    rereadEach n.prune = n.prune := by
  have htidy {s : String} (hs : Chars.IsClean s.toList) :
      tidyText (Chars.stripComments .plain) s = s := by
    rw [tidyText, show Chars.collapseBlanks _ _ _ = s.toList from hs, String.ofList_toList]
  cases n with
  | rule sel ns =>
    rw [Node.children] at hinner
    rw [Node.prune]
    split
    · rw [rereadEach, tidyEach, Node.tidy, htidy h.1, ← rereadEach, hinner]
      rfl
    · rfl
  | atRule name params ns =>
    rw [Node.children] at hinner
    rw [Node.prune]
    split
    · rw [rereadEach, tidyEach, Node.tidy, htidy h.2.1, ← rereadEach, hinner]
      rfl
    · rfl
  | statement name params =>
    change [Node.tidy _ _] = [_]
    rw [Node.tidy, htidy h.2.1]
  | decl property value important =>
    obtain ⟨-, hvalue, hclean, hmark, -⟩ := h
    change [Node.tidy _ _] = [_]
    rw [Node.tidy, tidyValue_valueText hvalue hclean hmark]
  | comment => rfl

private theorem rereadEach_pruneEach_of_normal (h : Normal ns) :
    rereadEach (pruneEach ns) = pruneEach ns := by
  induction ns using forest_induction with
  | nil => rfl
  | cons n ns ihn ih =>
    obtain ⟨hn, hinner, hns⟩ := normal_cons.1 h
    rw [pruneEach, rereadEach_append, rereadEach_prune_of_isNormal hn (ihn hinner), ih hns]

/-- What is left out are the nodes for which nothing is printed, at every depth. -/
theorem prune_eq (depth : Nat) (n : Node) :
    n.prune = if n.print depth = "" then [] else [n.withChildren (pruneEach n.children)] := by
  cases n with
  | rule sel ns =>
    rw [Node.prune, Node.print]
    split
    · rw [if_neg (by simp)]
      rfl
    · rfl
  | atRule name params ns =>
    rw [Node.prune, Node.print]
    split
    · rw [if_neg (by simp)]
      rfl
    · rfl
  | statement name params =>
    rw [Node.print, if_neg (by simp)]
    rfl
  | decl property value important =>
    rw [Node.print, if_neg (by simp)]
    rfl
  | comment text =>
    rw [Node.print, if_neg (by simp)]
    rfl

/-- Printing and reading a normal forest whose declarations fit together gives back the forest
without the nodes for which nothing is printed. -/
theorem parse_toCss_of_normal (h : Normal ns) (hfit : ∀ n ∈ allNodes ns, n.Coheres) :
    parse (toCss ns) = .ok (pruneEach ns) ∧
      ∀ depth (n : Node), n.prune =
        if n.print depth = "" then [] else [n.withChildren (pruneEach n.children)] := by
  have hread : Readable ns := fun n hn => (h n hn).isReadable (hfit n hn)
  refine ⟨?_, prune_eq⟩
  rw [parse_toCss_of_readable hread, rereadEach_pruneEach_of_normal h]

theorem parse_toCss_of_normal_nested :
    parse (toCss [.statement "import" "\"a.css\"", .atRule "layer" "base" [.rule ".a" []],
      .rule ".b" [.decl "--x" "\x7b a: (b; c) \x7d" true, .rule "&:hover" [], .comment " d ",
        .atRule "media" "print" [.decl "color" "red" true]]]) =
      .ok [.statement "import" "\"a.css\"", .atRule "layer" "base" [],
        .rule ".b" [.decl "--x" "\x7b a: (b; c) \x7d" true, .comment " d ",
          .atRule "media" "print" [.decl "color" "red" true]]] :=
  (parse_toCss_of_normal (by decide +kernel) (by decide +kernel)).1

/-- A brace in the brackets of a property goes with the blocks of its value, and an escaped quote in
a property hides the quote around a value from the search for comments. -/
theorem parse_toCss_ne_of_normal :
    (Normal [.decl "--a(\x7b)" "\x7bb\x7d" false] ∧
      parse (toCss [.decl "--a(\x7b)" "\x7bb\x7d" false]) ≠
        .ok (pruneEach [.decl "--a(\x7b)" "\x7bb\x7d" false])) ∧
    Normal [.decl "a\\\"b" "\"/*x*/\"" false] ∧
      parse (toCss [.decl "a\\\"b" "\"/*x*/\"" false]) ≠
        .ok (pruneEach [.decl "a\\\"b" "\"/*x*/\"" false]) := by
  have hbrace : parse (toCss [.decl "--a(\x7b)" "\x7bb\x7d" false]) =
      .ok [.decl "--a(\x7b)" "\x7bb\x7d;" false] := by
    rw [parse_eq_resume]
    exact (resume_leaf rfl).trans resume_end
  have hquote : parse (toCss [.decl "a\\\"b" "\"/*x*/\"" false]) =
      .ok [.decl "a\\\"b" "\"\"" false] := by
    rw [parse_eq_resume]
    exact (resume_leaf rfl).trans ((resume_gap rfl).trans resume_end)
  refine ⟨⟨by decide +kernel, ?_⟩, by decide +kernel, ?_⟩
  · rw [hbrace]
    simp [pruneEach, Node.prune]
  · rw [hquote]
    simp [pruneEach, Node.prune]

end Forest

end UtilityCss
