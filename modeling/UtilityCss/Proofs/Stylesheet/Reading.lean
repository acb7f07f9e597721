import UtilityCss.Proofs.Stylesheet.Clean
import UtilityCss.Proofs.Stylesheet.Passage
import UtilityCss.Proofs.Text.Find
import UtilityCss.Stylesheet.Parser

/-!
# Reading what was printed

A forest whose texts a scan passes over is read back node by node after it has been printed: the
parser finds each text where the printer put it and reads it as it would by itself, and finds nothing
else. Rules and blocks in which nothing is printed are not there.
-/

namespace UtilityCss

/-- A declaration as it is printed, without the semicolon. -/
def declarationText (property value : String) (important : Bool) : List Char :=
  (property ++ ": " ++ value ++ if important then " !important" else "").toList

theorem declarationText_eq (property value : String) (important : Bool) :
    declarationText property value important =
      property.toList ++ ':' :: ' ' :: valueText value important := by
  simp [declarationText, valueText]

namespace Chars

/-- Whether a text can be at the start of a rule or declaration, which no gap and no at-sign is. -/
def leads (s : List Char) : Bool := s.head?.all fun c => !isNodeGap c && c != '@'

/-- A name as at-rules have. -/
def isAtName (s : List Char) : Bool := !s.isEmpty && s.all isNameChar

theorem isAtName_iff {s : List Char} : isAtName s ↔ s ≠ [] ∧ ∀ c ∈ s, isNameChar c := by
  rw [isAtName, Bool.and_eq_true, Bool.not_eq_true', List.isEmpty_eq_false_iff, List.all_eq_true]

theorem isTame_of_isNameChar {c : Char} (h : isNameChar c) : isTame c :=
  isTame_of (p := isNameChar) (by decide +kernel) h

end Chars

/-- Comments apart, a declaration's text is cut at its colon and what is behind it is the value. -/
theorem readDeclaration_of_stripComments {property value : String} {important : Bool}
    (hne : property.toList ≠ []) (hcolon : ':' ∉ property.toList)
    (htrim : Chars.trim property.toList = property.toList)
    (hstrip : Chars.stripComments .plain (declarationText property value important) =
      property.toList ++ ':' :: ' ' :: Chars.stripComments .plain (valueText value important)) :
    readDeclaration (declarationText property value important) =
      .ok (Node.decl property value important).reread := by
  have hfront : ∀ c ∈ property.toList, (c == ':') = false := by
    intro c hc
    rw [beq_eq_false_iff_ne]
    rintro rfl
    exact hcolon hc
  have hempty : property.toList.isEmpty = false := by simpa using hne
  rw [readDeclaration, hstrip, Chars.cutAt_append hfront (by decide)]
  dsimp only
  rw [htrim, hempty, String.ofList_toList]
  rfl

/-- Whether the parser finds the node's own texts where the printer puts them. -/
def Node.IsPrintable : Node → Prop
  | .rule sel _ =>
    Passes .whole sel ∧ Chars.leads sel.toList ∧ ¬ Chars.startsCustomProperty sel.toList
  | .atRule name params _ => Chars.isAtName name.toList ∧ Passes .whole params
  | .statement name params => Chars.isAtName name.toList ∧ Passes .whole params
  | .decl property value important =>
    Chars.Passes .whole (declarationText property value important) ∧
      Chars.leads (declarationText property value important) ∧
      readDeclaration (declarationText property value important) =
        .ok (Node.decl property value important).reread
  | .comment text => Text.containsPhrase text "*/" = false

/-- What the parser makes of a text inside open blocks, behind the nodes `done`. -/
def resume (opened : List (BlockHead × List Node)) (done : List Node) (s : List Char) :
    Except SyntaxError (List Node) :=
  assemble (tokens s).2 opened done (tokens s).1

theorem parse_eq_resume (text : String) : parse text = resume [] [] text.toList := rfl

section Tokens

variable {opened : List (BlockHead × List Node)} {done : List Node} {s r : List Char}

theorem tokens_eq (s : List Char) : tokens s = match nextToken (Chars.dropGap s) with
    | .error e => ([], some e)
    | .ok none => ([], none)
    | .ok (some (t, r)) => (t :: (tokens r).1, (tokens r).2) := by
  rw [tokens]
  split <;> simp_all

theorem tokens_of_nextToken {t : Token} (h : nextToken (Chars.dropGap s) = .ok (some (t, r))) :
    tokens s = (t :: (tokens r).1, (tokens r).2) := by
  rw [tokens_eq, h]

theorem resume_leaf {n : Node} (h : nextToken (Chars.dropGap s) = .ok (some (.leaf n, r))) :
    resume opened done s = resume opened (n :: done) r := by
  rw [resume, tokens_of_nextToken h, assemble, resume]

theorem resume_openBlock {head : BlockHead}
    (h : nextToken (Chars.dropGap s) = .ok (some (.openBlock head, r))) :
    resume opened done s = resume ((head, done) :: opened) [] r := by
  rw [resume, tokens_of_nextToken h, assemble, resume]

theorem resume_closeBlock {head : BlockHead} {outer : List Node} {near : String}
    (h : nextToken (Chars.dropGap s) = .ok (some (.closeBlock near, r))) :
    resume ((head, outer) :: opened) done s =
      resume opened (head.node done.reverse :: outer) r := by
  rw [resume, tokens_of_nextToken h, assemble, resume]

theorem resume_end : resume [] done [] = .ok done.reverse := by
  rw [resume, tokens_eq]
  rfl

/-- Blanks between nodes are skipped. -/
theorem resume_gap {c : Char} (hc : isNodeGap c) :
    resume opened done (c :: s) = resume opened done s := by
  have hdrop : Chars.dropGap (c :: s) = Chars.dropGap s := by
    unfold Chars.dropGap
    rw [List.dropWhile_cons_of_pos]
    simp [hc]
  rw [resume, resume, tokens_eq, hdrop, ← tokens_eq]

theorem resume_indent (depth : Nat) :
    resume opened done ((indent depth).toList ++ s) = resume opened done s := by
  rw [indent, String.toList_ofList]
  induction 2 * depth with
  | zero => rfl
  | succ n ih => rw [List.replicate_succ, List.cons_append, resume_gap (by decide), ih]

end Tokens

namespace Chars

variable {s t rest : List Char} {c e : Char}

/-- The scan ends at the first character that ends a prelude behind a text that it passes over. -/
theorem Passes.scanPrelude (h : Passes .whole s) (hc : endsPrelude c) :
    scanPrelude .plain 0 (s ++ c :: rest) = .ok (s, c :: rest) := by
  obtain ⟨slash, h⟩ := h
  have hstar : c ≠ '*' := by
    rintro rfl
    exact absurd hc (by decide)
  have hstop : Chars.scanPrelude .plain 0 (c :: rest) = .ok ([], c :: rest) := by
    rw [Chars.scanPrelude.eq_9]
    · simp [hc]
    · rintro _ rfl
      exact absurd hc (by decide)
    · rintro _ _ rfl
      exact absurd hc (by decide)
  have hrun := Place.scanPrelude_run (c :: rest) h rfl fun _ => by simpa using hstar
  change Chars.scanPrelude .plain 0 (s ++ c :: rest) =
    (Chars.scanPrelude .plain 0 (c :: rest)).map _ at hrun
  rw [hrun, hstop]
  simp [Except.map, Chars.behind, Place.ahead]

private theorem trim_append_blanks (ht : ∀ c ∈ t, isBlank c) : trim (s ++ t) = trim s := by
  unfold trim trimStart trimEnd
  rw [List.dropWhile_append]
  split
  · next h =>
    have hnil : t.dropWhile isBlank = [] := by
      rw [← List.append_nil t, List.dropWhile_append_of_pos ht, List.dropWhile_nil]
    rw [hnil, List.isEmpty_iff.1 h]
  · rw [List.reverse_append, List.dropWhile_append_of_pos]
    exact fun c hc => ht c (List.mem_reverse.1 hc)

theorem not_followed {d : Char} (hd : d ≠ ' ') (h : ∀ t, c = e → s = d :: t → False) :
    ∀ t, c = e → s ++ [' '] = d :: t → False := by
  intro t hc hs
  cases s with
  | nil => exact hd (List.cons.inj hs).1.symm
  | cons c' s => exact h s hc (by rw [(List.cons.inj hs).1])

private theorem stripComments_append_space (st : Scan) (s : List Char) :
    ∃ t, (∀ c ∈ t, isBlank c) ∧ stripComments st (s ++ [' ']) = stripComments st s ++ t := by
  fun_induction stripComments st s with
  | case1 st =>
    cases st with
    | comment => exact ⟨[], nofun, rfl⟩
    | plain => exact ⟨[' '], by decide, rfl⟩
    | quoted => exact ⟨[' '], by decide, rfl⟩
  | case2 s ih => exact ih
  | case3 c s h ih =>
    obtain ⟨t, ht, heq⟩ := ih
    refine ⟨t, ht, ?_⟩
    rw [List.cons_append, stripComments, heq]
    exact not_followed (by decide) h
  | case4 s ih => exact ih
  | case5 c s h ih =>
    obtain ⟨t, ht, heq⟩ := ih
    refine ⟨t, ht, ?_⟩
    rw [List.cons_append, stripComments, heq, List.cons_append]
    exact not_followed (by decide) h
  | case6 q c s ih =>
    obtain ⟨t, ht, heq⟩ := ih
    refine ⟨t, ht, ?_⟩
    rw [List.cons_append, stripComments, heq, List.cons_append]

theorem cleanText_append_space (s : List Char) : cleanText (s ++ [' ']) = cleanText s := by
  obtain ⟨t, ht, heq⟩ := stripComments_append_space .plain s
  rw [cleanText, heq, trim_append_blanks ht, cleanText]

private theorem cleanText_cons_space (s : List Char) : cleanText (' ' :: s) = cleanText s := by
  rw [cleanText, stripComments, cleanText]
  · rfl
  · exact fun _ h => absurd h (by decide)

private theorem startsCustomProperty_append_space (s : List Char) :
    startsCustomProperty (s ++ [' ']) = startsCustomProperty s := by
  have hdash (s : List Char) : isCustomProperty (s ++ [' ']) = isCustomProperty s := by
    match s with
    | [] => rfl
    | [c] => simp [isCustomProperty, List.isPrefixOf]
    | c :: d :: s => rfl
  have htrim : isCustomProperty (trimStart (s ++ [' '])) = isCustomProperty (trimStart s) := by
    unfold trimStart
    rw [List.dropWhile_append]
    split
    · next h =>
      rw [List.isEmpty_iff.1 h]
      rfl
    · exact hdash _
  unfold startsCustomProperty
  rw [htrim]
  simp

/-- The closing of a comment is found behind a text that has none in it. -/
theorem cutPhrase_comment (h : cutPhrase "*/".toList s = none) :
    cutPhrase "*/".toList (s ++ '*' :: '/' :: rest) = some (s, rest) := by
  induction s with
  | nil => rfl
  | cons c s ih =>
    rw [cutPhrase] at h
    split at h
    · cases h
    · next hc =>
      rw [Option.map_eq_none_iff] at h
      have hc' : "*/".toList.isPrefixOf? (c :: (s ++ '*' :: '/' :: rest)) = none := by
        rw [← Option.not_isSome_iff_eq_none, isPrefixOf?_isSome_iff] at hc ⊢
        intro hstar
        obtain ⟨rfl, hslash⟩ := List.cons_prefix_cons.1 hstar
        cases s with
        | nil => exact absurd (List.cons_prefix_cons.1 hslash).1 (by decide)
        | cons d s =>
          obtain ⟨rfl, -⟩ := List.cons_prefix_cons.1 hslash
          exact hc ⟨s, rfl⟩
      rw [List.cons_append, cutPhrase, hc', ih h]
      rfl

end Chars

section Steps

variable {opened : List (BlockHead × List Node)} {done : List Node} {s rest : List Char}

/-- A text that can be at the start of a rule or declaration is read as one. -/
theorem nextToken_of_leads (hpass : Chars.Passes .whole s) (hlead : Chars.leads s) (hs : s ≠ [])
    (hrest : rest.head? ≠ some '*') :
    nextToken (Chars.dropGap (s ++ rest)) = (ruleStep (s ++ rest)).map some := by
  obtain ⟨slash, hrun⟩ := hpass
  cases s with
  | nil => exact absurd rfl hs
  | cons c s =>
    obtain ⟨p, hp, hrun⟩ := Option.bind_eq_some_iff.1 hrun
    simp only [Chars.leads, List.head?_cons, Option.all_some, Bool.and_eq_true, bne_iff_ne,
      Bool.not_eq_true'] at hlead
    have hsemi : c ≠ ';' := by rintro rfl; cases hp
    have hclose : c ≠ '\x7d' := by rintro rfl; cases hp
    have hcomment : c = '/' → (s ++ rest).head? ≠ some '*' := by
      rintro rfl
      obtain rfl : p = .plain 0 true := (Option.some.inj hp).symm
      cases s with
      | nil => exact hrest
      | cons d s =>
        rw [List.cons_append, List.head?_cons]
        exact Place.head?_ne_of_run hrun
    have hdrop : Chars.dropGap (c :: (s ++ rest)) = c :: (s ++ rest) := by
      rw [Chars.dropGap]
      rw [List.dropWhile_cons_of_neg]
      simp [hlead.1, hsemi]
    rw [List.cons_append, hdrop, nextToken]
    · exact hclose
    · intro u hc hu
      apply hcomment hc
      rw [hu]
      rfl
    · exact hlead.2

private theorem resume_decl {property value : String} {important : Bool}
    (h : (Node.decl property value important).IsPrintable) :
    resume opened done (declarationText property value important ++ ';' :: rest) =
      resume opened ((Node.decl property value important).reread :: done) rest := by
  obtain ⟨hpass, hlead, hread⟩ := h
  apply resume_leaf
  have hne : declarationText property value important ≠ [] := by
    simp [declarationText]
  rw [nextToken_of_leads hpass hlead hne (by simp), ruleStep, hpass.scanPrelude (by decide)]
  change (declarationStep (declarationText property value important, ';' :: rest)).map some = _
  rw [declarationStep, hread]
  rfl

theorem resume_rule {sel : String} {ns : List Node} (h : (Node.rule sel ns).IsPrintable) :
    resume opened done (sel.toList ++ ' ' :: '\x7b' :: rest) =
      resume ((.rule (cleanText sel.toList), done) :: opened) [] rest := by
  obtain ⟨hpass, hlead, hcustom⟩ := h
  apply resume_openBlock
  by_cases hnil : sel.toList = []
  · rw [hnil]
    rfl
  · have hpass' : Chars.Passes .whole (sel.toList ++ [' ']) :=
      hpass.append ⟨false, rfl⟩ (by decide) (by decide)
    rw [nextToken_of_leads hpass hlead hnil (by simp), List.append_cons, ruleStep,
      hpass'.scanPrelude (by decide)]
    change (preludeStep _ (sel.toList ++ [' ']) ('\x7b' :: rest)).map some = _
    rw [preludeStep, Chars.startsCustomProperty_append_space, if_neg hcustom, cleanText,
      Chars.cleanText_append_space]
    rfl

theorem atRuleStep_eq {all name rest : List Char} (hname : Chars.isAtName name)
    (hrest : rest.head?.all (!isNameChar ·)) :
    atRuleStep all (name ++ rest) =
      (Chars.scanPrelude .plain 0 rest).map (atRuleToken name) := by
  rw [Chars.isAtName] at hname
  rw [Bool.and_eq_true, Bool.not_eq_true', List.all_eq_true] at hname
  obtain ⟨hne, hall⟩ := hname
  have htake : (name ++ rest).takeWhile isNameChar = name := by
    rw [List.takeWhile_append_of_pos hall]
    cases rest with
    | nil => simp
    | cons c rest =>
      rw [List.takeWhile_cons_of_neg, List.append_nil]
      simpa using hrest
  have hdrop : (name ++ rest).dropWhile isNameChar = rest := by
    rw [List.dropWhile_append_of_pos hall]
    cases rest with
    | nil => rfl
    | cons c rest =>
      rw [List.dropWhile_cons_of_neg]
      simpa using hrest
  rw [atRuleStep, htake, hdrop, if_neg (by simp [hne])]

def paramsText (params : String) : List Char := if params.isEmpty then [] else ' ' :: params.toList

theorem atHeadText_eq (name params : String) :
    (atHeadText name params).toList = name.toList ++ paramsText params := by
  rw [atHeadText, paramsText]
  split
  · simp
  · simp

theorem passes_paramsText {params : String} (h : Passes .whole params) :
    Chars.Passes .whole (paramsText params) := by
  rw [paramsText]
  split
  · exact Chars.passes_nil
  · obtain ⟨slash, h⟩ := h
    exact ⟨slash, h⟩

theorem cleanText_paramsText (params : String) :
    Chars.cleanText (paramsText params) = Chars.cleanText params.toList := by
  rw [paramsText]
  split
  · next h =>
    rw [String.isEmpty_iff] at h
    rw [h]
    rfl
  · exact Chars.cleanText_cons_space _

theorem head?_paramsText (params : String) {c : Char} (hc : isNameChar c = false) :
    (paramsText params ++ c :: rest).head?.all (!isNameChar ·) := by
  rw [paramsText]
  split
  · simpa using hc
  · rfl

private theorem resume_atRule {name params : String} {ns : List Node}
    (h : (Node.atRule name params ns).IsPrintable) :
    resume opened done ('@' :: ((atHeadText name params).toList ++ ' ' :: '\x7b' :: rest)) =
      resume ((.atRule name (cleanText params.toList), done) :: opened) [] rest := by
  obtain ⟨hname, hpass⟩ := h
  apply resume_openBlock
  have hpass' : Chars.Passes .whole (paramsText params ++ [' ']) :=
    (passes_paramsText hpass).append ⟨false, rfl⟩ (by decide) (by decide)
  change (atRuleStep ('@' :: _) _).map some = _
  rw [atHeadText_eq, List.append_assoc, atRuleStep_eq hname (head?_paramsText _ rfl),
    List.append_cons, hpass'.scanPrelude (by decide)]
  change Except.ok (some (atRuleToken name.toList (paramsText params ++ [' '], '\x7b' :: rest))) = _
  rw [atRuleToken, cleanText, Chars.cleanText_append_space, cleanText_paramsText,
    String.ofList_toList]
  rfl

private theorem resume_statement {name params : String}
    (h : (Node.statement name params).IsPrintable) :
    resume opened done ('@' :: ((atHeadText name params).toList ++ ';' :: rest)) =
      resume opened ((Node.statement name params).reread :: done) rest := by
  obtain ⟨hname, hpass⟩ := h
  apply resume_leaf
  have hpass' := passes_paramsText hpass
  change (atRuleStep ('@' :: _) _).map some = _
  rw [atHeadText_eq, List.append_assoc, atRuleStep_eq hname (head?_paramsText _ rfl),
    hpass'.scanPrelude (by decide)]
  change Except.ok (some (atRuleToken name.toList (paramsText params, ';' :: rest))) = _
  rw [atRuleToken, cleanText, cleanText_paramsText, String.ofList_toList]
  rfl

private theorem resume_comment {text : String} (h : (Node.comment text).IsPrintable) :
    resume opened done ('/' :: '*' :: (text.toList ++ '*' :: '/' :: rest)) =
      resume opened ((Node.comment text).reread :: done) rest := by
  apply resume_leaf
  have hcut : Chars.cutPhrase "*/".toList text.toList = none := by
    simpa [Node.IsPrintable, Text.containsPhrase] using h
  change nextToken ('/' :: '*' :: (text.toList ++ '*' :: '/' :: rest)) = _
  rw [nextToken, Chars.cutPhrase_comment hcut, Node.reread, Node.tidy]
  simp

private theorem resume_close {head : BlockHead} {outer : List Node} :
    resume ((head, outer) :: opened) done ('\x7d' :: rest) =
      resume opened (head.node done.reverse :: outer) rest :=
  resume_closeBlock rfl

end Steps

/-- Whether the parser reads the node's own texts back where the printer puts them. A declaration may
be one whose value holds blocks, which ends where another scan does. -/
def Node.IsReadable : Node → Prop
  | .decl property value important => ∀ opened done rest,
    resume opened done (declarationText property value important ++ ';' :: rest) =
      resume opened ((Node.decl property value important).reread :: done) rest
  | n => n.IsPrintable

theorem Node.IsPrintable.isReadable {n : Node} (h : n.IsPrintable) : n.IsReadable := by
  cases n with
  | decl => exact fun _ _ _ => resume_decl h
  | _ => exact h

def Readable (ns : List Node) : Prop := ∀ n ∈ allNodes ns, n.IsReadable

private theorem readable_cons {n : Node} {ns : List Node} :
    Readable (n :: ns) ↔ n.IsReadable ∧ Readable n.children ∧ Readable ns :=
  forall_allNodes_cons

/-- What is printed for a forest is read as that forest, up to what is left out. -/
def ReadsBack (ns : List Node) : Prop :=
  ∀ depth opened done rest,
    resume opened done ((printEach depth ns).toList ++ rest) =
      resume opened ((rereadEach (pruneEach ns)).reverse ++ done) rest

theorem resume_block {ns : List Node} (hns : ReadsBack ns) (head : BlockHead) (depth : Nat)
    (opened : List (BlockHead × List Node)) (done : List Node) (rest : List Char) :
    resume ((head, done) :: opened) [] ('\n' :: ((printEach (depth + 1) ns).toList ++
        ((indent depth).toList ++ '\x7d' :: '\n' :: rest))) =
      resume opened (head.node (rereadEach (pruneEach ns)) :: done) rest := by
  rw [resume_gap (by decide), hns, resume_indent, resume_close, resume_gap (by decide),
    List.append_nil, List.reverse_reverse]

private theorem resume_print {n : Node} (hn : n.IsReadable) (hns : ReadsBack n.children)
    (depth : Nat)
    (opened : List (BlockHead × List Node)) (done : List Node) (rest : List Char) :
    resume opened done ((n.print depth).toList ++ rest) =
      resume opened ((rereadEach n.prune).reverse ++ done) rest := by
  cases n with
  | rule sel ns =>
    have hn : (Node.rule sel ns).IsPrintable := hn
    rw [Node.children] at hns
    rw [Node.print, Node.prune]
    split
    · have hcut : (indent depth ++ sel ++ " \x7b\n" ++ printEach (depth + 1) ns ++ indent depth ++
          "\x7d\n").toList ++ rest = (indent depth).toList ++ (sel.toList ++ ' ' :: '\x7b' ::
          '\n' :: ((printEach (depth + 1) ns).toList ++
            ((indent depth).toList ++ '\x7d' :: '\n' :: rest))) := by
        simp
      rw [hcut, resume_indent, resume_rule hn, resume_block hns]
      rfl
    · rfl
  | atRule name params ns =>
    have hn : (Node.atRule name params ns).IsPrintable := hn
    rw [Node.children] at hns
    rw [Node.print, Node.prune]
    split
    · have hcut : (indent depth ++ "@" ++ atHeadText name params ++ " \x7b\n" ++
          printEach (depth + 1) ns ++ indent depth ++ "\x7d\n").toList ++ rest =
          (indent depth).toList ++ ('@' :: ((atHeadText name params).toList ++ ' ' :: '\x7b' ::
          '\n' :: ((printEach (depth + 1) ns).toList ++
            ((indent depth).toList ++ '\x7d' :: '\n' :: rest)))) := by
        simp
      rw [hcut, resume_indent, resume_atRule hn, resume_block hns]
      rfl
    · rfl
  | statement name params =>
    have hcut : ((Node.statement name params).print depth).toList ++ rest =
        (indent depth).toList ++
          ('@' :: ((atHeadText name params).toList ++ ';' :: '\n' :: rest)) := by
      simp [Node.print]
    rw [hcut, resume_indent, resume_statement hn, resume_gap (by decide)]
    rfl
  | decl property value important =>
    have hcut : ((Node.decl property value important).print depth).toList ++ rest =
        (indent depth).toList ++
          (declarationText property value important ++ ';' :: '\n' :: rest) := by
      simp [Node.print, declarationText]
    rw [hcut, resume_indent, hn, resume_gap (by decide)]
    rfl
  | comment text =>
    have hcut : ((Node.comment text).print depth).toList ++ rest =
        (indent depth).toList ++
          ('/' :: '*' :: (text.toList ++ '*' :: '/' :: '\n' :: rest)) := by
      simp [Node.print]
    rw [hcut, resume_indent, resume_comment hn, resume_gap (by decide)]
    rfl

theorem readsBack {ns : List Node} (h : Readable ns) : ReadsBack ns := by
  induction ns using forest_induction with
  | nil => exact fun _ _ _ _ => rfl
  | cons n ns ihn ih =>
    obtain ⟨hn, hinner, hns⟩ := readable_cons.1 h
    intro depth opened done rest
    rw [printEach, String.toList_append, List.append_assoc, resume_print hn (ihn hinner), ih hns,
      pruneEach, rereadEach_append, List.reverse_append, List.append_assoc]

/-- Printing and reading gives each text as the parser reads it by itself. -/
theorem parse_toCss_of_readable {ns : List Node} (h : Readable ns) :
    parse (toCss ns) = .ok (rereadEach (pruneEach ns)) := by
  have hread := readsBack h 0 [] [] []
  rw [List.append_nil, List.append_nil, resume_end, List.reverse_reverse] at hread
  exact hread

end UtilityCss
