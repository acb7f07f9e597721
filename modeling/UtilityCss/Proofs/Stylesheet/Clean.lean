import UtilityCss.Proofs.Stylesheet.Node
import UtilityCss.Proofs.Text.Find
import UtilityCss.Stylesheet.Declaration
import UtilityCss.Stylesheet.Printer

/-!
# What is left of printed nodes

Rules and blocks in which nothing is printed are left out. The texts of the others are cleaned where
they are read: comments in them are taken away, they are trimmed and their white space is collapsed,
and a mark of importance at the end of a value is no part of the value.
-/

namespace UtilityCss

mutual

/-- What is left of a node without the rules and blocks in which nothing is printed. -/
def Node.prune : Node → List Node
  | .rule sel ns => if anyContent ns then [.rule sel (pruneEach ns)] else []
  | .atRule name params ns =>
    if anyContent ns || name == "layer" then [.atRule name params (pruneEach ns)] else []
  | n => [n]

def pruneEach : List Node → List Node
  | [] => []
  | n :: ns => n.prune ++ pruneEach ns

end

/-- A selector or the parameters of an at-rule, trimmed and with single spaces. `strip` takes
comments away. -/
def tidyText (strip : List Char → List Char) (s : String) : String :=
  String.ofList (Chars.collapseBlanks none false (Chars.trim (strip s.toList)))

/-- What is printed behind the colon of a declaration, without the semicolon. -/
def valueText (value : String) (important : Bool) : List Char :=
  (value ++ if important then " !important" else "").toList

/-- The value of a property without its mark of importance, and whether it has one. Only in a custom
property white space inside the value is kept. -/
def tidyValue (strip : List Char → List Char) (property : String) (text : List Char) :
    String × Bool :=
  let text := Chars.trim (strip text)
  let important := Chars.beforeImportant? text
  let value := (important.map Chars.trimEnd).getD text
  (String.ofList (if Chars.isCustomProperty property.toList then value
    else Chars.collapseBlanks none false value), important.isSome)

mutual

def Node.tidy (strip : List Char → List Char) : Node → Node
  | .rule sel ns => .rule (tidyText strip sel) (tidyEach strip ns)
  | .atRule name params ns => .atRule name (tidyText strip params) (tidyEach strip ns)
  | .statement name params => .statement name (tidyText strip params)
  | .decl property value important =>
    let (value, important) := tidyValue strip property (valueText value important)
    .decl property value important
  | .comment text => .comment text

def tidyEach (strip : List Char → List Char) : List Node → List Node
  | [] => []
  | n :: ns => n.tidy strip :: tidyEach strip ns

end

/-- The node with its texts as the parser reads them. -/
def Node.reread (n : Node) : Node := n.tidy (Chars.stripComments .plain)

def rereadEach (ns : List Node) : List Node := tidyEach (Chars.stripComments .plain) ns

theorem tidyEach_append (strip : List Char → List Char) (ns ms : List Node) :
    tidyEach strip (ns ++ ms) = tidyEach strip ns ++ tidyEach strip ms := by
  induction ns with
  | nil => rfl
  | cons n ns ih => rw [List.cons_append, tidyEach, ih, tidyEach, List.cons_append]

theorem rereadEach_append (ns ms : List Node) :
    rereadEach (ns ++ ms) = rereadEach ns ++ rereadEach ms :=
  tidyEach_append _ ns ms

namespace Chars

variable {s t : List Char} {c : Char}

/-- Without the end of a comment is a text that does not begin with it and has none behind. -/
theorem cutPhrase_close_cons : cutPhrase "*/".toList (c :: s) = none ↔
    ¬ (c = '*' ∧ s.head? = some '/') ∧ cutPhrase "*/".toList s = none := by
  have hprefix : "*/".toList <+: c :: s ↔ c = '*' ∧ s.head? = some '/' := by
    rw [List.head?_eq_some_iff]
    constructor
    · intro h
      obtain ⟨rfl, t, ht⟩ := List.cons_prefix_cons.1 h
      exact ⟨rfl, t, ht.symm⟩
    · rintro ⟨rfl, t, rfl⟩
      exact ⟨t, rfl⟩
  rw [← hprefix, ← isPrefixOf?_isSome_iff, cutPhrase]
  cases "*/".toList.isPrefixOf? (c :: s) <;> simp

theorem enter_ne_comment (c : Char) : Scan.enter c ≠ .comment := by
  rw [Scan.enter]
  split <;> simp

theorem leave_ne_comment (quote c : Char) : Scan.leave quote c ≠ .comment := by
  rw [Scan.leave]
  split <;> simp

/-- Where no comment opens, none is taken away. -/
theorem stripComments_eq_self (st : Scan) (hst : st ≠ .comment) (h : ¬ "/*".toList <:+: s) :
    stripComments st s = s := by
  induction s generalizing st with
  | nil => rw [stripComments]
  | cons c s ih =>
    rw [List.infix_cons_iff, not_or] at h
    obtain ⟨hhead, hinfix⟩ := h
    cases st with
    | comment => exact absurd rfl hst
    | plain =>
      rw [stripComments, ih _ (enter_ne_comment c) hinfix]
      · rintro u rfl rfl
        exact hhead ⟨u, rfl⟩
    | quoted q =>
      rw [stripComments, ih _ (leave_ne_comment q c) hinfix]

end Chars

/-- Whether no comment opens in a text. -/
def IsBare (s : String) : Prop := ¬ "/*".toList <:+: s.toList

section Bare

variable {s t : String}

theorem isBare_of_append (h : IsBare (s ++ t)) : IsBare s ∧ IsBare t := by
  rw [IsBare] at h
  rw [String.toList_append] at h
  exact ⟨fun hs => h (hs.trans (List.prefix_append _ _).isInfix),
    fun ht => h (ht.trans (List.suffix_append _ _).isInfix)⟩

theorem isBare_of_atHeadText {name params : String} (h : IsBare (atHeadText name params)) :
    IsBare params := by
  rw [atHeadText] at h
  split at h
  · next hempty =>
    rw [String.isEmpty_iff.1 hempty]
    exact fun h => absurd (List.infix_nil.1 h) (by decide)
  · exact (isBare_of_append h).2

theorem IsBare.tidyText (h : IsBare s) :
    tidyText (Chars.stripComments .plain) s = tidyText id s := by
  rw [UtilityCss.tidyText, Chars.stripComments_eq_self .plain nofun h]
  rfl

theorem IsBare.tidyValue {property value : String} {important : Bool}
    (h : IsBare (value ++ if important then " !important" else "")) :
    tidyValue (Chars.stripComments .plain) property (valueText value important) =
      tidyValue id property (valueText value important) := by
  rw [UtilityCss.tidyValue, valueText, Chars.stripComments_eq_self .plain nofun h]
  rfl

end Bare

/-- Where the printed text has no comment, no text loses one when it is read. -/
theorem rereadEach_prune {depth : Nat} {n : Node} (h : IsBare (n.print depth))
    (hinner : ∀ depth, IsBare (printEach depth n.children) →
      rereadEach (pruneEach n.children) = tidyEach id (pruneEach n.children)) :
    rereadEach n.prune = tidyEach id n.prune := by
  rw [rereadEach] at hinner ⊢
  cases n with
  | rule sel ns =>
    rw [Node.print] at h
    rw [Node.children] at hinner
    rw [Node.prune]
    split
    · next hcontent =>
      rw [if_pos hcontent] at h
      obtain ⟨h, hns⟩ := isBare_of_append (isBare_of_append (isBare_of_append h).1).1
      obtain ⟨-, hsel⟩ := isBare_of_append (isBare_of_append h).1
      rw [tidyEach, Node.tidy, hsel.tidyText, hinner _ hns]
      rfl
    · rfl
  | atRule name params ns =>
    rw [Node.print] at h
    rw [Node.children] at hinner
    rw [Node.prune]
    split
    · next hcontent =>
      rw [if_pos hcontent] at h
      obtain ⟨h, hns⟩ := isBare_of_append (isBare_of_append (isBare_of_append h).1).1
      obtain ⟨-, hhead⟩ := isBare_of_append (isBare_of_append h).1
      rw [tidyEach, Node.tidy, (isBare_of_atHeadText hhead).tidyText, hinner _ hns]
      rfl
    · rfl
  | statement name params =>
    obtain ⟨-, hhead⟩ := isBare_of_append (isBare_of_append h).1
    change tidyEach _ [_] = tidyEach _ [_]
    rw [tidyEach, Node.tidy, (isBare_of_atHeadText hhead).tidyText]
    rfl
  | decl property value important =>
    have htext : (Node.decl property value important).print depth = indent depth ++ property ++
        ": " ++ (value ++ (if important then " !important" else "") ++ ";\n") := by
      simp only [Node.print, String.append_assoc]
    rw [htext] at h
    obtain ⟨-, hvalue⟩ := isBare_of_append h
    change tidyEach _ [_] = tidyEach _ [_]
    rw [tidyEach, Node.tidy, (isBare_of_append hvalue).1.tidyValue]
    rfl
  | comment => rfl

theorem rereadEach_pruneEach {depth : Nat} {ns : List Node} (h : IsBare (printEach depth ns)) :
    rereadEach (pruneEach ns) = tidyEach id (pruneEach ns) := by
  induction ns using forest_induction generalizing depth with
  | nil => rfl
  | cons n ns ihn ih =>
    obtain ⟨hn, hns⟩ := isBare_of_append h
    rw [pruneEach, rereadEach_append, rereadEach_prune hn fun _ => ihn, ih hns, tidyEach_append]

end UtilityCss
