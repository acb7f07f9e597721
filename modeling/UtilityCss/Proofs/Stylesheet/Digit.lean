import UtilityCss.Proofs.Stylesheet.Normal
import UtilityCss.Proofs.Stylesheet.Outcome

/-!
# Digits in trees

Reading takes comments, white space, colons, marks and the signs of blocks away from a text, but no
digit. So a digit that is written in a token and in no comment can be counted in the tree, and two
texts with different numbers of zeros in one token give different trees.
-/

namespace UtilityCss

def zeros (s : String) : Nat := s.toList.count '0'

mutual

/-- How often the digit zero is written in a node, apart from comments, names and marks. -/
def Node.zeros : Node → Nat
  | .rule sel ns => UtilityCss.zeros sel + zerosEach ns
  | .atRule _ params ns => UtilityCss.zeros params + zerosEach ns
  | .statement _ params => UtilityCss.zeros params
  | .decl property value _ => UtilityCss.zeros property + UtilityCss.zeros value
  | .comment _ => 0

def zerosEach : List Node → Nat
  | [] => 0
  | n :: ns => n.zeros + zerosEach ns

end

namespace BlockHead

def zeros : BlockHead → Nat
  | rule sel => UtilityCss.zeros sel
  | atRule _ params => UtilityCss.zeros params

private theorem zeros_node (head : BlockHead) (ns : List Node) :
    (head.node ns).zeros = head.zeros + zerosEach ns := by
  cases head <;> rfl

end BlockHead

def Token.zeros : Token → Nat
  | .leaf n => n.zeros
  | .openBlock head => head.zeros
  | .closeBlock _ => 0

def zerosAround : List (BlockHead × List Node) → Nat
  | [] => 0
  | p :: blocks => p.1.zeros + zerosEach p.2 + zerosAround blocks

def Opened.zeros (o : Opened) : Nat := zerosAround o.blocks + zerosEach o.done

def zerosOfTokens : List Token → Nat
  | [] => 0
  | t :: ts => t.zeros + zerosOfTokens ts

section Zeros

variable {o o' : Opened} {t : Token} {ns ms : List Node}

private theorem zerosEach_append (ns ms : List Node) :
    zerosEach (ns ++ ms) = zerosEach ns + zerosEach ms := by
  induction ns with
  | nil => simp [zerosEach]
  | cons n ns ih =>
    rw [List.cons_append, zerosEach, ih, zerosEach]
    omega

theorem zerosEach_reverse (ns : List Node) : zerosEach ns.reverse = zerosEach ns := by
  induction ns with
  | nil => rfl
  | cons n ns ih =>
    rw [List.reverse_cons, zerosEach_append, ih, zerosEach, zerosEach, zerosEach]
    omega

private theorem zerosEach_muteEach (ns : List Node) : zerosEach (muteEach ns) = zerosEach ns := by
  induction ns using forest_induction with
  | nil => rfl
  | cons n ns ihn ih =>
    have hn : n.mute.zeros = n.zeros := by
      cases n with
      | rule sel inner => exact congrArg (UtilityCss.zeros sel + ·) ihn
      | atRule name params inner => exact congrArg (UtilityCss.zeros params + ·) ihn
      | statement name params => rfl
      | decl property value important => rfl
      | comment text => rfl
    rw [muteEach, zerosEach, zerosEach, ih, hn]

theorem Opened.zeros_push (h : o.push t = some o') : o'.zeros = o.zeros + t.zeros := by
  obtain ⟨blocks, done⟩ := o
  cases t with
  | leaf n =>
    cases h
    simp only [zeros, zerosEach, Token.zeros]
    omega
  | openBlock head =>
    cases h
    simp only [zeros, zerosEach, Token.zeros, zerosAround]
    omega
  | closeBlock near =>
    cases blocks with
    | nil => cases h
    | cons p blocks =>
      cases h
      simp only [zeros, zerosEach, Token.zeros, zerosAround, BlockHead.zeros_node,
        zerosEach_reverse]
      omega

/-- Every digit of a text that is read comes from what is open or from a token. -/
theorem zerosEach_assemble {fault : Option SyntaxError} {ts : List Token}
    (h : (assemble fault o.blocks o.done ts).toOption = some ns) :
    zerosEach ns = o.zeros + zerosOfTokens ts := by
  induction ts generalizing o with
  | nil =>
    rw [toOption_assemble_nil] at h
    split at h
    · next hend =>
      cases h
      rw [zerosEach_reverse, Opened.zeros, hend.2, zerosAround, zerosOfTokens]
      omega
    · cases h
  | cons t ts ih =>
    rw [toOption_assemble_cons, Option.bind_eq_some_iff] at h
    obtain ⟨p, hpush, h⟩ := h
    rw [ih h, Opened.zeros_push hpush, zerosOfTokens]
    omega

/-- As many digits are open in front of a text if the same comes out of it. -/
theorem zeros_eq_of_outcome {s : List Char} (h : outcome o s = some ns)
    (h' : outcome o' s = some ns) : o.zeros = o'.zeros := by
  have hread {o : Opened} (h : outcome o s = some ns) :
      zerosEach ns = o.zeros + zerosOfTokens (tokens s).1 := by
    obtain ⟨ms, hms, rfl⟩ := Option.map_eq_some_iff.1 h
    rw [zerosEach_muteEach]
    exact zerosEach_assemble hms
  have := hread h
  have := hread h'
  omega

end Zeros

namespace Chars

variable {c : Char} {s front : List Char}

theorem count_blanks {u : List Char} (hc : isBlank c = false) (hu : ∀ c ∈ u, isBlank c) :
    u.count c = 0 := by
  rw [List.count_eq_zero]
  intro hmem
  rw [hu c hmem] at hc
  cases hc

private theorem count_trimStart (hc : isBlank c = false) (s : List Char) :
    (trimStart s).count c = s.count c := by
  obtain ⟨u, hu, hs⟩ := exists_trimStart s
  conv => rhs; rw [hs, List.count_append, count_blanks hc hu, Nat.zero_add]

theorem count_trimEnd (hc : isBlank c = false) (s : List Char) :
    (trimEnd s).count c = s.count c := by
  obtain ⟨u, hu, hs⟩ := exists_trimEnd s
  conv => rhs; rw [hs, List.count_append, count_blanks hc hu, Nat.add_zero]

theorem count_trim (hc : isBlank c = false) (s : List Char) : (trim s).count c = s.count c := by
  rw [trim, count_trimEnd hc, count_trimStart hc]

theorem count_collapseBlanks (hc : isBlank c = false) (q : Option Char) (spaced : Bool)
    (s : List Char) : (collapseBlanks q spaced s).count c = s.count c := by
  have hblank {d : Char} (hd : isBlank d) : d ≠ c := by
    rintro rfl
    rw [hd] at hc
    cases hc
  have hspace : ' ' ≠ c := hblank rfl
  fun_induction collapseBlanks q spaced s with
  | case1 => rfl
  | case2 _ q d s ih => rw [List.count_cons, ih, List.count_cons]
  | case3 d s hd ih => rw [ih, List.count_cons_of_ne (hblank hd)]
  | case4 spaced d s hd _ ih =>
    rw [List.count_cons_of_ne hspace, ih, List.count_cons_of_ne (hblank hd)]
  | case5 spaced d s hd ih => rw [List.count_cons, ih, List.count_cons]

theorem count_cleanText (hc : isBlank c = false) (s : List Char) :
    (cleanText s).count c = (stripComments .plain s).count c := by
  rw [cleanText, count_collapseBlanks hc, count_trim hc]

theorem count_beforeImportant? (h : beforeImportant? s = some front) :
    (trimEnd front).count '0' = s.count '0' := by
  have hblank : isBlank '0' = false := rfl
  rw [count_trimEnd hblank]
  unfold beforeImportant? at h
  generalize htrim : trimEnd s = value at h
  have hvalue : s.count '0' = value.count '0' := by rw [← htrim, count_trimEnd hblank]
  split at h
  · cases h
  · next rest hmark =>
    have hword : (value.reverse.take 9).map Char.toLower = "tnatropmi".toList := by
      rw [List.map_take, ← List.append_eq_of_isPrefixOf?_eq_some hmark]
      rfl
    have hnone : (value.reverse.take 9).count '0' = 0 := by
      rw [List.count_eq_zero]
      intro hmem
      have hlower := List.mem_map_of_mem (f := Char.toLower) hmem
      rw [hword] at hlower
      exact absurd hlower (by decide)
    have hcut : value.take (value.length - 9) = (value.reverse.drop 9).reverse := by
      rw [List.reverse_drop, List.reverse_reverse, List.length_reverse]
    split at h
    · next rest hbang =>
      cases h
      have hcount := congrArg (List.count '0') hbang
      rw [List.count_reverse, count_trimEnd hblank, hcut, List.count_reverse] at hcount
      have hsplit : value.count '0' =
          (value.reverse.take 9).count '0' + (value.reverse.drop 9).count '0' := by
        rw [← List.count_append, List.take_append_drop, List.count_reverse]
      rw [hvalue, hsplit, hnone, hcount, List.count_reverse, List.count_cons_of_ne (by decide)]
      omega
    · cases h

end Chars

/-- A declaration has the digits of its text outside of comments. -/
theorem zeros_of_readDeclaration {text : List Char} {n : Node} (h : readDeclaration text = .ok n) :
    n.zeros = (Chars.stripComments .plain text).count '0' := by
  have hblank : isBlank '0' = false := rfl
  rw [readDeclaration] at h
  generalize Chars.stripComments .plain text = text at h
  dsimp only at h
  split at h
  · cases h
  · next front back hcut =>
    obtain ⟨-, c, hc, rfl⟩ := Chars.cutAt_eq_some_iff.1 hcut
    obtain rfl : c = ':' := eq_of_beq hc
    split at h
    · cases h
    · cases h
      have hvalue : (((Chars.beforeImportant? (Chars.trim back)).map Chars.trimEnd).getD
          (Chars.trim back)).count '0' = back.count '0' := by
        rw [← Chars.count_trim hblank back]
        cases hmark : Chars.beforeImportant? (Chars.trim back) with
        | none => rfl
        | some front => exact Chars.count_beforeImportant? hmark
      rw [Node.zeros, zeros, zeros, String.toList_ofList, String.toList_ofList, List.count_append,
        List.count_cons_of_ne (by decide), Chars.count_trim hblank]
      split
      · rw [hvalue]
      · rw [Chars.count_collapseBlanks hblank, hvalue]

end UtilityCss
