import UtilityCss.Proofs.Stylesheet.Reading

/-!
# Trees up to comments

Two readings of a text come to the same if both fail or their trees differ in the texts of comments
only. What the parser makes of a text is then a matter of its tokens up to comments, and of the open
blocks and the nodes in front up to comments.
-/

namespace UtilityCss

mutual

def Node.mute : Node → Node
  | .rule sel ns => .rule sel (muteEach ns)
  | .atRule name params ns => .atRule name params (muteEach ns)
  | .statement name params => .statement name params
  | .decl property value important => .decl property value important
  | .comment _ => .comment ""

def muteEach : List Node → List Node
  | [] => []
  | n :: ns => n.mute :: muteEach ns

end

/-- The token with nothing written in a comment. A closing brace is the same wherever it stands. -/
def Token.mute : Token → Token
  | .leaf n => .leaf n.mute
  | .openBlock head => .openBlock head
  | .closeBlock _ => .closeBlock ""

/-- The open blocks, innermost first, each with the nodes in front of it, and the nodes of the
innermost one so far, last first. -/
structure Opened where
  blocks : List (BlockHead × List Node) := []
  done : List Node := []

namespace Opened

def mute (o : Opened) : Opened :=
  ⟨o.blocks.map fun p => (p.1, muteEach p.2), muteEach o.done⟩

/-- What is open behind a token; there is no closing brace outside of any block. -/
def push (o : Opened) : Token → Option Opened
  | .leaf n => some ⟨o.blocks, n :: o.done⟩
  | .openBlock head => some ⟨(head, o.done) :: o.blocks, []⟩
  | .closeBlock _ => match o.blocks with
    | [] => none
    | (head, outer) :: blocks => some ⟨blocks, head.node o.done.reverse :: outer⟩

end Opened

/-- The tree of what the parser makes of a text, up to comments, if it is not refused. -/
def outcome (o : Opened) (s : List Char) : Option (List Node) :=
  (resume o.blocks o.done s).toOption.map muteEach

section Mute

variable {ns ms : List Node} {o o' : Opened} {t t' : Token}

theorem muteEach_eq_map (ns : List Node) : muteEach ns = ns.map Node.mute := by
  induction ns with
  | nil => rfl
  | cons n ns ih => rw [muteEach, ih, List.map_cons]

theorem muteEach_reverse (ns : List Node) : muteEach ns.reverse = (muteEach ns).reverse := by
  rw [muteEach_eq_map, muteEach_eq_map, List.map_reverse]

private theorem BlockHead.mute_node (head : BlockHead) (ns : List Node) :
    (head.node ns).mute = head.node (muteEach ns) := by
  cases head <;> rfl

/-- What a token does is the same up to comments. -/
theorem Opened.mute_push (ho : o.mute = o'.mute) (ht : t.mute = t'.mute) :
    (o.push t).map mute = (o'.push t').map mute := by
  obtain ⟨blocks, done⟩ := o
  obtain ⟨blocks', done'⟩ := o'
  simp only [mute, Opened.mk.injEq] at ho
  obtain ⟨hblocks, hdone⟩ := ho
  have hleaf {n n' : Node} (hn : n.mute = n'.mute) :
      muteEach (n :: done) = muteEach (n' :: done') := by
    rw [muteEach, muteEach, hn, hdone]
  cases t <;> cases t' <;> simp only [Token.mute, reduceCtorEq, Token.leaf.injEq,
    Token.openBlock.injEq] at ht
  case leaf.leaf n n' => simp [push, mute, hblocks, hleaf ht]
  case openBlock.openBlock head head' => simp [push, mute, hblocks, hdone, ht]
  case closeBlock.closeBlock near near' =>
    cases blocks with
    | nil =>
      obtain rfl : blocks' = [] := by simpa using hblocks.symm
      rfl
    | cons p blocks =>
      cases blocks' with
      | nil => simp at hblocks
      | cons p' blocks' =>
        simp only [List.map_cons, List.cons.injEq, Prod.mk.injEq] at hblocks
        obtain ⟨⟨hhead, houter⟩, hblocks⟩ := hblocks
        simp [push, mute, muteEach, hblocks, hhead, houter, BlockHead.mute_node, muteEach_reverse,
          hdone]

/-- The parser goes on behind a token with what is open there. -/
theorem toOption_assemble_cons (fault : Option SyntaxError) (o : Opened) (t : Token)
    (ts : List Token) : (assemble fault o.blocks o.done (t :: ts)).toOption =
      (o.push t).bind fun o => (assemble fault o.blocks o.done ts).toOption := by
  obtain ⟨blocks, done⟩ := o
  cases t with
  | leaf n => rfl
  | openBlock head => rfl
  | closeBlock near =>
    cases blocks with
    | nil => rfl
    | cons p blocks => rfl

theorem toOption_assemble_nil (fault : Option SyntaxError) (o : Opened) :
    (assemble fault o.blocks o.done []).toOption =
      if fault = none ∧ o.blocks = [] then some o.done.reverse else none := by
  obtain ⟨blocks, done⟩ := o
  cases fault with
  | some e => rfl
  | none =>
    cases blocks with
    | nil => rfl
    | cons p blocks => rfl

private theorem map_toOption_assemble (fault : Option SyntaxError) (ho : o.mute = o'.mute)
    (ts : List Token) : (assemble fault o.blocks o.done ts).toOption.map muteEach =
      (assemble fault o'.blocks o'.done ts).toOption.map muteEach := by
  induction ts generalizing o o' with
  | nil =>
    have hblocks := congrArg (fun o => o.blocks.length) ho
    have hdone := congrArg Opened.done ho
    simp only [Opened.mute, List.length_map] at hblocks hdone
    have hempty : o.blocks = [] ↔ o'.blocks = [] := by
      rw [← List.length_eq_zero_iff, ← List.length_eq_zero_iff, hblocks]
    rw [toOption_assemble_nil, toOption_assemble_nil]
    simp only [hempty]
    split
    · rw [Option.map_some, Option.map_some, muteEach_reverse, muteEach_reverse, hdone]
    · rfl
  | cons t ts ih =>
    have hpush := Opened.mute_push (t := t) ho rfl
    rw [toOption_assemble_cons, toOption_assemble_cons]
    cases hfirst : o.push t with
    | none =>
      rw [hfirst, Option.map_none, eq_comm, Option.map_eq_none_iff] at hpush
      rw [hpush]
    | some p =>
      rw [hfirst, Option.map_some, eq_comm, Option.map_eq_some_iff] at hpush
      obtain ⟨p', hsecond, hp⟩ := hpush
      rw [hsecond, Option.bind_some, Option.bind_some]
      exact ih hp.symm

/-- What is open matters up to comments only. -/
theorem outcome_congr (ho : o.mute = o'.mute) (s : List Char) : outcome o s = outcome o' s :=
  map_toOption_assemble (tokens s).2 ho (tokens s).1

theorem outcome_of_nextToken {s r : List Char} (h : nextToken (Chars.dropGap s) = .ok (some (t, r)))
    (o : Opened) : outcome o s = (o.push t).bind fun o => outcome o r := by
  rw [outcome, resume, tokens_of_nextToken h, toOption_assemble_cons, Option.map_bind]
  rfl

private theorem toOption_assemble_fault (e : SyntaxError) (o : Opened) (ts : List Token) :
    (assemble (some e) o.blocks o.done ts).toOption = none := by
  induction ts generalizing o with
  | nil => exact toOption_assemble_nil (some e) o
  | cons t ts ih =>
    rw [toOption_assemble_cons, Option.bind_eq_none_iff]
    exact fun o _ => ih o

/-- Where no token can be read, the text is refused. -/
theorem outcome_of_error {s : List Char} {e : SyntaxError}
    (h : nextToken (Chars.dropGap s) = .error e) (o : Opened) : outcome o s = none := by
  rw [outcome, resume, tokens_eq, h, toOption_assemble_fault, Option.map_none]

/-- A text is refused whose first token is refused or followed by a text that is. -/
theorem outcome_eq_none {s : List Char}
    (h : ∀ t r, nextToken (Chars.dropGap s) = .ok (some (t, r)) → ∀ o, outcome o r = none)
    (hend : nextToken (Chars.dropGap s) ≠ .ok none) (o : Opened) : outcome o s = none := by
  cases hnext : nextToken (Chars.dropGap s) with
  | error e => exact outcome_of_error hnext o
  | ok step =>
    cases step with
    | none => exact absurd hnext hend
    | some p =>
      rw [outcome_of_nextToken hnext, Option.bind_eq_none_iff]
      exact fun o _ => h p.1 p.2 hnext o

end Mute

end UtilityCss
