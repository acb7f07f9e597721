import UtilityCss.Proofs.Stylesheet.Replace
import UtilityCss.Stylesheet.InPlace

/-!
# Replacement in place and by recursion

Going through a forest by index, while nodes are spliced into the list and other lists wait around it,
is a run of a machine that asks about one node after the other. Whatever the answers are, no run goes
on forever. With the answers of a function, the run asks about each node that is not inside a replaced
one, in document order, and about no new node, and it leaves what `replaceEach` makes of the forest.

The invariant is stated without the index: what all open lists will be in the end, and what will be
asked about on the way, is the same before and after each move, but for the node that is asked about.
-/

namespace UtilityCss

theorem Node.children_of_children? {n : Node} {inner : List Node} (h : n.children? = some inner) :
    n.children = inner := by
  cases n with
  | rule => exact Option.some.inj h
  | atRule => exact Option.some.inj h
  | _ => cases h

private theorem Node.children_of_children?_eq_none {n : Node} (h : n.children? = none) :
    n.children = [] := by
  cases n with
  | rule => cases h
  | atRule => cases h
  | _ => rfl

namespace Sweep

variable {w : Sweep} {n : Node} {f : Node → Option (List Node)}

theorem rest_of_current?_eq_none (h : w.current? = none) : w.rest = [] :=
  List.drop_of_length_le (List.getElem?_eq_none_iff.1 h)

private theorem front_splice (h : w.current? = some n) (new : List Node) :
    (w.splice new).front = w.front ++ new :=
  List.take_left' (length_front_append h new)

private theorem front_advance (h : w.current? = some n) : w.advance.front = w.front ++ [n] := by
  obtain ⟨hlt, hn⟩ := List.getElem?_eq_some_iff.1 h
  rw [front, front, ← hn]
  exact (List.take_append_getElem hlt).symm

private theorem front_closeBlock (h : w.current? = some n) (inner : List Node) :
    (w.closeBlock inner).front = w.front ++ [n.withChildren inner] := by
  obtain ⟨hlt, hn⟩ := List.getElem?_eq_some_iff.1 h
  have hsplit : (w.closeBlock inner).nodes = w.front ++ [n.withChildren inner] ++ w.behind := by
    rw [closeBlock, List.modify_eq_take_cons_drop hlt, hn, List.append_assoc]
    rfl
  rw [front, hsplit]
  exact List.take_left' (length_front_append h _)

/-- What a list becomes when the nodes that are left are replaced as `f` says. -/
def finish (f : Node → Option (List Node)) (w : Sweep) : List Node :=
  w.front ++ replaceEach f w.rest

theorem finish_of_current? (h : w.current? = some n) :
    w.finish f = w.front ++ n.replace f ++ replaceEach f w.behind := by
  rw [finish, rest_of_current? h, replaceEach, List.append_assoc]

theorem finish_of_current?_eq_none (h : w.current? = none) : w.finish f = w.nodes := by
  have hle : w.nodes.length ≤ w.index := List.getElem?_eq_none_iff.1 h
  rw [finish, rest_of_current?_eq_none h, front, List.take_of_length_le hle, replaceEach,
    List.append_nil]

private theorem finish_splice {new : List Node} (h : w.current? = some n) (hf : f n = some new) :
    (w.splice new).finish f = w.finish f := by
  rw [finish, front_splice h, rest_splice h, finish_of_current? h, Node.replace_eq, hf,
    Option.getD_some]

/-- The block of a node that stays is gone through before the index leaves the node. -/
theorem finish_closeBlock (h : w.current? = some n) (hf : f n = none) :
    (w.closeBlock (replaceEach f n.children)).finish f = w.finish f := by
  rw [finish, front_closeBlock h, rest_closeBlock, finish_of_current? h, Node.replace_eq, hf,
    Option.getD_none]

private theorem finish_advance (h : w.current? = some n) (hf : f n = none)
    (hchildren : n.children? = none) :
    w.advance.finish f = w.finish f := by
  have hsame : n.withChildren (replaceEach f n.children) = n := by
    cases n with
    | rule => cases hchildren
    | atRule => cases hchildren
    | _ => rfl
  rw [finish, front_advance h, rest_advance, finish_of_current? h, Node.replace_eq, hf,
    Option.getD_none, hsame]

end Sweep

namespace ReplaceState

/-- A state may follow another one, whatever the answer is. -/
inductive Next (s : ReplaceState) : ReplaceState → Prop
  | answered {n next} (h : s.move = .ask n next) (new? : Option (List Node)) : Next s (next new?)
  | closed {s'} (h : s.move = .close s') : Next s s'

/-- No run from a state goes on forever. -/
def Halts (s : ReplaceState) : Prop := Acc (fun s' s => Next s s') s

/-- With the answers of `f`, a run from a state asks about these nodes, one after the other, and ends
with this forest. -/
inductive Ends (f : Node → Option (List Node)) : ReplaceState → List Node → List Node → Prop
  | done {s ns} (h : s.move = .done ns) : Ends f s [] ns
  | asked {s n next asked out} (h : s.move = .ask n next) (hend : Ends f (next (f n)) asked out) :
      Ends f s (n :: asked) out
  | closed {s s' asked out} (h : s.move = .close s') (hend : Ends f s' asked out) : Ends f s asked out

/-- The nodes that will be asked about: those that are left in all lists, without what is inside
replaced ones. -/
def toAsk (f : Node → Option (List Node)) (s : ReplaceState) : List Node :=
  visited (fun n => (f n).isNone) s.sweep.rest ++
    s.outer.flatMap fun w => visited (fun n => (f n).isNone) w.behind

/-- What the outermost list will be in the end. -/
def outcome (f : Node → Option (List Node)) (s : ReplaceState) : List Node :=
  s.outer.foldl (fun inner w => (w.closeBlock inner).finish f) (s.sweep.finish f)

variable {f : Node → Option (List Node)} {s s' : ReplaceState} {n : Node}
  {next : Option (List Node) → ReplaceState} {ns asked out : List Node}

private theorem left_lt_of_next (h : Next s s') : s'.left < s.left := by
  cases h with
  | answered hmove new? => exact left_of_ask hmove new?
  | closed hmove => exact left_of_close hmove

/-- Every run ends, for less is left after each move. -/
theorem halts (s : ReplaceState) : s.Halts :=
  Subrelation.accessible left_lt_of_next (InvImage.accessible left (Nat.lt_wfRel.wf.apply s.left))

theorem toAsk_of_ask (h : s.move = .ask n next) : s.toAsk f = n :: (next (f n)).toAsk f := by
  obtain ⟨hn, rfl⟩ := move_eq_ask h
  rw [toAsk, Sweep.rest_of_current? hn, visited_cons, toAsk, List.cons_append]
  cases hf : f n with
  | some new => rw [answered, Sweep.rest_splice hn]; rfl
  | none =>
    rw [answered]
    cases hchildren : n.children? with
    | some inner =>
      rw [Node.children_of_children? hchildren, List.append_assoc]
      rfl
    | none =>
      rw [Node.children_of_children?_eq_none hchildren]
      rfl

theorem toAsk_of_close (h : s.move = .close s') : s'.toAsk f = s.toAsk f := by
  obtain ⟨hnone, around, outer, houter, rfl⟩ := move_eq_close h
  rw [toAsk, toAsk, Sweep.rest_of_current?_eq_none hnone, houter, Sweep.rest_closeBlock]
  rfl

theorem toAsk_of_done (h : s.move = .done ns) : s.toAsk f = [] := by
  obtain ⟨hnone, houter, -⟩ := move_eq_done h
  rw [toAsk, Sweep.rest_of_current?_eq_none hnone, houter]
  rfl

theorem outcome_of_ask (h : s.move = .ask n next) : (next (f n)).outcome f = s.outcome f := by
  obtain ⟨hn, rfl⟩ := move_eq_ask h
  cases hf : f n with
  | some new => rw [answered, outcome, Sweep.finish_splice hn hf, outcome]
  | none =>
    rw [answered]
    cases hchildren : n.children? with
    | some inner =>
      -- the list around waits at the node, so the block comes back into it changed
      have hinner : Sweep.finish f { nodes := inner } = replaceEach f n.children := by
        rw [Node.children_of_children? hchildren]
        rfl
      dsimp only
      rw [outcome, List.foldl_cons, hinner, Sweep.finish_closeBlock hn hf, outcome]
    | none =>
      dsimp only
      rw [outcome, Sweep.finish_advance hn hf hchildren, outcome]

theorem outcome_of_close (h : s.move = .close s') : s'.outcome f = s.outcome f := by
  obtain ⟨hnone, around, outer, houter, rfl⟩ := move_eq_close h
  rw [outcome, outcome, houter, List.foldl_cons, Sweep.finish_of_current?_eq_none hnone]

theorem outcome_of_done (h : s.move = .done ns) : s.outcome f = ns := by
  obtain ⟨hnone, houter, rfl⟩ := move_eq_done h
  rw [outcome, houter, List.foldl_nil, Sweep.finish_of_current?_eq_none hnone]

/-- There is one run from each state, and it does what is left to do. -/
theorem ends_iff : Ends f s asked out ↔ asked = s.toAsk f ∧ out = s.outcome f := by
  constructor
  · intro h
    induction h with
    | done hmove => exact ⟨(toAsk_of_done hmove).symm, (outcome_of_done hmove).symm⟩
    | asked hmove _ ih =>
      rw [toAsk_of_ask hmove, ← outcome_of_ask hmove, ← ih.1]
      exact ⟨rfl, ih.2⟩
    | closed hmove _ ih => rwa [← toAsk_of_close hmove, ← outcome_of_close hmove]
  · rintro ⟨rfl, rfl⟩
    -- by induction on the run, which is finite whatever `f` answers
    have hhalts := halts s
    induction hhalts with
    | intro s _ ih =>
      cases hmove : s.move with
      | ask n next =>
        rw [toAsk_of_ask hmove, ← outcome_of_ask hmove]
        exact .asked hmove (ih _ (.answered hmove _))
      | close s' =>
        rw [← toAsk_of_close hmove, ← outcome_of_close hmove]
        exact .closed hmove (ih _ (.closed hmove))
      | done ns =>
        rw [toAsk_of_done hmove, outcome_of_done hmove]
        exact .done hmove

theorem run_eq_outcome (f : Node → Option (List Node)) (s : ReplaceState) : s.run f = s.outcome f := by
  fun_induction run f s with
  | case1 s n next hmove _ ih => exact ih.trans (outcome_of_ask hmove)
  | case2 s s' hmove _ ih => exact ih.trans (outcome_of_close hmove)
  | case3 s ns hmove => exact (outcome_of_done hmove).symm

/-- From the start, all nodes are left. -/
theorem ends_start_iff : Ends f (start ns) asked out ↔
    asked = visited (fun n => (f n).isNone) ns ∧ out = replaceEach f ns := by
  have hask : (start ns).toAsk f = visited (fun n => (f n).isNone) ns := List.append_nil _
  have hout : (start ns).outcome f = replaceEach f ns := rfl
  rw [ends_iff, hask, hout]

end ReplaceState

/-- Replacement in place comes to an end for every forest, whatever is answered. With the answers of
`f`, it asks about all nodes of the forest that are not inside a replaced one, in document order, and
about no others, and leaves the forest in which every outermost node for which there are new nodes has
these in its place. -/
theorem replaceInPlace_substitutes (f : Node → Option (List Node)) (ns : List Node) :
    (ReplaceState.start ns).Halts ∧
      (∀ asked out, ReplaceState.Ends f (.start ns) asked out ↔
        asked = visited (fun n => (f n).isNone) ns ∧ out = replaceEach f ns) ∧
      replaceInPlace f ns = replaceEach f ns :=
  ⟨ReplaceState.halts _, fun _ _ => ReplaceState.ends_start_iff,
    ReplaceState.run_eq_outcome f _⟩

/-- A new node stays, even if it would be replaced elsewhere. -/
example : replaceInPlace (fun n => if n.isAt "apply" then some [n, .plain "gap" "0"] else none)
    [.rule ".a" [.statement "apply" "flex", .plain "color" "red"], .statement "apply" "p-4"] =
    [.rule ".a" [.statement "apply" "flex", .plain "gap" "0", .plain "color" "red"],
      .statement "apply" "p-4", .plain "gap" "0"] := by cbv

end UtilityCss
