import UtilityCss.Stylesheet.Node

/-!
# Replacement in place

`replaceInPlace` does to a forest what `replaceEach` does, but in the lists themselves: an index moves
through a list while nodes are spliced into it, and a block is gone through while the list around it
waits. Each time the index comes to a node, it is asked what to put there; `ReplaceState.move` says what
is done with the answer, whoever gives it.
-/

namespace UtilityCss

/-- The nodes in the block of a node, if it has one. -/
def Node.children? : Node → Option (List Node)
  | .rule _ ns => some ns
  | .atRule _ _ ns => some ns
  | _ => none

theorem Node.sizeOf_lt_of_children? {n : Node} {inner : List Node} (h : n.children? = some inner) :
    sizeOf inner < sizeOf n := by
  cases n with
  | rule sel ns =>
    cases h
    simp only [rule.sizeOf_spec]
    omega
  | atRule name params ns =>
    cases h
    simp only [atRule.sizeOf_spec]
    omega
  | _ => cases h

/-- A list of nodes that is gone through by index, and may be changed on the way. -/
structure Sweep where
  nodes : List Node
  index : Nat := 0

namespace Sweep

/-- The node at the index, unless the end is reached. -/
def current? (w : Sweep) : Option Node := w.nodes[w.index]?

/-- What has been gone through. -/
def front (w : Sweep) : List Node := w.nodes.take w.index

/-- The node at the index and what follows. -/
def rest (w : Sweep) : List Node := w.nodes.drop w.index

/-- What follows the node at the index. -/
def behind (w : Sweep) : List Node := w.nodes.drop (w.index + 1)

/-- Goes on to the next node. -/
def advance (w : Sweep) : Sweep := { w with index := w.index + 1 }

/-- Puts nodes in the place of the one at the index and goes on behind them. -/
def splice (w : Sweep) (new : List Node) : Sweep where
  nodes := w.front ++ new ++ w.behind
  index := w.index + new.length

/-- Goes on behind the node at the index, in whose block these nodes stand now. -/
def closeBlock (w : Sweep) (inner : List Node) : Sweep where
  nodes := w.nodes.modify w.index (·.withChildren inner)
  index := w.index + 1

theorem rest_mk (ns : List Node) : rest { nodes := ns } = ns := rfl

theorem rest_of_current? {w : Sweep} {n : Node} (h : w.current? = some n) :
    w.rest = n :: w.behind := by
  obtain ⟨hlt, hn⟩ := List.getElem?_eq_some_iff.1 h
  rw [rest, behind, List.drop_eq_getElem_cons hlt, hn]

theorem length_front_append {w : Sweep} {n : Node} (h : w.current? = some n) (new : List Node) :
    (w.front ++ new).length = w.index + new.length := by
  have hlt : w.index < w.nodes.length := (List.getElem?_eq_some_iff.1 h).1
  rw [front, List.length_append, List.length_take_of_le (Nat.le_of_lt hlt)]

theorem rest_splice {w : Sweep} {n : Node} (h : w.current? = some n) (new : List Node) :
    (w.splice new).rest = w.behind :=
  List.drop_left' (length_front_append h new)

theorem rest_advance (w : Sweep) : w.advance.rest = w.behind := rfl

theorem rest_closeBlock (w : Sweep) (inner : List Node) : (w.closeBlock inner).rest = w.behind :=
  List.drop_modify_of_lt _ _ _ _ (Nat.lt_succ_self _)

end Sweep

/-- The list that is gone through, and those around it, innermost first; each of these waits at the
node whose block is open. -/
structure ReplaceState where
  sweep : Sweep
  outer : List Sweep := []

/-- What comes next: a node is asked about, a block is closed, or all has been gone through. -/
inductive ReplaceMove where
  | ask (n : Node) (next : Option (List Node) → ReplaceState)
  | close (next : ReplaceState)
  | done (nodes : List Node)

namespace ReplaceState

def start (ns : List Node) : ReplaceState := { sweep := { nodes := ns } }

/-- What becomes of a node for which there are new nodes, or none. In the latter case its block is
gone through next. -/
def answered (s : ReplaceState) (n : Node) : Option (List Node) → ReplaceState
  | some new => { s with sweep := s.sweep.splice new }
  | none => match n.children? with
    | some inner => { sweep := { nodes := inner }, outer := s.sweep :: s.outer }
    | none => { s with sweep := s.sweep.advance }

def move (s : ReplaceState) : ReplaceMove :=
  match s.sweep.current? with
  | some n => .ask n (s.answered n)
  | none => match s.outer with
    | [] => .done s.sweep.nodes
    | around :: outer => .close { sweep := around.closeBlock s.sweep.nodes, outer }

/-- The size of all that is left to be gone through. -/
noncomputable def left (s : ReplaceState) : Nat :=
  s.outer.foldr (fun w left => sizeOf w.behind + left) 0 + sizeOf s.sweep.rest

variable {s s' : ReplaceState} {n : Node} {next : Option (List Node) → ReplaceState}
  {nodes : List Node}

/-- A node is asked about where the index is at it. -/
theorem move_eq_ask (h : s.move = .ask n next) :
    s.sweep.current? = some n ∧ next = s.answered n := by
  rw [move] at h
  split at h
  · next hn =>
    cases h
    exact ⟨hn, rfl⟩
  · split at h <;> cases h

/-- A block is closed at its end, and the list around it goes on. -/
theorem move_eq_close (h : s.move = .close s') :
    s.sweep.current? = none ∧ ∃ around outer, s.outer = around :: outer ∧
      s' = { sweep := around.closeBlock s.sweep.nodes, outer } := by
  rw [move] at h
  split at h
  · cases h
  · next hnone =>
    split at h
    · cases h
    · next around outer houter =>
      cases h
      exact ⟨hnone, around, outer, houter, rfl⟩

/-- All has been gone through at the end of the outermost list. -/
theorem move_eq_done (h : s.move = .done nodes) :
    s.sweep.current? = none ∧ s.outer = [] ∧ nodes = s.sweep.nodes := by
  rw [move] at h
  split at h
  · cases h
  · next hnone =>
    split at h
    · next houter =>
      cases h
      exact ⟨hnone, houter, rfl⟩
    · cases h

/-- Whatever the answer is, less is left. -/
theorem left_of_ask (h : s.move = .ask n next) (new? : Option (List Node)) :
    (next new?).left < s.left := by
  obtain ⟨hn, rfl⟩ := move_eq_ask h
  have hrest := Sweep.rest_of_current? hn
  cases new? with
  | some new =>
    simp only [answered, left, Sweep.rest_splice hn, hrest, List.cons.sizeOf_spec]
    omega
  | none =>
    cases hchildren : n.children? with
    | some inner =>
      -- the block is left as before, but no longer the node around it
      have hless := Node.sizeOf_lt_of_children? hchildren
      simp only [answered, hchildren, left, Sweep.rest_mk, hrest, List.foldr_cons,
        List.cons.sizeOf_spec]
      omega
    | none =>
      simp only [answered, hchildren, left, Sweep.rest_advance, hrest, List.cons.sizeOf_spec]
      omega

/-- Closing a block leaves less, too. -/
theorem left_of_close (h : s.move = .close s') : s'.left < s.left := by
  obtain ⟨-, around, outer, houter, rfl⟩ := move_eq_close h
  -- a list has a size even where nothing is left of it
  have hpos : 0 < sizeOf s.sweep.rest := by
    cases s.sweep.rest with
    | nil => simp
    | cons n ns => simp only [List.cons.sizeOf_spec]; omega
  simp only [left, houter, Sweep.rest_closeBlock, List.foldr_cons]
  omega

/-- Goes on to the end, with the answers of `f`. -/
def run (f : Node → Option (List Node)) (s : ReplaceState) : List Node :=
  match h : s.move with
  | .ask n next =>
    have : (next (f n)).left < s.left := left_of_ask h _
    (next (f n)).run f
  | .close s' =>
    have : s'.left < s.left := left_of_close h
    s'.run f
  | .done nodes => nodes
termination_by s.left

end ReplaceState

/-- Splices, in the lists themselves, the nodes that `f` gives in the place of every outermost node for
which it gives some. -/
def replaceInPlace (f : Node → Option (List Node)) (ns : List Node) : List Node :=
  (ReplaceState.start ns).run f

end UtilityCss
