import LoopHoist.Flow.Closure
import LoopHoist.Flow.Graph

/-!
# Depth-first order

`walk` visits the blocks depth first, successors in their order, with an explicit stack of the
blocks on the current path and the successors each has left. A block is put in front of the finished
list when it has no successor left, so from the entry the walk gives the reachable blocks in reverse
postorder, the entry first.

A graph is `closed` when its entry exists and no reachable block names a missing one; on other
graphs the order is a fault.
-/

namespace LoopHoist

namespace Cfg

/-- The cost of a stack of the walk: one for each block on it and for each successor left. -/
def stackWeight : List (BlockId × List BlockId) → Nat
  | [] => 0
  | frame :: rest => frame.2.length + 1 + stackWeight rest

/-- The cost of visiting a block that was not seen yet. -/
def visitWeight (g : Cfg) (b : BlockId) : Nat := (g.succ b).length + 2

/-- The depth-first walk from the top of `stack`, never entering a block of `seen`; the result is
`finished` with the newly finished blocks in front, the last one first. -/
def walk (g : Cfg) (stack : List (BlockId × List BlockId)) (seen finished : List BlockId) :
    List BlockId :=
  match stack with
  | [] => finished
  -- No successor is left: the block is finished.
  | (b, []) :: rest => g.walk rest seen (b :: finished)
  | (b, s :: left) :: rest =>
    -- A new block goes on top of the stack; any other successor is passed over.
    if _h : s ∈ g.nodes ∧ s ∉ seen then
      g.walk ((s, g.succ s) :: (b, left) :: rest) (s :: seen) finished
    else
      g.walk ((b, left) :: rest) seen finished
termination_by unseenWeight g.visitWeight seen g.nodes + stackWeight stack
decreasing_by
  · simp [stackWeight]
  · have := unseenWeight_cons_le g.visitWeight _h.1 _h.2
    simp only [stackWeight, visitWeight, List.length_cons] at *
    omega
  · simp [stackWeight]

/-- The blocks reachable from the entry in reverse postorder; none if there is no entry. -/
def reversePostorder (g : Cfg) : List BlockId :=
  match g.entry with
  | some e => if g.has e then g.walk [(e, g.succ e)] [e] [] else []
  | none => []

/-- Whether the entry exists and every successor of a reachable block exists. -/
def closed (g : Cfg) : Bool :=
  (match g.entry with | some e => g.has e | none => false) &&
    g.reversePostorder.all fun b => (g.succ b).all g.has

/-- The reachable blocks in postorder, the entry last; none if there is no entry, and a fault if the
entry or a successor of a reachable block does not exist. -/
def postorder (g : Cfg) : Except Fault (List BlockId) :=
  match g.entry with
  | none => .ok []
  | some _ => if g.closed then .ok g.reversePostorder.reverse else .error .outOfBounds

end Cfg

end LoopHoist
