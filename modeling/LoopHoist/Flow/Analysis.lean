import LoopHoist.Flow.LoopForest
import LoopHoist.Memory.StackSlots

/-!
# The analyses of a function

The graph, the dominator tree and the loops of a function, each made from the one before, and its
stack slots. They are made once before anything is moved.
-/

namespace LoopHoist

/-- What is known of a function before anything is moved. -/
structure Analysis where
  /-- The graph of blocks. -/
  graph : Cfg
  /-- The dominator tree of the graph. -/
  dominators : Dominators
  /-- The loops of the graph. -/
  forest : LoopForest
  /-- The stack slots of the function. -/
  slots : StackSlots
deriving Inhabited

/-- The analyses of a function. It is a fault to ask for them when the function has no entry or a
reachable block names a missing one, and when any look-up that they need finds nothing. -/
def Function.analyze (f : Function) : Except Fault Analysis := do
  let graph ← f.graph
  let dominators ← graph.dominators
  return { graph, dominators, forest := ← graph.findLoops dominators, slots := ← f.stackSlots }

end LoopHoist
