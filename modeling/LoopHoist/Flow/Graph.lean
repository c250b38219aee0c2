import LoopHoist.Code.Function

/-!
# The graph of blocks

The edges of a function, as its terminators name them. Successors are kept; predecessors are derived
from them, in program order, so both directions describe the same edges (`mem_preds`). Code motion
changes no edge, so one graph serves a whole run of the pass.

The analyses that run make the graph, and go through it, by look-ups that fault on a handle that
names nothing (`Function.graph`, `Cfg.succAt`, `Cfg.predsAt`). `Cfg.ofFunction`, `Cfg.succ` and
`Cfg.preds` say what is there to be found.
-/

namespace LoopHoist

/-- The blocks of a function with their successors, and the block where execution starts. -/
structure Cfg where
  /-- The block where execution starts. -/
  entry : Option BlockId
  /-- The successors of each block. -/
  succs : Array (List BlockId)
deriving DecidableEq, Inhabited

/-- The graph of a function, made by looking up its terminators. -/
def Function.graph (f : Function) : Except Fault Cfg := do
  return { entry := f.entry, succs := (← f.blockIds.mapM f.successorsAt).toArray }

namespace Cfg

/-- The graph of a function: what `Function.graph` gives when no look-up faults. -/
def ofFunction (f : Function) : Cfg :=
  { entry := f.entry, succs := (f.blockIds.map f.successors).toArray }

/-- The number of blocks. -/
def size (g : Cfg) : Nat := g.succs.size

/-- Whether the graph has a block of this handle. -/
def has (g : Cfg) (b : BlockId) : Bool := b.index < g.succs.size

/-- The blocks in program order. -/
def nodes (g : Cfg) : List BlockId := (List.range g.succs.size).map BlockId.mk

/-- The successors of a block, each once; none for a block that does not exist. -/
def succ (g : Cfg) (b : BlockId) : List BlockId :=
  match g.succs[b.index]? with
  | some targets => targets
  | none => []

/-- The predecessors of a block, in program order. -/
def preds (g : Cfg) (b : BlockId) : List BlockId := g.nodes.filter fun a => (g.succ a).contains b

/-- The successors of a block that the caller promises to exist. -/
def succAt (g : Cfg) (b : BlockId) : Except Fault (List BlockId) :=
  match g.succs[b.index]? with
  | some targets => .ok targets
  | none => .error .outOfBounds

/-- The predecessors of a block that the caller promises to exist. -/
def predsAt (g : Cfg) (b : BlockId) : Except Fault (List BlockId) :=
  if g.has b then .ok (g.preds b) else .error .outOfBounds

/-- The nodes are exactly the existing blocks. -/
theorem mem_nodes {g : Cfg} {b : BlockId} : b ∈ g.nodes ↔ g.has b = true := by
  cases b
  simp [nodes, has]

/-- A block with a successor exists. -/
theorem has_of_mem_succ {g : Cfg} {a b : BlockId} (h : b ∈ g.succ a) : g.has a = true := by
  unfold succ at h
  unfold has
  split at h
  · next hs => exact decide_eq_true (Array.getElem?_eq_some_iff.1 hs).1
  · simp at h

/-- Predecessors and successors describe the same edges. -/
theorem mem_preds {g : Cfg} {a b : BlockId} : a ∈ g.preds b ↔ b ∈ g.succ a := by
  unfold preds
  simp only [List.mem_filter, List.contains_iff_mem, mem_nodes, and_iff_right_iff_imp]
  exact has_of_mem_succ

end Cfg

end LoopHoist
