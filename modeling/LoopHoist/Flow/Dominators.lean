import LoopHoist.Flow.Postorder

/-!
# Dominators

Block `a` dominates block `b` when every path from the entry to `b` passes through `a`. The
immediate dominators are found by refinement: a table holds for each block a candidate, at first for
the entry alone; a sweep goes through the blocks in reverse postorder and replaces the candidate of
each by the meeting point of its predecessors that have one; sweeps are repeated until one changes
nothing. `meet` climbs from two blocks to the first block on both of their chains, always from the
one further from the entry.

Both loops run on fuel and give nothing when it runs out: `meet` on the sum of the two ranks, which
each step lowers, and the sweeps on a bound for the total climb of all candidates. They give nothing
either where a rank or a candidate is looked up for a block that the table has no entry for. Without
a settled table there is no dominator tree, but a fault.
-/

namespace LoopHoist

/-- For each block its candidate for an immediate dominator; the entry has itself. -/
abbrev IdomTable := Array (Option BlockId)

namespace IdomTable

/-- Whether the table has an entry for a block. -/
def has (t : IdomTable) (b : BlockId) : Bool := b.index < t.size

/-- The candidate of a block. -/
def up (t : IdomTable) (b : BlockId) : Option BlockId := t[b.index]?.join

/-- The table with another candidate for a block. -/
def set (t : IdomTable) (b d : BlockId) : IdomTable := t.setIfInBounds b.index (some d)

/-- The first block on the chains of both blocks: the block of higher rank climbs to its candidate
until the two are one. Both have to be in the table for as long as they differ. -/
def meet (rank : BlockId → Nat) (t : IdomTable) : Nat → BlockId → BlockId → Option BlockId
  | 0, a, b => if a = b then some a else none
  | fuel + 1, a, b =>
    if a = b then some a
    else if !(t.has a && t.has b) then none
    else if rank b < rank a then
      match t.up a with
      | some a' => meet rank t fuel a' b
      | none => none
    else
      match t.up b with
      | some b' => meet rank t fuel a b'
      | none => none

/-- The meeting point of one block and a list of others. -/
def meetAll (rank : BlockId → Nat) (t : IdomTable) (first : BlockId) (others : List BlockId) :
    Option BlockId :=
  others.foldlM (fun current p => t.meet rank (rank p + rank current) p current) first

end IdomTable

namespace Cfg

/-- The place of a block in the reverse postorder; the entry has rank zero. -/
def rank (g : Cfg) (b : BlockId) : Nat := g.reversePostorder.idxOf b

/-- For each block its place in an order; the length of the order for a block that is not in it. -/
def rankTable (g : Cfg) (order : List BlockId) : Array Nat := (g.nodes.map order.idxOf).toArray

/-- The table of ranks holds the ranks. -/
theorem getD_rankTable {g : Cfg} {b : BlockId} (h : g.has b = true) (order : List BlockId) :
    (g.rankTable order).getD b.index order.length = order.idxOf b := by
  obtain ⟨b⟩ := b
  have hb : b < g.succs.size := of_decide_eq_true h
  rw [rankTable, nodes, Array.getD_eq_getD_getElem?, List.getElem?_toArray, List.getElem?_map,
    List.getElem?_map, List.getElem?_range hb]
  rfl

/-- The table after the candidate of one block is replaced by the meeting point of those of its
predecessors that have a candidate; as it was if none has. The block and its predecessors have to be
in the table. -/
def refineAt (g : Cfg) (rank : BlockId → Nat) (t : IdomTable) (b : BlockId) : Option IdomTable :=
  if (b :: g.preds b).all t.has then
    -- A predecessor without a candidate is unreachable, or its turn in the first sweep is to come.
    match (g.preds b).filter fun p => (t.up p).isSome with
    | [] => some t
    | p :: ps => (t.meetAll rank p ps).map fun d => t.set b d
  else none

/-- The table after every block but the first of `order` was refined in turn. -/
def sweep (g : Cfg) (rank : BlockId → Nat) (order : List BlockId) (t : IdomTable) :
    Option IdomTable :=
  order.tail.foldlM (fun t b => g.refineAt rank t b) t

/-- The first table, from the given one on, that a sweep leaves unchanged. -/
def settle (g : Cfg) (rank : BlockId → Nat) (order : List BlockId) : Nat → IdomTable →
    Option IdomTable
  | 0, _ => none
  | fuel + 1, t =>
    match g.sweep rank order t with
    | none => none
    | some t' => if t' = t then some t else g.settle rank order fuel t'

/-- The table in which only the entry has a candidate, itself. -/
def initialIdoms (g : Cfg) (entry : BlockId) : IdomTable :=
  IdomTable.set (Array.replicate g.size none) entry entry

/-- The table that no sweep changes any more. -/
def idomTable? (g : Cfg) : Option IdomTable :=
  match g.entry with
  | none => none
  | some e =>
    -- The first sweep gives every reachable block a candidate, each later one but the last lowers
    -- the rank of one, and a rank is below the number of blocks.
    let order := g.reversePostorder
    let ranks := g.rankTable order
    g.settle (fun b => ranks.getD b.index order.length) order (order.length * order.length + 2)
      (g.initialIdoms e)

end Cfg

/-- The dominator tree: the reachable blocks in reverse postorder, and the settled candidates. -/
structure Dominators where
  /-- The reachable blocks in reverse postorder. -/
  order : List BlockId
  /-- For each reachable block its immediate dominator, for the entry itself. -/
  idoms : IdomTable
deriving Inhabited

/-- The dominator tree of a graph. It is a fault to ask for it when the graph has no entry or is
not closed, and when the table does not settle. -/
def Cfg.dominators (g : Cfg) : Except Fault Dominators :=
  match g.entry with
  | none => .error .noEntryBlock
  | some _ =>
    if g.closed then
      match g.idomTable? with
      | some idoms => .ok { order := g.reversePostorder, idoms }
      | none => .error .unsettled
    else .error .outOfBounds

namespace Dominators

/-- The entry. -/
def root? (d : Dominators) : Option BlockId := d.order.head?

/-- Whether the entry reaches a block. -/
def reachable (d : Dominators) (b : BlockId) : Bool := d.order.contains b

/-- The immediate dominator of a block; the entry and unreachable blocks have none. -/
def idom? (d : Dominators) (b : BlockId) : Option BlockId :=
  match d.idoms.up b with
  | some a => if a = b then none else some a
  | none => none

/-- Whether the chain of immediate dominators from `b` meets `a`; nothing if the fuel runs out
before the chain ends. -/
def climbs (d : Dominators) (a : BlockId) : Nat → BlockId → Option Bool
  | 0, _ => none
  | fuel + 1, b =>
    if b = a then some true
    else
      match d.idom? b with
      | some up => d.climbs a fuel up
      | none => some false

/-- Whether `a` dominates `b`; every reachable block dominates itself, and nothing dominates or is
dominated by an unreachable block. -/
def dominates (d : Dominators) (a b : BlockId) : Bool :=
  d.reachable a && d.reachable b && d.climbs a d.order.length b == some true

/-- Whether `a` dominates `b`, by a climb that has to come to an end. -/
def dominatesAt (d : Dominators) (a b : BlockId) : Except Fault Bool :=
  if d.reachable a && d.reachable b then
    match d.climbs a d.order.length b with
    | some found => .ok found
    | none => .error .unsettled
  else .ok false

/-- Whether `a` dominates `b` and is another block. -/
def strictlyDominates (d : Dominators) (a b : BlockId) : Bool := a != b && d.dominates a b

end Dominators

end LoopHoist
