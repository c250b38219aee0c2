import LoopHoist.Flow.Dominators

/-!
# Natural loops and their nest

A back edge goes from a block to one that dominates it. All back edges into one block, the header,
make one loop: the header and every reachable block from which one of their sources, the latches,
can be reached without passing through the header. Two loops are disjoint or one lies inside the
other, so the loops form a forest; the parent of a loop is the smallest other loop around its
header. `LoopForest.postorder` lists every loop after the loops inside it.

The preheader of a loop is the one place outside it from which it is entered: the only predecessor
of the header that is not in the loop, if the header is its only successor and it dominates the
header.
-/

namespace LoopHoist

/-- A natural loop. -/
structure Loop where
  /-- The block through which the loop is entered. -/
  header : BlockId
  /-- The sources of the back edges, in program order. -/
  latches : List BlockId
  /-- The body, header included, in program order. -/
  blocks : List BlockId
  /-- The blocks outside that the body branches to, in program order. -/
  exits : List BlockId
  /-- The one place outside from which the loop is entered, if there is one. -/
  preheader : Option BlockId
deriving DecidableEq, Inhabited

namespace Loop

/-- Whether a block is in the body. -/
def contains (l : Loop) (b : BlockId) : Bool := l.blocks.contains b

/-- The number of blocks of the body. -/
def size (l : Loop) : Nat := l.blocks.length

/-- Whether the body is larger than that of another loop and holds its header. -/
def encloses (outer inner : Loop) : Bool :=
  outer.contains inner.header && inner.size < outer.size

end Loop

namespace Cfg

/-- The sources of back edges into a block, in program order. -/
def latches (g : Cfg) (d : Dominators) (header : BlockId) : List BlockId :=
  (g.preds header).filter fun tail => d.reachable tail && d.dominates header tail

/-- The blocks with a back edge into them, in program order. -/
def headers (g : Cfg) (d : Dominators) : List BlockId :=
  g.nodes.filter fun b => !(g.latches d b).isEmpty

/-- The body of the loop of a header, in no particular order: what reaches a latch through reachable
blocks without passing through the header, and the header. -/
def loopMembers (g : Cfg) (d : Dominators) (header : BlockId) : List BlockId :=
  -- The header counts as seen, so the search does not go beyond it.
  closure d.order g.preds (g.latches d header) [header]

/-- The only predecessor of the header outside the body, if the header is all it branches to and it
dominates the header. -/
def preheader? (g : Cfg) (d : Dominators) (header : BlockId) (members : List BlockId) :
    Option BlockId :=
  match (g.preds header).filter fun p => !members.contains p with
  | [p] => if g.succ p = [header] && d.dominates p header then some p else none
  | _ => none

/-- The natural loop of a header. -/
def loopAt (g : Cfg) (d : Dominators) (header : BlockId) : Loop :=
  let members := g.loopMembers d header
  { header
    latches := g.latches d header
    blocks := g.nodes.filter fun b => members.contains b
    exits := g.nodes.filter fun s =>
      !members.contains s && members.any fun b => (g.succ b).contains s
    preheader := g.preheader? d header members }

end Cfg

/-! ## Finding the loops

The loops are found by look-ups in the graph and by climbs in the dominator tree, of which each may
fault. -/

namespace Cfg

/-- The latches of a header, looked up. -/
def findLatches (g : Cfg) (d : Dominators) (header : BlockId) : Except Fault (List BlockId) := do
  (← g.predsAt header).filterM fun tail => d.dominatesAt header tail

/-- The preheader of a loop, looked up. -/
def findPreheader (g : Cfg) (d : Dominators) (header : BlockId) (members : List BlockId) :
    Except Fault (Option BlockId) := do
  match (← g.predsAt header).filter fun p => !members.contains p with
  | [p] =>
    if (← g.succAt p) = [header] then
      return if ← d.dominatesAt p header then some p else none
    else return none
  | _ => return none

/-- The natural loop of a header with its latches, looked up. -/
def findLoop (g : Cfg) (d : Dominators) (header : BlockId) (latches : List BlockId) :
    Except Fault Loop := do
  let members ← closureAt d.order g.predsAt latches [header]
  let targets ← members.mapM g.succAt
  let preheader ← g.findPreheader d header members
  return {
    header, latches, preheader
    blocks := g.nodes.filter fun b => members.contains b
    exits := g.nodes.filter fun s => !members.contains s && targets.any fun ts => ts.contains s }

end Cfg

/-- A loop of a forest, by its place among the headers in program order. -/
structure LoopId where
  /-- The place of the loop in its forest. -/
  index : Nat
deriving DecidableEq, Inhabited

/-- A loop is written `loop0`. -/
def LoopId.text (l : LoopId) : String := "loop" ++ l.index.repr

/-! ## The nest -/

/-- The smallest loop of a list that passes a test, the first one if there are several. -/
def smallestLoop? (loops : List Loop) (test : Loop → Bool) : Option LoopId :=
  ((loops.zipIdx.filter fun p => test p.1).minOn? fun p => p.1.size).map fun p => ⟨p.2⟩

/-- The smallest loop of a list is one of its loops that pass the test. -/
theorem exists_of_smallestLoop? {loops : List Loop} {test : Loop → Bool} {i : LoopId}
    (h : smallestLoop? loops test = some i) :
    ∃ l, loops[i.index]? = some l ∧ test l = true := by
  unfold smallestLoop? at h
  obtain ⟨p, hp, rfl⟩ := Option.map_eq_some_iff.1 h
  have hm := List.mem_filter.1 (List.minOn?_mem hp)
  exact ⟨p.1, List.mem_zipIdx_iff_getElem?.1 hm.1, hm.2⟩

/-- The parent of each loop of a list: the smallest loop around it. -/
def parentTable (loops : List Loop) : Array (Option LoopId) :=
  (loops.map fun l => smallestLoop? loops fun outer => outer.encloses l).toArray

/-- The loops of a graph with their nest. The parents follow from the loops; they are kept so that
each is looked for once. -/
structure LoopForest where
  /-- The loops, by header in program order. -/
  loops : List Loop
  /-- The parent of each loop, in the same order. -/
  parents : Array (Option LoopId) := parentTable loops
  /-- The parents are those of the loops. -/
  parents_eq : parents = parentTable loops := by rfl
deriving DecidableEq

instance : Inhabited LoopForest := ⟨{ loops := [] }⟩

/-- The loops of a graph: what `Cfg.findLoops` gives when no look-up faults. -/
def Cfg.loopForest (g : Cfg) (d : Dominators) : LoopForest :=
  { loops := (g.headers d).map (g.loopAt d) }

/-- The loops of a graph, looked up header by header. -/
def Cfg.findLoops (g : Cfg) (d : Dominators) : Except Fault LoopForest := do
  let found ← g.nodes.mapM fun b => return (b, ← g.findLatches d b)
  let loops ← (found.filter fun p => !p.2.isEmpty).mapM fun p => g.findLoop d p.1 p.2
  return { loops }

namespace LoopForest

/-- The number of loops. -/
def count (f : LoopForest) : Nat := f.loops.length

/-- The handles of the loops. -/
def ids (f : LoopForest) : List LoopId := (List.range f.loops.length).map LoopId.mk

/-- The loop of a handle. -/
def loop? (f : LoopForest) (i : LoopId) : Option Loop := f.loops[i.index]?

/-- The loop of a handle, which the caller promises to exist. -/
def loopAt (f : LoopForest) (i : LoopId) : Except Fault Loop :=
  match f.loop? i with
  | some l => .ok l
  | none => .error .outOfBounds

/-- The number of blocks of a loop. -/
def sizeOf (f : LoopForest) (i : LoopId) : Nat :=
  match f.loop? i with
  | some l => l.size
  | none => 0

/-- The parent of a loop: the smallest loop around it. -/
def parent? (f : LoopForest) (i : LoopId) : Option LoopId := f.parents[i.index]?.join

/-- The loops directly inside a loop, by header. -/
def children (f : LoopForest) (i : LoopId) : List LoopId :=
  f.ids.filter fun j => f.parent? j == some i

/-- The outermost loops, by header. -/
def roots (f : LoopForest) : List LoopId := f.ids.filter fun j => (f.parent? j).isNone

/-- The parent is what the loops alone say it is. -/
theorem parent?_eq (f : LoopForest) (i : LoopId) :
    f.parent? i =
      (f.loop? i).bind fun l => smallestLoop? f.loops fun outer => outer.encloses l := by
  unfold parent? loop?
  rw [f.parents_eq, parentTable, List.getElem?_toArray, List.getElem?_map]
  cases f.loops[i.index]? <;> rfl

/-- A loop is smaller than its parent. -/
theorem sizeOf_lt_of_parent? {f : LoopForest} {i j : LoopId} (h : f.parent? i = some j) :
    f.sizeOf i < f.sizeOf j := by
  rw [parent?_eq] at h
  obtain ⟨l, hl, hs⟩ := Option.bind_eq_some_iff.1 h
  obtain ⟨outer, ho, he⟩ := exists_of_smallestLoop? hs
  have ho' : f.loop? j = some outer := ho
  simp only [Loop.encloses, Bool.and_eq_true, decide_eq_true_eq] at he
  simp only [sizeOf, hl, ho']
  exact he.2

/-- A child is smaller than its parent. -/
theorem sizeOf_lt_of_mem_children {f : LoopForest} {i j : LoopId} (h : j ∈ f.children i) :
    f.sizeOf j < f.sizeOf i := by
  simp only [children, List.mem_filter, beq_iff_eq] at h
  exact sizeOf_lt_of_parent? h.2

/-- The number of blocks of the largest loop. -/
def maxSize (f : LoopForest) : Nat := (f.loops.map Loop.size).max?.getD 0

/-- No loop is larger than the largest. -/
theorem sizeOf_le_maxSize (f : LoopForest) (i : LoopId) : f.sizeOf i ≤ f.maxSize := by
  unfold sizeOf maxSize
  split
  · next l h => exact List.le_max?_getD_of_mem (List.mem_map_of_mem (List.mem_of_getElem? h))
  · exact Nat.zero_le _

/-- The number of loops on the way out from a loop, itself included: one for an outermost loop. -/
def depth (f : LoopForest) (i : LoopId) : Nat :=
  match _h : f.parent? i with
  | some p => f.depth p + 1
  | none => 1
termination_by f.maxSize - f.sizeOf i
decreasing_by
  have h1 := sizeOf_lt_of_parent? _h
  have h2 := f.sizeOf_le_maxSize p
  omega

/-- The innermost loop of a block: the deepest that contains it, the last one if there are
several. -/
def innermost? (f : LoopForest) (b : BlockId) : Option LoopId :=
  (f.ids.filter fun i => (f.loop? i).any (·.contains b)).reverse.maxOn? f.depth

/-- A loop after all loops inside it, the loops directly inside in order. -/
def postorderFrom (f : LoopForest) (i : LoopId) : List LoopId :=
  ((f.children i).attach.flatMap fun c => f.postorderFrom c.1) ++ [i]
termination_by f.sizeOf i
decreasing_by exact sizeOf_lt_of_mem_children c.2

/-- Every loop, after the loops inside it. -/
def postorder (f : LoopForest) : List LoopId := f.roots.flatMap f.postorderFrom

end LoopForest

end LoopHoist
