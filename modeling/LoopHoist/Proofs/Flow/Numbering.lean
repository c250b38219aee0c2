import LoopHoist.Proofs.Code.Validity
import LoopHoist.Proofs.Flow.DominatorTree
import Mathlib.Data.List.Nodup

/-!
# The postorder and its numbers

The postorder is the reverse postorder read from its end, so the number of a block, its place in the
postorder, and its rank count the same list from its two ends (`number_add_rank`). What the
depth-first walk gives is said here of the list that the graph is asked for (`IsPostorder`): it
lists the reachable blocks, a dominator after what it dominates, and an edge that does not go down
in number leads back to where it came from. The code motion goes through the list backwards and so
meets each definition before its uses; the dominator computation relies on it for convergence.
-/

namespace LoopHoist

namespace Cfg

variable {g : Cfg} {a b e : BlockId} {order : List BlockId}

/-! ## Numbers -/

/-- The place of a block in the postorder; of the listed blocks the entry has the highest. -/
def number (g : Cfg) (b : BlockId) : Nat := g.reversePostorder.reverse.idxOf b

/-- Behind a block in the postorder come those before it in the reverse postorder. -/
theorem number_add_rank (hb : b ∈ g.reversePostorder) :
    g.number b + g.rank b + 1 = g.reversePostorder.length := by
  obtain ⟨xs, ys, hsplit⟩ := List.append_of_mem hb
  have hn : b ∉ ys := by
    have h := g.reversePostorder_nodup
    rw [hsplit] at h
    exact (List.nodup_cons.1 (List.nodup_append.1 h).2.1).1
  have hnumber : g.number b = ys.length := by
    rw [number, hsplit, List.reverse_append, List.reverse_cons, List.append_assoc,
      List.idxOf_append_of_notMem (by simpa using hn), List.singleton_append, List.idxOf_cons_self,
      List.length_reverse, Nat.add_zero]
  have hlength : g.reversePostorder.length = xs.length + ys.length + 1 := by
    rw [hsplit, List.length_append, List.length_cons]
    omega
  rw [hnumber, rank_eq_length hsplit, hlength]
  omega

/-- Numbers go up where ranks go down. -/
theorem number_lt_iff (ha : a ∈ g.reversePostorder) (hb : b ∈ g.reversePostorder) :
    g.number a < g.number b ↔ g.rank b < g.rank a := by
  have := number_add_rank ha
  have := number_add_rank hb
  omega

/-- Two listed blocks have different ranks. -/
theorem rank_inj (ha : a ∈ g.reversePostorder) (h : g.rank a = g.rank b) : a = b :=
  (List.idxOf_inj ha).1 h

/-! ## The postorder -/

/-- What is to hold of a list of blocks in postorder. -/
structure IsPostorder (g : Cfg) (order : List BlockId) : Prop where
  /-- No block is listed twice. -/
  nodup : order.Nodup
  /-- The listed blocks are the reachable ones. -/
  mem_iff : ∀ b, b ∈ order ↔ g.Reachable b
  /-- The entry is listed last. -/
  last : order.getLast? = g.entry
  /-- In the reversed list a block comes after all others that dominate it. -/
  dominator_first : ∀ a b, g.Reachable a → g.Reachable b → a ≠ b → g.Dominates a b →
    order.reverse.idxOf a < order.reverse.idxOf b
  /-- An edge to a block that is not listed before the source of the edge leads back to it. -/
  back : ∀ u v, g.Reachable u → g.Reachable v → v ∈ g.succ u →
    ¬ order.idxOf v < order.idxOf u → ∃ bs, g.Path v u bs

/-- The reverse postorder of a closed graph, reversed, is a postorder. -/
theorem isPostorder_reverse (hc : g.closed = true) : g.IsPostorder g.reversePostorder.reverse where
  nodup := List.nodup_reverse.2 g.reversePostorder_nodup
  mem_iff b := List.mem_reverse.trans (mem_reversePostorder_iff hc)
  last := by
    obtain ⟨e, he, -⟩ := exists_entry_of_closed hc
    obtain ⟨xs, hxs⟩ := exists_reversePostorder_eq hc he
    rw [List.getLast?_reverse, hxs, he, List.head?_cons]
  dominator_first a b _ hb hne hdom := by
    rw [List.reverse_reverse]
    exact rank_lt_of_dominates hc hdom hne hb
  back u v hu hv hs hle := by
    apply exists_path_of_rank_le hc hu hs
    have hnumber : g.number v < g.number u ↔ g.rank u < g.rank v :=
      number_lt_iff ((mem_reversePostorder_iff hc).2 hv) ((mem_reversePostorder_iff hc).2 hu)
    rw [number, number] at hnumber
    omega

/-- On every function whose entry exists and whose reachable blocks branch only to existing blocks,
the postorder is defined, and it is one: it lists each reachable block once and no other, the entry
last; read backwards it has dominators first; and an edge that does not go to an earlier block leads
back to where it came from. -/
theorem postorder_ofFunction (f : Function) (e : BlockId) (he : f.entry = some e)
    (hh : f.hasBlock e = true)
    (hs : ∀ b, (Cfg.ofFunction f).Reachable b → ∀ s ∈ f.successors b, f.hasBlock s = true) :
    ∃ order, (Cfg.ofFunction f).postorder = .ok order ∧ (Cfg.ofFunction f).IsPostorder order := by
  have hc : (Cfg.ofFunction f).closed = true := closed_ofFunction he hh hs
  refine ⟨(Cfg.ofFunction f).reversePostorder.reverse, ?_, isPostorder_reverse hc⟩
  have hentry : (Cfg.ofFunction f).entry = some e := he
  simp only [postorder, hentry, hc, if_true]

/-- The knot in postorder. The two blocks of the cycle are listed one after the other although
neither dominates the other, and the stray block is not listed. -/
theorem postorder_knot :
    (Cfg.ofFunction knot).postorder = .ok [⟨3⟩, ⟨2⟩, ⟨1⟩, ⟨0⟩] ∧
      (Cfg.ofFunction knot).IsPostorder [⟨3⟩, ⟨2⟩, ⟨1⟩, ⟨0⟩] := by
  have hw : knot.WellFormed := Function.violation?_eq_none_iff.1 (by decide)
  obtain ⟨order, horder, hpost⟩ := postorder_ofFunction knot ⟨0⟩ (by decide) (by decide)
    fun b _ s hs => hw.hasBlock_of_mem_successors hs
  have heq : (Cfg.ofFunction knot).postorder = .ok [⟨3⟩, ⟨2⟩, ⟨1⟩, ⟨0⟩] := by decide +kernel
  obtain rfl := Except.ok.inj (horder.symm.trans heq)
  exact ⟨heq, hpost⟩

end Cfg

end LoopHoist
