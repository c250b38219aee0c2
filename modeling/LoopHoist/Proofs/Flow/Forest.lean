import LoopHoist.Proofs.Code.Validity
import LoopHoist.Proofs.Flow.Nest

/-!
# The loop forest

The forest of a graph has one loop for each block with a back edge into it, and no others
(`HasTree.exists_loop?`). Each of them is the natural loop of its header as paths tell
(`Cfg.IsNatural`): its latches, its body, the dominance of the header and the one way in are all
said without regard to how they are computed (`HasTree.isNatural`).
-/

namespace LoopHoist

namespace Cfg

variable {g : Cfg} {d : Dominators} {e h t x : BlockId} {i : LoopId} {l : Loop}

/-! ## Natural loops -/

/-- Whether a loop is the natural loop of its header, as the paths of the graph tell. -/
structure IsNatural (g : Cfg) (l : Loop) : Prop where
  /-- The latches are the sources of the back edges into the header. -/
  latches : ∀ t, t ∈ l.latches ↔ g.IsLatch l.header t
  /-- No latch is listed twice. -/
  latches_nodup : l.latches.Nodup
  /-- The blocks are the header and what reaches a latch around the header. -/
  blocks : ∀ x, x ∈ l.blocks ↔ g.InBody l.header x
  /-- No block is listed twice. -/
  blocks_nodup : l.blocks.Nodup
  /-- The loop contains its blocks. -/
  contains : ∀ x, l.contains x = true ↔ g.InBody l.header x
  /-- The header dominates the blocks. -/
  dominates : ∀ x ∈ l.blocks, g.Dominates l.header x
  /-- Where a path from the entry comes into the body, starts in it included, it is at the
  header. -/
  entered : ∀ e b xs x ys, g.entry = some e → g.Path e b (xs ++ x :: ys) → x ∈ l.blocks →
    (∀ y ∈ ys.head?, y ∉ l.blocks) → x = l.header

/-- Where a path from the entry comes into a body, it is at the header. -/
theorem InBody.eq_of_entered {xs ys : List BlockId} (he : g.entry = some e)
    (q : g.Path e b (xs ++ x :: ys)) (hx : g.InBody h x)
    (hy : ∀ y ∈ ys.head?, ¬ g.InBody h y) : x = h := by
  obtain ⟨-, ⟨rfl, rfl⟩ | ⟨c, r, hs⟩⟩ := q.split.1.eq_or_exists_step
  · -- The path starts here, and the header is on it.
    exact (List.mem_singleton.1 (hx.dominates e [e] he .here)).symm
  · obtain ⟨y, ys', rfl⟩ := List.exists_cons_of_ne_nil (List.ne_nil_of_mem r.target_mem)
    obtain ⟨rfl, -⟩ := r.eq_or_exists_step
    by_contra hne
    exact hy y rfl (hx.of_mem_succ hne hs ⟨e, y :: ys', he, r⟩)

namespace HasTree

variable (ht : g.HasTree d)
include ht

/-- The loops of the forest are the natural loops of their headers. -/
theorem isNatural (hl : g.IsLoop d l) : g.IsNatural l where
  latches t := by
    rw [hl.eq]
    exact ht.mem_latches_iff
  latches_nodup := by
    rw [hl.eq]
    exact (g.nodes_nodup.filter _).filter _
  blocks x := ht.mem_blocks_iff hl
  blocks_nodup := hl.blocks_nodup
  contains x := ht.contains_iff hl
  dominates x hx := ((ht.mem_blocks_iff hl).1 hx).dominates
  entered e b xs x ys he q hx hy := by
    simp only [ht.mem_blocks_iff hl] at hx hy
    exact hx.eq_of_entered he q hy

/-- A block with a back edge into it is the header of a loop of the forest. -/
theorem exists_loop? (hlatch : g.IsLatch h t) :
    ∃ i l, (g.loopForest d).loop? i = some l ∧ l.header = h := by
  have hmem : h ∈ g.headers d := by
    refine List.mem_filter.2 ⟨mem_nodes.2 (has_of_reachable ht.closed hlatch.reachable_header), ?_⟩
    rw [Bool.not_eq_true', List.isEmpty_eq_false_iff]
    exact List.ne_nil_of_mem (ht.mem_latches_iff.2 hlatch)
  obtain ⟨k, hk⟩ := List.getElem?_of_mem hmem
  refine ⟨⟨k⟩, g.loopAt d h, ?_, rfl⟩
  simp only [LoopForest.loop?, loopForest, List.getElem?_map, hk, Option.map_some]

end HasTree

/-- On every function whose entry exists and whose reachable blocks branch only to existing blocks,
the forest has exactly one loop for each block that has a back edge into it, and no others; each is
the natural loop of its header. -/
theorem loopForest_natural (f : Function) (e : BlockId) (he : f.entry = some e)
    (hh : f.hasBlock e = true)
    (hs : ∀ b, (Cfg.ofFunction f).Reachable b → ∀ s ∈ f.successors b, f.hasBlock s = true) :
    ∃ d, (Cfg.ofFunction f).dominators = .ok d ∧
      (∀ h t, (Cfg.ofFunction f).IsLatch h t →
        ∃! i, ∃ l, ((Cfg.ofFunction f).loopForest d).loop? i = some l ∧ l.header = h) ∧
      ∀ i l, ((Cfg.ofFunction f).loopForest d).loop? i = some l →
        (∃ t, (Cfg.ofFunction f).IsLatch l.header t) ∧ (Cfg.ofFunction f).IsNatural l := by
  obtain ⟨d, hd⟩ := exists_dominators (closed_ofFunction he hh hs)
  have ht := hasTree_of_dominators hd
  refine ⟨d, hd, fun h t hlatch => ?_, fun i l hl => ?_⟩
  · obtain ⟨i, l, hl, rfl⟩ := ht.exists_loop? hlatch
    exact ⟨i, ⟨l, hl, rfl⟩, fun j ⟨m, hm, heq⟩ => eq_of_header_eq hm hl heq⟩
  · exact ⟨ht.exists_isLatch (isLoop_of_loop? hl), ht.isNatural (isLoop_of_loop? hl)⟩

/-- The knot has one loop at its entry, and the cycle of two entries is in it. -/
theorem loopForest_natural_knot :
    ∃ d, (Cfg.ofFunction knot).dominators = .ok d ∧
      (∃! i, ∃ l, ((Cfg.ofFunction knot).loopForest d).loop? i = some l ∧ l.header = ⟨0⟩) ∧
      ∀ i l, ((Cfg.ofFunction knot).loopForest d).loop? i = some l → l.header = ⟨0⟩ →
        (∀ t, t ∈ l.latches ↔ t = ⟨3⟩) ∧ ⟨1⟩ ∈ l.blocks ∧ ⟨2⟩ ∈ l.blocks := by
  have hw : knot.WellFormed := Function.violation?_eq_none_iff.1 (by decide)
  obtain ⟨d, hd, hone, hall⟩ := loopForest_natural knot ⟨0⟩ (by decide) (by decide)
    fun b _ s hs => hw.hasBlock_of_mem_successors hs
  have hentry : (Cfg.ofFunction knot).Reachable ⟨0⟩ := reachable_entry rfl
  have hright : (Cfg.ofFunction knot).Reachable ⟨2⟩ := hentry.step (by decide)
  have hlatch : (Cfg.ofFunction knot).IsLatch ⟨0⟩ ⟨3⟩ :=
    ⟨hright.step (by decide), by decide, entry_dominates rfl _⟩
  have hpreds : (Cfg.ofFunction knot).preds ⟨0⟩ = [⟨3⟩] := by decide
  have hway : (Cfg.ofFunction knot).Path ⟨2⟩ ⟨3⟩ [⟨3⟩, ⟨2⟩] := .step .here (by decide)
  have hround : (Cfg.ofFunction knot).Path ⟨1⟩ ⟨3⟩ [⟨3⟩, ⟨2⟩, ⟨1⟩] :=
    .step (.step .here (by decide)) (by decide)
  refine ⟨d, hd, hone ⟨0⟩ ⟨3⟩ hlatch, fun i l hl hh => ?_⟩
  have hloop := (hall i l hl).2
  rw [hloop.blocks, hloop.blocks, hh]
  refine ⟨fun t => ?_, .inr ⟨hentry.step (by decide), ⟨3⟩, _, hlatch, hround, by decide⟩,
    .inr ⟨hright, ⟨3⟩, _, hlatch, hway, by decide⟩⟩
  rw [hloop.latches, hh]
  refine ⟨fun hlatch' => ?_, fun heq => heq ▸ hlatch⟩
  have hmem := mem_preds.2 hlatch'.edge
  rw [hpreds] at hmem
  exact List.mem_singleton.1 hmem

end Cfg

end LoopHoist
