import LoopHoist.Proofs.Code.Lookup
import LoopHoist.Proofs.Flow.NaturalLoops

/-!
# The graph and its loops are found

The analyses that run go through a function, its graph and its dominator tree by look-ups. In a
function of which every block resolves none of them faults, and the graph is that of the function
(`Function.graph_eq_ok`); and in a graph with a dominator tree the search for the loops leaves the
graph nowhere, each climb that decides a dominance ends, and the loops are those of the graph
(`Cfg.HasTree.findLoops_eq_ok`).
-/

namespace LoopHoist

/-- The graph of a function is found. -/
theorem Function.graph_eq_ok {f : Function} (h : ∀ b, f.hasBlock b = true → f.Resolves b) :
    f.graph = .ok (.ofFunction f) := by
  rw [Function.graph, mapM_eq_ok fun b hb => (h b (mem_blockIds.1 hb)).successorsAt, ok_bind]
  rfl

namespace Cfg

variable {g : Cfg} {d : Dominators} {b h p : BlockId} {members : List BlockId}

/-- The successors of a block of the graph are found. -/
theorem succAt_eq_ok (hb : g.has b = true) : g.succAt b = .ok (g.succ b) := by
  have hsome : g.succs[b.index]? = some _ := Array.getElem?_eq_getElem (of_decide_eq_true hb)
  rw [succAt, succ, hsome]

/-- The predecessors of a block of the graph are found. -/
theorem predsAt_eq_ok (hb : g.has b = true) : g.predsAt b = .ok (g.preds b) := if_pos hb

namespace HasTree

variable (ht : g.HasTree d)
include ht

/-- The latches of a block are found. -/
theorem findLatches_eq_ok (hb : g.has b = true) : g.findLatches d b = .ok (g.latches d b) := by
  -- What is dominated is reachable, so asking for dominance alone asks for both.
  have htest : ∀ t, (d.reachable t && d.dominates b t) = d.dominates b t := fun t => by
    rw [Bool.eq_iff_iff, Bool.and_eq_true, and_iff_right_iff_imp]
    exact fun hdom => ht.reachable_iff.2 (ht.dominates_iff.1 hdom).2.1
  rw [findLatches, predsAt_eq_ok hb, ok_bind, filterM_eq_ok fun t _ => ht.dominatesAt_eq_ok b t]
  simp only [latches, htest]

/-- The body of a loop is found. -/
theorem closureAt_eq_ok (h : BlockId) :
    closureAt d.order g.predsAt (g.latches d h) [h] = .ok (g.loopMembers d h) :=
  LoopHoist.closureAt_eq_ok
    (fun _ hb => predsAt_eq_ok (has_of_reachable ht.closed (ht.mem_order.1 hb))) _ _

/-- The preheader of a loop is found, or that there is none. -/
theorem findPreheader_eq_ok (hh : g.has h = true) :
    g.findPreheader d h members = .ok (g.preheader? d h members) := by
  have hmem : ∀ p ∈ (g.preds h).filter fun p => !members.contains p, g.has p = true := fun p hp =>
    has_of_mem_succ (mem_preds.1 (List.mem_filter.1 hp).1)
  rw [findPreheader, predsAt_eq_ok hh, ok_bind, preheader?]
  rcases hout : (g.preds h).filter fun p => !members.contains p with _ | ⟨p, _ | ⟨q, rest⟩⟩
  · rfl
  · simp only [succAt_eq_ok (hmem p (hout ▸ List.mem_cons_self)), ht.dominatesAt_eq_ok, ok_bind]
    by_cases hs : g.succ p = [h]
    · simp only [hs, if_true, decide_true, Bool.true_and]
      rfl
    · simp only [hs, if_false, decide_false, Bool.false_and]
      rfl
  · rfl

/-- The loop of a header is found. -/
theorem findLoop_eq_ok (hh : g.has h = true) (hl : g.latches d h ≠ []) :
    g.findLoop d h (g.latches d h) = .ok (g.loopAt d h) := by
  obtain ⟨t, hmem⟩ := List.exists_mem_of_ne_nil _ hl
  have hhas : ∀ x ∈ g.loopMembers d h, g.has x = true := fun x hx =>
    has_of_reachable ht.closed ((ht.mem_loopMembers.1 hx).reachable (ht.mem_latches_iff.1 hmem))
  rw [findLoop, ht.closureAt_eq_ok, ok_bind, mapM_eq_ok fun x hx => succAt_eq_ok (hhas x hx),
    ok_bind, ht.findPreheader_eq_ok hh, ok_bind]
  simp only [pure, Except.pure, loopAt, List.any_map, Function.comp_def]

/-- The loops of the graph are found. -/
theorem findLoops_eq_ok : g.findLoops d = .ok (g.loopForest d) := by
  have hlatches : ∀ b ∈ g.nodes, (do return (b, ← g.findLatches d b) : Except Fault _) =
      .ok (b, g.latches d b) := fun b hb => by
    rw [ht.findLatches_eq_ok (mem_nodes.1 hb)]
    rfl
  have hloops : ∀ q ∈ (g.nodes.map fun b => (b, g.latches d b)).filter (fun q => !q.2.isEmpty),
      g.findLoop d q.1 q.2 = .ok (g.loopAt d q.1) := fun q hq => by
    obtain ⟨hmem, hne⟩ := List.mem_filter.1 hq
    obtain ⟨b, hb, rfl⟩ := List.mem_map.1 hmem
    exact ht.findLoop_eq_ok (mem_nodes.1 hb) fun hnil => by simp [hnil] at hne
  rw [findLoops, mapM_eq_ok hlatches, ok_bind, mapM_eq_ok hloops, ok_bind]
  simp only [pure, Except.pure, loopForest, headers, List.filter_map, List.map_map,
    Function.comp_def]

end HasTree

end Cfg

end LoopHoist
