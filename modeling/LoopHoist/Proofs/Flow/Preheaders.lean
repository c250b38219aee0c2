import LoopHoist.Proofs.Flow.Containment

/-!
# Preheaders

Only the predecessors of the header are looked at when a preheader is chosen. That it is the one way
into the whole loop, and that it is in exactly the loops around the loop, follows from dominance
(`IsGate.eq_of_entering`, `IsGate.inBody_iff`). `Cfg.preheader_gate` collects what a preheader is in
the forest of a function.
-/

namespace LoopHoist

namespace Cfg

variable {g : Cfg} {d : Dominators} {a b p : BlockId} {i j : LoopId} {l m : Loop}

/-- What a block is that is the one gate to a loop, one level further out. -/
structure IsPreheader (g : Cfg) (f : LoopForest) (i : LoopId) (l : Loop) (p : BlockId) : Prop where
  /-- It is reachable. -/
  reachable : g.Reachable p
  /-- It is not in the loop. -/
  outside : l.contains p = false
  /-- It strictly dominates every block of the loop. -/
  dominates : ∀ x ∈ l.blocks, p ≠ x ∧ g.Dominates p x
  /-- It is the preheader of no other loop. -/
  unique : ∀ j m, f.loop? j = some m → m.preheader = some p → j = i
  /-- A step of a path from the entry that comes into the loop is the one from it to the header. -/
  entered : ∀ e c xs b a ys, g.entry = some e → g.Path e c (xs ++ b :: a :: ys) →
    l.contains a = false → l.contains b = true → a = p ∧ b = l.header
  /-- A step of a path from the entry that leaves it goes to the header. -/
  left : ∀ e c xs b ys, g.entry = some e → g.Path e c (xs ++ b :: p :: ys) → b = l.header
  /-- The loops that contain it are those strictly around the loop. -/
  around : ∀ j m, f.loop? j = some m → (m.contains p = true ↔ l.StrictlyWithin m)
  /-- Its innermost loop is the parent of the loop. -/
  innermost : f.innermost? p = f.parent? i

/-- Two blocks that follow each other on a path from the entry are joined by an edge, and
reachable. -/
theorem Path.edge_of_split {e c : BlockId} {xs ys : List BlockId} (he : g.entry = some e)
    (q : g.Path e c (xs ++ b :: a :: ys)) : g.Reachable a ∧ b ∈ g.succ a := by
  obtain ⟨-, ⟨-, hnil⟩ | ⟨a', r, hs⟩⟩ := q.split.1.eq_or_exists_step
  · cases hnil
  · obtain ⟨rfl, -⟩ := r.eq_or_exists_step
    exact ⟨⟨e, _, he, r⟩, hs⟩

namespace HasTree

variable (ht : g.HasTree d)
include ht

/-- The loops that contain the preheader of a loop are those around the loop. -/
theorem contains_preheader_iff (hl : (g.loopForest d).loop? i = some l)
    (hp : l.preheader = some p) (hm : (g.loopForest d).loop? j = some m) :
    m.contains p = true ↔ m.encloses l = true := by
  obtain ⟨hgate, hreach⟩ := ht.isGate_of_preheader (isLoop_of_loop? hl) hp
  obtain ⟨t, hlatch⟩ := ht.exists_isLatch (isLoop_of_loop? hm)
  rw [ht.contains_iff (isLoop_of_loop? hm), hgate.inBody_iff hlatch hreach,
    ht.encloses_iff (isLoop_of_loop? hl) (isLoop_of_loop? hm)]

/-- The innermost loop of the preheader of a loop is the parent of the loop. -/
theorem innermost?_preheader (hl : (g.loopForest d).loop? i = some l)
    (hp : l.preheader = some p) :
    (g.loopForest d).innermost? p = (g.loopForest d).parent? i := by
  have htests : (g.loopForest d).loops.zipIdx.filter (fun q => q.1.contains p) =
      (g.loopForest d).loops.zipIdx.filter fun q => q.1.encloses l := by
    refine List.filter_congr fun q hq => ?_
    have hm : (g.loopForest d).loop? ⟨q.2⟩ = some q.1 := List.mem_zipIdx_iff_getElem?.1 hq
    exact Bool.eq_iff_iff.2 (ht.contains_preheader_iff hl hp hm)
  rw [LoopForest.parent?_eq, hl, ht.innermost?_eq_smallestLoop?, Option.bind_some]
  unfold smallestLoop?
  rw [htests]

/-- The preheader of a loop is the one gate to it, one level further out. -/
theorem isPreheader (hl : (g.loopForest d).loop? i = some l) (hp : l.preheader = some p) :
    g.IsPreheader (g.loopForest d) i l p := by
  have hloop := isLoop_of_loop? hl
  obtain ⟨hgate, hreach⟩ := ht.isGate_of_preheader hloop hp
  have hout : ∀ {x}, l.contains x = false → ¬ g.InBody l.header x := fun hx hin => by
    rw [(ht.contains_iff hloop).2 hin] at hx
    cases hx
  refine ⟨hreach, Bool.eq_false_iff.2 fun hc => hgate.outside ((ht.contains_iff hloop).1 hc),
    fun x hx => ?_, fun j m hm hpm => ?_, fun e c xs b a ys he q ha hb => ?_,
    fun e c xs b ys he q => ?_, fun j m hm => ?_, ht.innermost?_preheader hl hp⟩
  · have hin := (ht.mem_blocks_iff hloop).1 hx
    exact ⟨hgate.ne_of_inBody hin, hgate.dominates_body hin⟩
  · -- The header is the only successor.
    obtain ⟨hgate', -⟩ := ht.isGate_of_preheader (isLoop_of_loop? hm) hpm
    have hheads : [m.header] = [l.header] := hgate'.succ.symm.trans hgate.succ
    exact eq_of_header_eq hm hl (List.cons.inj hheads).1
  · obtain ⟨hra, hs⟩ := q.edge_of_split he
    exact hgate.eq_of_entering (hout ha) hra hs ((ht.contains_iff hloop).1 hb)
  · have hs := (q.edge_of_split he).2
    rw [hgate.succ] at hs
    exact List.mem_singleton.1 hs
  · rw [ht.contains_preheader_iff hl hp hm]
    exact ht.encloses_iff_strictlyWithin hloop (isLoop_of_loop? hm)

end HasTree

/-- On every function whose entry exists and whose reachable blocks branch only to existing blocks,
the preheader of a loop is the one gate to the loop, and one level further out. -/
theorem preheader_gate (f : Function) (e : BlockId) (he : f.entry = some e)
    (hh : f.hasBlock e = true)
    (hs : ∀ b, (Cfg.ofFunction f).Reachable b → ∀ s ∈ f.successors b, f.hasBlock s = true) :
    ∃ d, (Cfg.ofFunction f).dominators = .ok d ∧
      ∀ i l p, ((Cfg.ofFunction f).loopForest d).loop? i = some l → l.preheader = some p →
        (Cfg.ofFunction f).IsPreheader ((Cfg.ofFunction f).loopForest d) i l p := by
  obtain ⟨d, hd⟩ := exists_dominators (closed_ofFunction he hh hs)
  exact ⟨d, hd, fun i l p hl hp => (hasTree_of_dominators hd).isPreheader hl hp⟩

/-- The inner loop of a single block in the terraces has a preheader, which is in the outer loop. -/
theorem preheader_gate_terraces :
    ∃ d l, (Cfg.ofFunction terraces).dominators = .ok d ∧
      ((Cfg.ofFunction terraces).loopForest d).loop? ⟨1⟩ = some l ∧ l.preheader = some ⟨2⟩ ∧
      (Cfg.ofFunction terraces).IsPreheader ((Cfg.ofFunction terraces).loopForest d) ⟨1⟩ l ⟨2⟩ ∧
      ((Cfg.ofFunction terraces).loopForest d).innermost? ⟨2⟩ = some ⟨0⟩ := by
  have hw : terraces.WellFormed := Function.violation?_eq_none_iff.1 (by decide)
  obtain ⟨d, hd, hall⟩ := preheader_gate terraces ⟨0⟩ (by decide) (by decide)
    fun b _ s hs => hw.hasBlock_of_mem_successors hs
  have hloop : ((Cfg.ofFunction terraces).dominators.map fun d =>
      (((Cfg.ofFunction terraces).loopForest d).loop? ⟨1⟩).bind (·.preheader)) =
        .ok (some ⟨2⟩) := by
    decide +kernel
  have hinner : ((Cfg.ofFunction terraces).dominators.map fun d =>
      ((Cfg.ofFunction terraces).loopForest d).innermost? ⟨2⟩) = .ok (some ⟨0⟩) := by
    decide +kernel
  rw [hd] at hloop hinner
  obtain ⟨l, hl, hp⟩ := Option.bind_eq_some_iff.1 (Except.ok.inj hloop)
  exact ⟨d, l, hd, hl, hp, hall ⟨1⟩ l ⟨2⟩ hl hp, Except.ok.inj hinner⟩

end Cfg

end LoopHoist
