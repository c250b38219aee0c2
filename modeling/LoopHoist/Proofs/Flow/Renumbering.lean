import LoopHoist.Proofs.Code.Renumbering
import LoopHoist.Proofs.Flow.Nest

/-!
# The flow of a renumbered function

The graph of a renumbered function is the old graph under the new numbers (`Renumbers`). What is
said by paths goes over at once: reachability, dominance, latches and bodies. The depth-first walk
goes over step by step, as it takes successors in the order of the terminators and never looks at a
number (`reversePostorder_eq`). Predecessors, and so the loops, are listed by number and do come in
another order; but a loop has the same body and the same preheader under the new numbers
(`contains_loopAt`, `preheader_loopAt`).
-/

namespace LoopHoist

namespace Cfg

variable {g g' : Cfg} {d d' : Dominators} {σ : Equiv.Perm BlockId} {a b h p t x : BlockId}
  {bs : List BlockId}

/-- Whether a graph is another one under new numbers. -/
structure Renumbers (σ : Equiv.Perm BlockId) (g g' : Cfg) : Prop where
  /-- The entry is the old one. -/
  entry : g'.entry = g.entry.map σ
  /-- The blocks are the old ones. -/
  has : ∀ b, g'.has (σ b) = g.has b
  /-- The successors of a block are the old ones, in the old order. -/
  succ : ∀ b, g'.succ (σ b) = (g.succ b).map σ

/-- The graph of a renumbered function is the renumbered graph. -/
theorem renumbers_ofFunction {f : Function} (hσ : f.Permutes σ) :
    Renumbers σ (ofFunction f) (ofFunction (f.renumber σ)) where
  entry := rfl
  has b := by rw [has_ofFunction, has_ofFunction, Function.hasBlock_renumber, hσ b]
  succ b := by rw [succ_ofFunction, succ_ofFunction, hσ.successors_renumber]

namespace Renumbers

variable (hr : Renumbers σ g g')
include hr

/-- The old graph is the new one under the old numbers. -/
theorem symm : Renumbers σ.symm g' g where
  entry := by
    rw [hr.entry, Option.map_map]
    cases g.entry <;> simp
  has b := by
    obtain ⟨b, rfl⟩ := σ.surjective b
    rw [σ.symm_apply_apply, hr.has]
  succ b := by
    obtain ⟨b, rfl⟩ := σ.surjective b
    rw [σ.symm_apply_apply, hr.succ, List.map_map]
    simp

/-! ## Paths -/

/-- An edge is an edge under the new numbers. -/
theorem mem_succ_iff : σ b ∈ g'.succ (σ a) ↔ b ∈ g.succ a := by
  rw [hr.succ, List.mem_map_of_injective σ.injective]

/-- A path is a path under the new numbers. -/
theorem path (q : g.Path a b bs) : g'.Path (σ a) (σ b) (bs.map σ) := by
  induction q with
  | here => exact .here
  | step q hs ih => exact ih.step (hr.mem_succ_iff.2 hs)

/-- What is reachable is reachable under its new number. -/
theorem reachable (hb : g.Reachable b) : g'.Reachable (σ b) := by
  obtain ⟨e, bs, he, q⟩ := hb
  exact ⟨σ e, bs.map σ, by rw [hr.entry, he, Option.map_some], hr.path q⟩

/-- Reachability is the same. -/
theorem reachable_iff : g'.Reachable (σ b) ↔ g.Reachable b := by
  refine ⟨fun hb => ?_, hr.reachable⟩
  have hback := hr.symm.reachable hb
  rwa [σ.symm_apply_apply] at hback

/-- What dominates a block dominates it under the new numbers. -/
theorem dominates (hd : g.Dominates a b) : g'.Dominates (σ a) (σ b) := by
  intro e bs he q
  -- A path under the new numbers is a path under the old ones.
  have hback := hr.symm.path q
  rw [σ.symm_apply_apply] at hback
  have he' : g.entry = some (σ.symm e) := by rw [hr.symm.entry, he, Option.map_some]
  obtain ⟨c, hc, hca⟩ := List.mem_map.1 (hd _ _ he' hback)
  rw [← hca, σ.apply_symm_apply]
  exact hc

/-- Dominance is the same. -/
theorem dominates_iff : g'.Dominates (σ a) (σ b) ↔ g.Dominates a b := by
  refine ⟨fun hd => ?_, hr.dominates⟩
  have hback := hr.symm.dominates hd
  rwa [σ.symm_apply_apply, σ.symm_apply_apply] at hback

/-- The latches of a header are the same. -/
theorem isLatch_iff : g'.IsLatch (σ h) (σ t) ↔ g.IsLatch h t := by
  constructor
  · exact fun hl => ⟨hr.reachable_iff.1 hl.reachable, hr.mem_succ_iff.1 hl.edge,
      hr.dominates_iff.1 hl.dominates⟩
  · exact fun hl => ⟨hr.reachable_iff.2 hl.reachable, hr.mem_succ_iff.2 hl.edge,
      hr.dominates_iff.2 hl.dominates⟩

/-- What is in the body of a header is in it under the new numbers. -/
theorem inBody (hx : g.InBody h x) : g'.InBody (σ h) (σ x) := by
  rcases hx with rfl | ⟨hreach, t, bs, ht, q, hn⟩
  · exact .inl rfl
  · refine .inr ⟨hr.reachable hreach, σ t, bs.map σ, hr.isLatch_iff.2 ht, hr.path q, ?_⟩
    rwa [List.mem_map_of_injective σ.injective]

/-- The body of a header is the same. -/
theorem inBody_iff : g'.InBody (σ h) (σ x) ↔ g.InBody h x := by
  refine ⟨fun hx => ?_, hr.inBody⟩
  have hback := hr.symm.inBody hx
  rwa [σ.symm_apply_apply, σ.symm_apply_apply] at hback

/-- What is the gate of a header is its gate under the new numbers. -/
theorem isGate (hp : g.IsGate h p) : g'.IsGate (σ h) (σ p) where
  outside hin := hp.outside (hr.inBody_iff.1 hin)
  succ := by rw [hr.succ, hp.succ, List.map_singleton]
  dominates := hr.dominates hp.dominates
  only a hs hn := by
    obtain ⟨a, rfl⟩ := σ.surjective a
    rw [hp.only a (hr.mem_succ_iff.1 hs) fun hin => hn (hr.inBody hin)]

/-- The gates of a header are the same. -/
theorem isGate_iff : g'.IsGate (σ h) (σ p) ↔ g.IsGate h p := by
  refine ⟨fun hp => ?_, hr.isGate⟩
  have hback := hr.symm.isGate hp
  rwa [σ.symm_apply_apply, σ.symm_apply_apply] at hback

/-! ## The depth-first walk -/

/-- The walk goes the same way under the new numbers. -/
theorem walk_eq (stack : List (BlockId × List BlockId)) (seen finished : List BlockId) :
    g'.walk (stack.map fun q => (σ q.1, q.2.map σ)) (seen.map σ) (finished.map σ) =
      (g.walk stack seen finished).map σ := by
  have hnew : ∀ (s : BlockId) (seen : List BlockId),
      σ s ∈ g'.nodes ∧ σ s ∉ seen.map σ ↔ s ∈ g.nodes ∧ s ∉ seen := fun s seen => by
    rw [mem_nodes, mem_nodes, hr.has, List.mem_map_of_injective σ.injective]
  -- The induction is on the walk under the old numbers, case by case.
  fun_induction Cfg.walk g stack seen finished with
  | case1 seen finished => rw [List.map_nil, walk]
  | case2 seen finished b rest ih =>
    rw [List.map_cons, List.map_nil, walk]
    exact ih
  | case3 seen finished b s left rest hs ih =>
    rw [List.map_cons, List.map_cons, walk, dif_pos ((hnew s seen).2 hs), hr.succ]
    exact ih
  | case4 seen finished b s left rest hs ih =>
    rw [List.map_cons, List.map_cons, walk, dif_neg fun h => hs ((hnew s seen).1 h)]
    exact ih

/-- The reverse postorder is the old one under the new numbers. -/
theorem reversePostorder_eq : g'.reversePostorder = g.reversePostorder.map σ := by
  unfold reversePostorder
  rw [hr.entry]
  cases g.entry with
  | none => rfl
  | some e =>
    simp only [Option.map_some, hr.has, hr.succ]
    split
    · exact hr.walk_eq [(e, g.succ e)] [e] []
    · rfl

end Renumbers

/-! ## Loops -/

/-- A preheader is found exactly if there is a reachable gate, and it is that gate. -/
theorem HasTree.preheader_loopAt_iff (ht : g.HasTree d) (hlatch : g.IsLatch h t) :
    (g.loopAt d h).preheader = some p ↔ g.IsGate h p ∧ g.Reachable p := by
  have hl : g.IsLoop d (g.loopAt d h) := ⟨rfl, List.ne_nil_of_mem (ht.mem_latches_iff.2 hlatch)⟩
  refine ⟨ht.isGate_of_preheader hl, fun ⟨hp, hreach⟩ => ?_⟩
  -- Of the predecessors of the header only the gate is outside the body.
  have hmem : ∀ a, a ∈ (g.preds h).filter (fun q => !(g.loopMembers d h).contains q) ↔ a = p :=
    fun a => by
      rw [List.mem_filter, mem_preds, Bool.not_eq_true', ← Bool.not_eq_true, List.contains_iff_mem,
        ht.mem_loopMembers]
      exact ⟨fun ha => hp.only a ha.1 ha.2, fun ha => ha ▸ ⟨hp.edge, hp.outside⟩⟩
  have hnodup : ((g.preds h).filter fun q => !(g.loopMembers d h).contains q).Nodup :=
    (g.nodes_nodup.filter _).filter _
  have hone : (g.preds h).filter (fun q => !(g.loopMembers d h).contains q) = [p] := by
    rw [← List.perm_singleton, List.perm_ext_iff_of_nodup hnodup (List.nodup_singleton p)]
    intro a
    rw [hmem, List.mem_singleton]
  have hdom : d.dominates p h = true :=
    ht.dominates_iff.2 ⟨hreach, hlatch.reachable_header, hp.dominates⟩
  show g.preheader? d h (g.loopMembers d h) = some p
  unfold preheader?
  rw [hone]
  simp only [hp.succ, hdom, decide_true, Bool.and_true, if_true]

namespace Renumbers

variable (hr : Renumbers σ g g') (ht : g.HasTree d) (ht' : g'.HasTree d')
include hr ht ht'

/-- A loop contains what it contained. -/
theorem contains_loopAt (hlatch : g.IsLatch h t) :
    (g'.loopAt d' (σ h)).contains (σ b) = (g.loopAt d h).contains b := by
  have hl : g.IsLoop d (g.loopAt d h) := ⟨rfl, List.ne_nil_of_mem (ht.mem_latches_iff.2 hlatch)⟩
  have hl' : g'.IsLoop d' (g'.loopAt d' (σ h)) :=
    ⟨rfl, List.ne_nil_of_mem (ht'.mem_latches_iff.2 (hr.isLatch_iff.2 hlatch))⟩
  rw [Bool.eq_iff_iff, ht.contains_iff hl, ht'.contains_iff hl']
  exact hr.inBody_iff

/-- A loop has the preheader that it had. -/
theorem preheader_loopAt (hlatch : g.IsLatch h t) :
    (g'.loopAt d' (σ h)).preheader = (g.loopAt d h).preheader.map σ := by
  have hlatch' := hr.isLatch_iff.2 hlatch
  apply Option.ext
  intro p
  obtain ⟨p, rfl⟩ := σ.surjective p
  rw [ht'.preheader_loopAt_iff hlatch', hr.isGate_iff, hr.reachable_iff,
    ← ht.preheader_loopAt_iff hlatch]
  cases (g.loopAt d h).preheader <;> simp

end Renumbers

end Cfg

end LoopHoist
