import LoopHoist.Proofs.Motion.Layout
import LoopHoist.Proofs.Motion.SingleAssignment
import LoopHoist.Proofs.Motion.Turns

/-!
# Facts that stay true

The pass analyses the function once and then changes it. What it found out is still true after every
relocation (`Current`): a relocation changes no edge, so the graph, the dominator tree and the loops
are the same, and it moves neither allocations nor stores nor calls, so the stack slots and what a
loop does to memory are the same too. The loads of a loop do change, as some leave it; nothing reads
their number after the turn of the loop has begun.

What a loop gives up lands in all loops around it and in no other one. So when the turn of a loop
has come, its candidates are the instructions that it held at first (`AtTurn.mem_iff`).
-/

namespace LoopHoist

variable {f g : Function} {a : Analysis} {settings : Settings} {s t : StackSlots} {l : Loop}
  {v : ValueId} {instr : Instruction}

/-! ## Stack slots -/

/-- Whether two accounts of the stack slots say the same. Which slots escape is a set: a relocation
may change the order in which the uses of a slot are met. -/
structure StackSlots.Same (s t : StackSlots) : Prop where
  /-- The same slots, in the same order. -/
  slots : t.slots = s.slots
  /-- The same ones escape. -/
  escaped : ∀ v, v ∈ t.escaped ↔ v ∈ s.escaped

namespace StackSlots.Same

variable (h : s.Same t)
include h

/-- Accounts that say the same give the same answers. -/
theorem isPrivate_eq : t.isSlot v = s.isSlot v ∧ t.isPrivate v = s.isPrivate v := by
  have hesc : t.escaped.contains v = s.escaped.contains v := by
    rw [Bool.eq_iff_iff, List.contains_iff_mem, List.contains_iff_mem]
    exact h.escaped v
  unfold isSlot isPrivate
  rw [h.slots, hesc]
  exact ⟨rfl, rfl⟩

/-- Addresses name the same objects. -/
theorem object?_eq : f.object? t = f.object? s :=
  Function.object?_congr (fun _ => rfl) fun _ => h.isPrivate_eq.1

/-- A loop does the same to memory. -/
theorem ofLoop_eq : LoopMemory.ofLoop f t l = LoopMemory.ofLoop f s l := by
  unfold LoopMemory.ofLoop LoopMemory.ofBody
  rw [h.object?_eq]

/-- The same kinds of instruction may leave a loop. -/
theorem hoistable_iff : Hoistable f t settings l instr ↔ Hoistable f s settings l instr := by
  have hsafe : ∀ addr, (LoopState.start f t settings l).loadIsSafe f addr =
      (LoopState.start f s settings l).loadIsSafe f addr := fun addr => by
    refine LoopState.loadIsSafe_congr (s := .start f s settings l) (u := .start f t settings l) rfl
      (fun _ => h.isPrivate_eq.1) (fun _ => h.isPrivate_eq.2) (fun target => ?_) ?_
      (fun _ => rfl) addr
    · rw [LoopState.start, h.ofLoop_eq]
      rfl
    · rw [LoopState.start, h.ofLoop_eq]
      rfl
  unfold Hoistable
  simp only [hsafe]

end StackSlots.Same

namespace Function.Rearranged

variable (h : f.Rearranged g)
include h

/-- The blocks are the same, in the same order. -/
theorem blockIds_eq : g.blockIds = f.blockIds := by
  have hsize : ∀ k : Function, (Cfg.ofFunction k).size = k.blocks.size := fun k => by
    simp [Cfg.size, Cfg.ofFunction, Function.blockIds]
  unfold Function.blockIds
  rw [← hsize g, h.graph, hsize f]

/-- The stack slots are the same, and the same ones escape. -/
theorem sameSlots : (StackSlots.ofFunction f).Same (.ofFunction g) := by
  -- An allocation never moves.
  have hslots : (StackSlots.ofFunction g).slots = (StackSlots.ofFunction f).slots := by
    show g.placed.filterMap (fun p => p.2.slot?) = f.placed.filterMap (fun p => p.2.slot?)
    unfold Function.placed
    rw [List.filterMap_flatMap, List.filterMap_flatMap, h.blockIds_eq]
    congr 1
    funext b
    apply h.filterMap_placedIn
    rintro ⟨i, instr⟩ hm
    cases instr <;> first | rfl | cases hm
  refine ⟨hslots, fun v => ?_⟩
  have hiff : ∀ k : Function, v ∈ (StackSlots.ofFunction k).escaped ↔
      (∃ p ∈ k.placed, v ∈ p.2.published) ∧ v ∈ (StackSlots.ofFunction k).slots := fun k => by
    simp only [StackSlots.ofFunction, StackSlots.ofPlaced, List.mem_filter, List.mem_flatMap,
      List.contains_iff_mem]
  rw [hiff, hiff, hslots]
  simp only [h.mem_placed_iff]

end Function.Rearranged

/-! ## All analyses -/

/-- Whether what was found out about `f` before the pass is still true of `g`. -/
structure Current (f : Function) (a : Analysis) (g : Function) (a' : Analysis) : Prop where
  /-- The analyses of `g`. -/
  analyze : g.analyze = .ok a'
  /-- The graph is the same. -/
  graph : a'.graph = a.graph
  /-- The dominator tree is the same. -/
  dominators : a'.dominators = a.dominators
  /-- The loops are the same. -/
  forest : a'.forest = a.forest
  /-- The stack slots are the same. -/
  slots : a.slots.Same a'.slots
  /-- Every loop stores to the same objects, in the same order. -/
  stores : ∀ l, (LoopMemory.ofLoop g a'.slots l).stores = (LoopMemory.ofLoop f a.slots l).stores
  /-- Every loop has as many calls. -/
  calls : ∀ l, (LoopMemory.ofLoop g a'.slots l).calls = (LoopMemory.ofLoop f a.slots l).calls

/-- The analyses of a function are still true of a rearrangement. -/
theorem Function.Rearranged.current (h : f.Rearranged g) (ha : Analyzed f a) :
    Current f a g { a with slots := .ofFunction g } := by
  have hslots : a.slots.Same (.ofFunction g) := by
    rw [ha.slots]
    exact h.sameSlots
  have hmem : ∀ l, LoopMemory.ofLoop g (.ofFunction g) l = LoopMemory.ofLoop g a.slots l :=
    fun _ => hslots.ofLoop_eq
  refine ⟨?_, rfl, rfl, rfl, hslots, fun l => ?_, fun l => ?_⟩
  · -- Graph, dominator tree and loops are made from the edges alone.
    rw [h.wellFormed.analyze_eq_ok (h.graph ▸ ha.dominators), h.graph, ← ha.graph, ha.forest,
      ha.graph]
  · show (LoopMemory.ofLoop g (.ofFunction g) l).stores = _
    rw [hmem l]
    exact (h.ofLoop_eq a.slots l).1
  · show (LoopMemory.ofLoop g (.ofFunction g) l).calls = _
    rw [hmem l]
    exact (h.ofLoop_eq a.slots l).2

/-- A loop that lies inside another one has its turn before it. -/
theorem Analyzed.mem_of_inside {n k : LoopId} {ks ms : List LoopId} (ha : Analyzed f a)
    (hpost : a.forest.postorder = ks ++ n :: ms) (hkn : a.forest.Inside k n) : k ∈ ks := by
  have hpair := ha.postorder_pairwise
  have hmem : k ∈ a.forest.postorder := by
    obtain ⟨m, -, hm, -⟩ := id hkn
    exact ha.mem_postorder.2 ⟨m, hm⟩
  rw [hpost] at hpair hmem
  rcases List.mem_append.1 hmem with hk | hk
  · exact hk
  · rcases List.mem_cons.1 hk with rfl | hk
    · exact absurd (ha.sizeOf_lt_of_inside hkn) (Nat.lt_irrefl _)
    · exact absurd hkn ((List.pairwise_cons.1 (List.pairwise_append.1 hpair).2.1).1 k hk).2

/-- The analyses stay true during the whole pass: on every well-formed function it succeeds, and
after each of its relocations, made one after the other, recomputing them gives the same. And when
the turn of a loop has come, after the loops inside it, the instructions in its blocks are those
that were there before the pass. -/
theorem hoistInvariants_current (f : Function) (hb : f.Built) (hv : f.validate = .ok ())
    (settings : Settings) :
    ∃ a r counters, f.analyze = .ok a ∧ f.hoistInvariants settings = .ok r ∧
      r.result = .ok counters ∧ f.relocateAll r.moves = .ok r.function ∧
      (∀ k, ∃ g a', f.relocateAll (r.moves.take k) = .ok g ∧ Current f a g a') ∧
      (settings.isActive = true → ∀ n l, a.forest.loop? n = some l →
        ∃ ks ms h, a.forest.postorder = ks ++ n :: ms ∧ (∀ k, a.forest.Inside k n → k ∈ ks) ∧
          ks.foldlM (Hoisting.processLoop a settings) { function := f } = .ok h ∧
          h.moves.reverse <+: r.moves ∧ ∀ x, (∃ b, l.contains b = true ∧
            x ∈ h.function.instsOf b) ↔ ∃ b, l.contains b = true ∧ x ∈ f.instsOf b) := by
  have hw := Function.violation?_eq_none_iff.1 (Function.validate_eq_ok_iff.1 hv)
  have hc := hb.coherent
  obtain ⟨a, r, counters, hanalyze, ha, hr, hres, htrace⟩ := exists_analyzed_run hc hw settings
  refine ⟨a, r, counters, hanalyze, hr, hres, htrace.relocateAll_eq, fun k => ?_,
    fun hactive n l hl => ?_⟩
  · -- The first relocations of a run are a run, and what they make is a rearrangement.
    obtain ⟨g, hg⟩ := htrace.exists_take k
    exact ⟨g, _, hg.relocateAll_eq, (hg.rearranged ha hc hw).current ha⟩
  · -- The result lists the relocations of the run over all loops, in which the loop has its turn.
    obtain ⟨h', hh', htrace'⟩ := exists_processAll ha hc hw settings
    have hwell := (htrace'.rearranged ha hc hw).wellFormed
    obtain rfl := Except.ok.inj
      (hr.symm.trans (Function.hoistInvariants_eq hactive hw hanalyze hh' hwell))
    obtain ⟨h, hturn, hsuffix⟩ := exists_atTurn ha hh' hl
    obtain ⟨ks, ms, hpost, hks⟩ := id hturn
    exact ⟨ks, ms, h, hpost, fun k => ha.mem_of_inside hpost, hks,
      List.reverse_prefix.2 hsuffix, fun x => hturn.mem_iff ha hc hw hl⟩

/-- The analyses of the cascade stay true. The turn of its outer loop comes after the inner one has
given up three instructions, of which the square then goes on to the entry. -/
theorem hoistInvariants_current_cascade :
    ∃ a r, cascade.analyze = .ok a ∧ cascade.hoistInvariants {} = .ok r ∧
      r.moves.map (fun r => (r.inst, r.preheader)) =
        [(⟨3⟩, ⟨2⟩), (⟨5⟩, ⟨2⟩), (⟨6⟩, ⟨2⟩), (⟨3⟩, ⟨0⟩)] ∧
      ∀ k, ∃ g a', cascade.relocateAll (r.moves.take k) = .ok g ∧ Current cascade a g a' := by
  obtain ⟨a, r, -, ha, hr, -, -, hcurrent, -⟩ := hoistInvariants_current cascade built_cascade
    validate_cascade {}
  have hmoves : (cascade.hoistInvariants {}).map
      (fun r => r.moves.map fun r => (r.inst, r.preheader)) =
      .ok [(⟨3⟩, ⟨2⟩), (⟨5⟩, ⟨2⟩), (⟨6⟩, ⟨2⟩), (⟨3⟩, ⟨0⟩)] := by
    decide +kernel
  rw [hr] at hmoves
  exact ⟨a, r, ha, hr, Except.ok.inj hmoves, hcurrent⟩

end LoopHoist
