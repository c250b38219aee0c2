import LoopHoist.Motion.Hoisting
import LoopHoist.Proofs.Code.Rearrangement
import LoopHoist.Proofs.Flow.LoopSearch
import LoopHoist.Proofs.Flow.Nest

/-!
# What may be hoisted

A verdict rests on two things. Whether the kind of an instruction allows it to leave a loop
(`Hoistable`) depends on nothing that a relocation changes, so it is a fact about the function
before the pass. Whether the operands are invariant depends on where instructions are at the moment.
An instruction is accepted exactly when both hold (`LoopState.verdictOf_eq_ok_iff`).
-/

namespace LoopHoist

variable {f g : Function} {a : Analysis} {slots : StackSlots} {settings : Settings} {l : Loop}
  {i j : InstId} {v : ValueId} {b : BlockId} {instr : Instruction}

/-- Whether a value is there before the first instruction: a parameter or a global. -/
def Function.Given (f : Function) (v : ValueId) : Prop :=
  (∃ k, f.def? v = some (.param k)) ∨ ∃ name, f.def? v = some (.global name)

instance (f : Function) (v : ValueId) : Decidable (f.Given v) :=
  decidable_of_iff ((f.def? v matches some (.param _) | some (.global _)) = true) <| by
    unfold Function.Given
    cases f.def? v with
    | none => simp
    | some origin => cases origin <;> simp

/-- Whether the kind of an instruction allows it to leave a loop of a function: it is ordinary, or
it is a load that the settings let move, not volatile, and safe in the loop. -/
def Hoistable (f : Function) (slots : StackSlots) (settings : Settings) (l : Loop)
    (instr : Instruction) : Prop :=
  instr.category = .ordinary ∨ ∃ dst ty addr access, instr = .load dst ty addr access ∧
    settings.hoistLoads = true ∧ access.isVolatile = false ∧
    (LoopState.start f slots settings l).loadIsSafe f addr = true

/-- What may leave a loop is of a movable class. -/
theorem Hoistable.movable (h : Hoistable f slots settings l instr) :
    instr.category.movable = true := by
  rcases h with h | ⟨dst, ty, addr, access, rfl, -⟩
  · rw [h]
    rfl
  · rfl

/-- A movable instruction is neither a terminator nor a phi, and writes a value. -/
theorem exists_def_of_movable (h : instr.category.movable = true) :
    instr.isTerminator = false ∧ (∀ dst ty ins, instr ≠ .phi dst ty ins) ∧
      ∃ dst, instr.def? = some dst := by
  cases instr <;> simp_all [Instruction.category, Category.movable, Instruction.isTerminator,
    Instruction.def?]

/-- What an address names depends on where values come from and on which ones are slots. -/
theorem Function.object?_congr {s t : StackSlots} (hdef : ∀ v, g.def? v = f.def? v)
    (hslot : ∀ v, t.isSlot v = s.isSlot v) : g.object? t = f.object? s := by
  funext addr
  unfold Function.object?
  simp only [hdef, hslot]

namespace LoopState

/-- Whether a load is safe depends on the settings, on which values are slots and private ones, on
what the loop stores to and whether it calls, and on where values come from. -/
theorem loadIsSafe_congr {s u : LoopState} (hset : u.settings = s.settings)
    (hslot : ∀ v, u.slots.isSlot v = s.slots.isSlot v)
    (hprivate : ∀ v, u.slots.isPrivate v = s.slots.isPrivate v)
    (hstores : ∀ t, t ∈ u.memory.stores ↔ t ∈ s.memory.stores)
    (hcall : u.memory.hasCall = s.memory.hasCall) (hdef : ∀ v, g.def? v = f.def? v)
    (addr : Operand) : u.loadIsSafe g addr = s.loadIsSafe f addr := by
  have hobject : g.object? u.slots = f.object? s.slots := Function.object?_congr hdef hslot
  have hstore : u.memory.hasStore = s.memory.hasStore := by
    unfold LoopMemory.hasStore
    rw [Bool.not_inj_iff, Bool.eq_iff_iff, List.isEmpty_iff, List.isEmpty_iff,
      List.eq_nil_iff_forall_not_mem, List.eq_nil_iff_forall_not_mem]
    simp only [hstores]
  have hwrite : ∀ o, u.memory.mayWrite u.slots o = s.memory.mayWrite s.slots o := fun o => by
    unfold LoopMemory.mayWrite
    rw [Bool.eq_iff_iff]
    simp only [Bool.or_eq_true, List.any_eq_true, hstores, hcall, hprivate]
  unfold loadIsSafe
  rw [hset, hobject, hstore, hcall]
  simp only [hwrite, hprivate]

/-- The operand that is rejected is one that is not invariant. -/
theorem variantOperand?_eq_none_iff {s : LoopState} :
    s.variantOperand? g instr = none ↔ ∀ v ∈ instr.usedValues, s.invariantValue g v = true := by
  rw [variantOperand?, List.find?_eq_none]
  simp

/-- The verdict on an instruction that exists is the one on its content. -/
theorem verdict_eq_ok_iff {s : LoopState} {r : Except Reject HoistKind} :
    s.verdict g i = .ok r ↔ ∃ instr, g.inst? i = some instr ∧ s.verdictOf g instr = r := by
  unfold verdict Function.instAt
  cases g.inst? i with
  | none => simp [Except.map]
  | some instr => simp [Except.map]

/-- What is accepted has no variant operand, and is accepted as what it is. -/
theorem verdictOf_eq_ok {s : LoopState} {kind : HoistKind} (hv : s.verdictOf g instr = .ok kind) :
    s.variantOperand? g instr = none ∧
      (instr.category = .ordinary ∧ kind = .ordinary ∨ instr.category = .load ∧ kind = .load) := by
  cases instr with
  | load dst ty addr access =>
    unfold verdictOf at hv
    dsimp only at hv
    split at hv
    · cases hv
    · split at hv
      · cases hv
      · split at hv
        · cases hv
        · next hnone =>
          split at hv
          · exact ⟨hnone, .inr ⟨rfl, (Except.ok.inj hv).symm⟩⟩
          · cases hv
  | _ =>
    unfold verdictOf at hv
    dsimp only at hv
    split at hv
    · next hcat =>
      split at hv
      · cases hv
      · next hnone => exact ⟨hnone, .inl ⟨hcat, (Except.ok.inj hv).symm⟩⟩
    · cases hv

/-- An instruction is accepted exactly when its kind allows it and its operands are invariant. -/
theorem verdictOf_eq_ok_iff {s : LoopState} (hset : s.settings = settings)
    (hslots : s.slots = slots)
    (hstores : s.memory.stores = (LoopMemory.ofLoop f slots l).stores)
    (hcalls : s.memory.calls = (LoopMemory.ofLoop f slots l).calls)
    (hdef : ∀ v, g.def? v = f.def? v) :
    (∃ kind, s.verdictOf g instr = .ok kind) ↔
      Hoistable f slots settings l instr ∧
        ∀ v ∈ instr.usedValues, s.invariantValue g v = true := by
  rw [← variantOperand?_eq_none_iff]
  -- A load is safe by slots, stores and calls, which are as at the start of the loop's turn.
  have hsafe : ∀ addr, s.loadIsSafe g addr =
      (LoopState.start f slots settings l).loadIsSafe f addr := fun addr => by
    refine loadIsSafe_congr hset (fun v => ?_) (fun v => ?_) (fun t => ?_) ?_ hdef addr
    · rw [hslots, start]
    · rw [hslots, start]
    · rw [hstores, start]
    · rw [LoopMemory.hasCall, hcalls]
      rfl
  have hother : (∀ dst ty addr access, instr ≠ .load dst ty addr access) →
      (Hoistable f slots settings l instr ↔ instr.category = .ordinary) := fun hn =>
    or_iff_left fun ⟨dst, ty, addr, access, heq, _⟩ => hn dst ty addr access heq
  cases instr with
  | load dst ty addr access =>
    have hload : Hoistable f slots settings l (.load dst ty addr access) ↔
        settings.hoistLoads = true ∧ access.isVolatile = false ∧ s.loadIsSafe g addr = true := by
      rw [hsafe]
      constructor
      · rintro (h | ⟨dst', ty', addr', access', heq, h⟩)
        · cases h
        · cases heq
          exact h
      · exact fun h => .inr ⟨dst, ty, addr, access, rfl, h⟩
    rw [hload]
    simp only [verdictOf, hset]
    cases settings.hoistLoads <;> cases access.isVolatile <;>
      cases s.variantOperand? g (.load dst ty addr access) <;> cases s.loadIsSafe g addr <;> simp
  | _ =>
    rw [hother (by simp)]
    unfold verdictOf
    dsimp only
    split
    · next hc =>
      rw [and_iff_right hc]
      split <;> simp_all
    · next hc => simp [hc]

end LoopState

/-- The body of a loop holds what its blocks hold. -/
theorem Function.mem_bodyOf_iff {q : InstId × Instruction} :
    q ∈ f.bodyOf l ↔ ∃ b, l.contains b = true ∧ q ∈ f.placedIn b := by
  simp only [bodyOf, List.mem_flatMap, Loop.contains, List.contains_iff_mem]

/-! ## What rearranging leaves as it is -/

namespace Function.Rearranged

variable (h : f.Rearranged g)
include h

/-- The same values are given. -/
theorem given_iff : g.Given v ↔ f.Given v := by
  unfold Function.Given
  rw [h.def?]

/-- The stores and the calls of a loop stay. -/
theorem ofLoop_eq (slots : StackSlots) (l : Loop) :
    (LoopMemory.ofLoop g slots l).stores = (LoopMemory.ofLoop f slots l).stores ∧
      (LoopMemory.ofLoop g slots l).calls = (LoopMemory.ofLoop f slots l).calls := by
  have hobject : g.object? slots = f.object? slots :=
    Function.object?_congr h.def? fun _ => rfl
  have hpick : ∀ {β : Type} (pick : InstId × Instruction → Option β),
      (∀ p, p.2.category.movable = true → pick p = none) →
      (g.bodyOf l).filterMap pick = (f.bodyOf l).filterMap pick := fun {β pick} hp => by
    unfold Function.bodyOf
    rw [List.filterMap_flatMap, List.filterMap_flatMap]
    simp only [h.filterMap_placedIn hp]
  constructor
  · have hstores := hpick (fun p => p.2.storeAddr?) fun p hp => by
      obtain ⟨i, instr⟩ := p
      cases instr <;> simp_all [Instruction.storeAddr?, Instruction.category, Category.movable]
    simp only [LoopMemory.ofLoop, LoopMemory.ofBody, List.filterMap_map, hobject]
    exact congrArg _ hstores
  · -- Counting the calls is taking the length of what is picked.
    have hcalls := hpick (fun p => if p.2.category == .call then some () else none)
      fun p hp => by
        obtain ⟨i, instr⟩ := p
        cases hc : instr.category <;> simp_all [Category.movable]
    have hcount : ∀ ps : List (InstId × Instruction),
        (ps.map (·.2)).countP (fun i => i.category == .call) =
          (ps.filterMap fun p => if p.2.category == .call then some () else none).length :=
      fun ps => by
        induction ps with
        | nil => rfl
        | cons p ps ih =>
          rw [List.map_cons, List.countP_cons, List.filterMap_cons, ih]
          cases p.2.category == .call <;> simp
    simp only [LoopMemory.ofLoop, LoopMemory.ofBody, hcount, hcalls]

/-- The same kinds of instruction may leave a loop. -/
theorem hoistable_iff :
    Hoistable g slots settings l instr ↔ Hoistable f slots settings l instr := by
  obtain ⟨hstores, hcalls⟩ := h.ofLoop_eq slots l
  have hsafe : ∀ addr, (LoopState.start g slots settings l).loadIsSafe g addr =
      (LoopState.start f slots settings l).loadIsSafe f addr := fun addr => by
    refine LoopState.loadIsSafe_congr (s := .start f slots settings l)
      (u := .start g slots settings l) rfl (fun _ => rfl) (fun _ => rfl) (fun t => ?_) ?_
      h.def? addr
    · rw [LoopState.start, hstores]
      rfl
    · rw [LoopState.start, LoopMemory.hasCall, hcalls]
      rfl
  unfold Hoistable
  simp only [hsafe]

end Function.Rearranged

/-! ## The analyses -/

/-- What the analyses of a function are. -/
structure Analyzed (f : Function) (a : Analysis) : Prop where
  /-- The graph is that of the function. -/
  graph : a.graph = Cfg.ofFunction f
  /-- The dominator tree is that of the graph. -/
  dominators : (Cfg.ofFunction f).dominators = .ok a.dominators
  /-- The loops are those of the graph. -/
  forest : a.forest = (Cfg.ofFunction f).loopForest a.dominators
  /-- The stack slots are those of the function. -/
  slots : a.slots = .ofFunction f

/-- The analyses of a well-formed function are found when its dominator tree is: no look-up on the
way to them faults. -/
theorem Function.WellFormed.analyze_eq_ok (hw : f.WellFormed) {d : Dominators}
    (hd : (Cfg.ofFunction f).dominators = .ok d) : f.analyze =
      .ok { graph := .ofFunction f, dominators := d, forest := (Cfg.ofFunction f).loopForest d
            slots := .ofFunction f } := by
  have hresolves : ∀ b, f.hasBlock b = true → f.Resolves b := fun b => hw.resolves
  have hbody := f.bodyAt_eq_ok fun b hb => hresolves b (Function.mem_blockIds.1 hb)
  have hslots : f.stackSlots = .ok (.ofFunction f) := by
    rw [Function.stackSlots, hbody, ok_bind]
    rfl
  rw [Function.analyze, Function.graph_eq_ok hresolves, ok_bind, hd, ok_bind,
    (Cfg.hasTree_of_dominators hd).findLoops_eq_ok, ok_bind, hslots, ok_bind]
  rfl

/-- A well-formed function can be analysed. -/
theorem exists_analyze (hw : f.WellFormed) : ∃ a, f.analyze = .ok a ∧ Analyzed f a := by
  obtain ⟨e, he, hh⟩ := hw.entry
  obtain ⟨d, hd⟩ := Cfg.exists_dominators
    (Cfg.closed_ofFunction he hh fun b _ s hs => hw.hasBlock_of_mem_successors hs)
  exact ⟨_, hw.analyze_eq_ok hd, ⟨rfl, hd, rfl, rfl⟩⟩

namespace Analyzed

variable (ha : Analyzed f a)
include ha

/-- The dominator tree is what it should be. -/
theorem tree : (Cfg.ofFunction f).HasTree a.dominators := Cfg.hasTree_of_dominators ha.dominators

/-- The blocks of a loop exist. -/
theorem hasBlock {n : LoopId} (hl : a.forest.loop? n = some l) (hb : l.contains b = true) :
    f.hasBlock b = true := by
  have hreach := ha.tree.reachable_of_contains (Cfg.isLoop_of_loop? (ha.forest ▸ hl)) hb
  rw [← Cfg.has_ofFunction]
  exact Cfg.has_of_reachable ha.tree.closed hreach

/-- The loops of the forest are natural loops. -/
theorem isLoop {n : LoopId} (hl : a.forest.loop? n = some l) :
    (Cfg.ofFunction f).IsLoop a.dominators l := by
  rw [ha.forest] at hl
  exact Cfg.isLoop_of_loop? hl

/-- The pass goes through the loops of the forest. -/
theorem mem_postorder {n : LoopId} : n ∈ a.forest.postorder ↔ ∃ l, a.forest.loop? n = some l := by
  rw [ha.forest]
  exact ha.tree.mem_postorder

/-- It goes through no loop twice or before one inside it. -/
theorem postorder_pairwise : a.forest.postorder.Pairwise (Cfg.Later a.forest) := by
  rw [ha.forest]
  exact ha.tree.postorder_pairwise

/-- So it goes through no loop twice. -/
theorem nodup_postorder : a.forest.postorder.Nodup := ha.postorder_pairwise.imp fun h => h.1

/-- The loops gone through are those of the forest. -/
theorem mem_filterMap_postorder :
    l ∈ a.forest.postorder.filterMap a.forest.loop? ↔ ∃ n, a.forest.loop? n = some l := by
  rw [List.mem_filterMap]
  exact ⟨fun ⟨n, _, hl⟩ => ⟨n, hl⟩, fun ⟨n, hl⟩ => ⟨n, ha.mem_postorder.2 ⟨l, hl⟩, hl⟩⟩

/-- A loop is smaller than one that it lies inside. -/
theorem sizeOf_lt_of_inside {k n : LoopId} (h : a.forest.Inside k n) :
    a.forest.sizeOf k < a.forest.sizeOf n := by
  rw [ha.forest] at h ⊢
  exact Cfg.HasTree.sizeOf_lt_of_inside h

end Analyzed

end LoopHoist
