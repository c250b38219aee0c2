import LoopHoist.Machine.Run
import LoopHoist.Proofs.Code.Rearrangement
import LoopHoist.Proofs.Machine.Effects

/-!
# Steps of a run

In a well-formed function a run is inside a block as long as instructions are left, and the last one
of them decides where it goes. So a step is one of two things: an instruction inside a block changes
the data (`Running.step_inside`), or the terminator names the next block or ends the run
(`Machine.leave`), and the next block is entered with the values of its phis
(`Running.step_terminator`, `Running.enter_eq`). `Running.step_cases` says at once what a step can
be.
-/

namespace LoopHoist

variable {f g : Function} {m m' : Machine} {instr : Instruction} {i j : InstId}
  {v w dst : ValueId} {o : Operand} {a : Val} {b c : BlockId} {came : Option BlockId}
  {vals : List (ValueId × Val)} {s u : Running} {rest : List InstId}

/-! ## Phis -/

/-- The phis of a block: what each writes, and the operands that it takes by the block that control
comes from. -/
def Function.phisOf (f : Function) (b : BlockId) : List (ValueId × List (BlockId × Operand)) :=
  (f.placedIn b).filterMap fun p =>
    match p.2 with
    | .phi dst _ incoming => some (dst, incoming)
    | _ => none

/-- The phis of a block are among its instructions. -/
theorem Function.mem_phisOf {q : ValueId × List (BlockId × Operand)} :
    q ∈ f.phisOf b ↔ ∃ i ty, i ∈ f.instsOf b ∧ f.inst? i = some (.phi q.1 ty q.2) := by
  obtain ⟨dst, incoming⟩ := q
  rw [Function.phisOf, List.mem_filterMap]
  constructor
  · rintro ⟨⟨i, instr⟩, hp, hq⟩
    obtain ⟨hi, hinst⟩ := mem_placedIn.1 hp
    cases instr with
    | phi dst' ty incoming' =>
      obtain ⟨rfl, rfl⟩ := Prod.mk.inj (Option.some.inj hq)
      exact ⟨i, ty, hi, hinst⟩
    | _ => cases hq
  · rintro ⟨i, ty, hi, hinst⟩
    exact ⟨(i, .phi dst ty incoming), mem_placedIn.2 ⟨hi, hinst⟩, rfl⟩

/-- Phis never move. -/
theorem Function.Rearranged.phisOf_eq (h : f.Rearranged g) (b : BlockId) :
    g.phisOf b = f.phisOf b := by
  refine h.filterMap_placedIn (fun p hp => ?_) b
  obtain ⟨i, instr⟩ := p
  cases instr <;> simp_all [Instruction.category, Category.movable]

namespace Machine

/-- The machine with the registers of a list of values written. -/
def setAll (m : Machine) (vals : List (ValueId × Val)) : Machine :=
  vals.foldl (fun m p => m.setReg p.1 p.2) m

/-- What a phi takes is what the operand for the block that control came from stands for. -/
theorem incomingValue_eq_ok {ins : List (BlockId × Operand)}
    (h : m.incomingValue f came ins = .ok a) :
    ∃ b o, came = some b ∧ (b, o) ∈ ins ∧ m.get f o = .ok a := by
  unfold incomingValue at h
  split at h
  · cases h
  · next b =>
    split at h
    · next q hq =>
      have hb : q.1 = b := by simpa using List.find?_some hq
      exact ⟨b, q.2, rfl, hb ▸ List.mem_of_find?_eq_some hq, h⟩
    · cases h

/-- What phis write are values of their operands for the block that control came from, and each of
them writes a value. -/
theorem phiValues_eq_ok (h : m.phiValues f came b = .ok vals) :
    (∀ p ∈ vals, ∃ i ty ins c o, i ∈ f.instsOf b ∧ f.inst? i = some (.phi p.1 ty ins) ∧
      came = some c ∧ (c, o) ∈ ins ∧ m.get f o = .ok p.2) ∧
    ∀ i dst ty ins, i ∈ f.instsOf b → f.inst? i = some (.phi dst ty ins) →
      ∃ a, (dst, a) ∈ vals := by
  obtain ⟨hmem, hall⟩ := mem_of_mapM_eq_ok (l := f.phisOf b) h
  have hvalue : ∀ {q : ValueId × List (BlockId × Operand)} {p : ValueId × Val},
      (do return (q.1, ← m.incomingValue f came q.2)) = Except.ok (ε := Trap) p →
      p.1 = q.1 ∧ m.incomingValue f came q.2 = .ok p.2 := fun {q p} hk => by
    obtain ⟨a, ha, hk⟩ := exists_of_bind_eq_ok hk
    obtain rfl := Except.ok.inj hk
    exact ⟨rfl, ha⟩
  constructor
  · intro p hp
    obtain ⟨q, hq, hk⟩ := hmem p hp
    obtain ⟨hfst, hval⟩ := hvalue hk
    obtain ⟨i, ty, hi, hinst⟩ := Function.mem_phisOf.1 hq
    obtain ⟨c, o, hc, ho, hget⟩ := incomingValue_eq_ok hval
    exact ⟨i, ty, q.2, c, o, hi, hfst ▸ hinst, hc, ho, hget⟩
  · intro i dst ty ins hi hinst
    obtain ⟨p, hp, hk⟩ := hall (dst, ins) (Function.mem_phisOf.2 ⟨i, ty, hi, hinst⟩)
    obtain ⟨rfl, -⟩ := hvalue hk
    exact ⟨p.2, hp⟩

/-- The values of phis depend on their operands for the block that control came from alone. -/
theorem phiValues_congr (hphis : g.phisOf b = f.phisOf b)
    (hget : ∀ i dst ty ins c o, i ∈ f.instsOf b → f.inst? i = some (.phi dst ty ins) →
      came = some c → (c, o) ∈ ins → m'.get g o = m.get f o) :
    m'.phiValues g came b = m.phiValues f came b := by
  show (g.phisOf b).mapM _ = (f.phisOf b).mapM _
  rw [hphis]
  refine mapM_congr_of_mem fun q hq => ?_
  obtain ⟨i, ty, hi, hinst⟩ := Function.mem_phisOf.1 hq
  have hvalue : m'.incomingValue g came q.2 = m.incomingValue f came q.2 := by
    unfold incomingValue
    cases hc : came with
    | none => rfl
    | some c =>
      dsimp only
      cases ho : q.2.find? fun p => p.1 == c with
      | none => rfl
      | some p =>
        have hpc : p.1 = c := by simpa using List.find?_some ho
        exact hget i q.1 ty q.2 c p.2 hi hinst hc (hpc ▸ List.mem_of_find?_eq_some ho)
  rw [hvalue]

/-! ## Writing several registers -/

/-- Writing registers leaves memory alone. -/
theorem memory_setAll (m : Machine) (vals : List (ValueId × Val)) :
    (m.setAll vals).memory = m.memory := by
  induction vals generalizing m with
  | nil => rfl
  | cons p vals ih => exact ih (m.setReg p.1 p.2)

/-- Registers that are not written stay. -/
theorem reg?_setAll (h : ∀ p ∈ vals, p.1 ≠ v) : (m.setAll vals).reg? v = m.reg? v := by
  induction vals generalizing m with
  | nil => rfl
  | cons p vals ih =>
    obtain ⟨hp, hvals⟩ := List.forall_mem_cons.1 h
    show ((m.setReg p.1 p.2).setAll vals).reg? v = m.reg? v
    rw [ih hvals, reg?_setReg, if_neg hp]

/-- What a register holds afterwards it held before, or it was written. -/
theorem of_reg?_setAll (h : (m.setAll vals).reg? v = some a) :
    m.reg? v = some a ∨ (v, a) ∈ vals := by
  induction vals generalizing m with
  | nil => exact .inl h
  | cons p vals ih =>
    rcases ih h with h | h
    · rw [reg?_setReg] at h
      split at h
      · next hv =>
        obtain rfl := Option.some.inj h
        exact .inr (hv ▸ List.mem_cons_self)
      · exact .inl h
    · exact .inr (List.mem_cons_of_mem _ h)

/-- A register is there afterwards if it was there or is written. -/
theorem exists_reg?_setAll (h : (∃ a, m.reg? v = some a) ∨ ∃ a, (v, a) ∈ vals) :
    ∃ a, (m.setAll vals).reg? v = some a := by
  induction vals generalizing m with
  | nil => exact h.resolve_right (by simp)
  | cons p vals ih =>
    refine ih ?_
    rw [reg?_setReg]
    by_cases hv : p.1 = v
    · exact .inl ⟨p.2, if_pos hv⟩
    · rw [if_neg hv]
      refine h.imp_right fun ⟨a, ha⟩ => ⟨a, (List.mem_cons.1 ha).resolve_left fun heq => ?_⟩
      exact hv (congrArg Prod.fst heq).symm

/-- Machines that agree on all but a register do so after the same registers are written in both. -/
theorem AgreeOff.setAll (h : m.AgreeOff v m') (vals : List (ValueId × Val)) :
    (m.setAll vals).AgreeOff v (m'.setAll vals) := by
  induction vals generalizing m m' with
  | nil => exact h
  | cons p vals ih => exact ih (h.setReg p.1 p.2)

/-! ## Leaving a block -/

/-- The block that a terminator goes to, or the end of the run. -/
def leave (f : Function) (m : Machine) : Instruction → Except Halt BlockId
  | .jump target => .ok target
  | .branch cond ifTrue ifFalse =>
    match m.get f cond >>= Val.asInt with
    | .ok c => .ok (if c != 0 then ifTrue else ifFalse)
    | .error t => .error (.trapped t)
  | .ret none => .error (.finished (m.outcome none))
  | .ret (some a) =>
    match m.get f a with
    | .ok x => .error (.finished (m.outcome (some x)))
    | .error t => .error (.trapped t)
  | _ => .error (.trapped .unreachable)

/-- A terminator goes to one of its successors. -/
theorem mem_successors_of_leave (h : m.leave f instr = .ok b) : b ∈ instr.successors := by
  cases instr with
  | jump target =>
    obtain rfl := Except.ok.inj h
    exact List.mem_singleton.2 rfl
  | branch cond ifTrue ifFalse =>
    simp only [leave] at h
    simp only [Instruction.successors]
    split at h
    · obtain rfl := Except.ok.inj h
      split <;> split <;> simp_all
    · cases h
  | ret result =>
    cases result with
    | none => cases h
    | some a =>
      simp only [leave] at h
      split at h <;> cases h
  | _ => cases h

/-- Where a terminator goes depends on its operands, and what a return shows on memory and the
calls. -/
theorem AgreeOff.leave (h : m.AgreeOff v m')
    (hget : ∀ o ∈ instr.operands, m'.get g o = m.get f o) :
    m'.leave g instr = m.leave f instr := by
  have houtcome : ∀ r, m'.outcome r = m.outcome r := fun r => by
    rw [outcome, outcome, globals, globals, h.memory, h.calls]
  cases instr with
  | branch cond ifTrue ifFalse =>
    have hcond := hget cond (by simp [Instruction.operands])
    simp only [Machine.leave, hcond]
  | ret result =>
    cases result with
    | none => simp only [Machine.leave, houtcome]
    | some a =>
      have ha := hget a (by simp [Instruction.operands])
      simp only [Machine.leave, ha, houtcome]
  | _ => rfl

end Machine

/-! ## Steps -/

namespace Running

/-- In a well-formed function entering a block gives its phis their values and starts with its first
instruction. -/
theorem enter_eq (hw : f.WellFormed) (hb : f.hasBlock b = true) (came : Option BlockId)
    (m : Machine) : enter f came b m =
      match m.phiValues f came b with
      | .error t => .error (.trapped t)
      | .ok vals => .ok { block := b, rest := f.instsOf b, machine := m.setAll vals } := by
  obtain ⟨block, hblock⟩ := Function.exists_block? hb
  have hinsts : f.instsOf b = block.insts := by
    rw [Function.instsOf, hblock]
  have hne : block.insts.isEmpty = false := by
    rw [← hinsts]
    exact List.isEmpty_eq_false_iff.2 (hw.nonempty b hb)
  simp only [enter, hblock, hinsts, hne]
  rfl

/-- A step inside a block. -/
theorem step_inside (hrest : s.rest = i :: j :: rest) (hi : f.inst? i = some instr)
    (hn : instr.isTerminator = false) : s.step f =
      match s.machine.perform f instr with
      | .error t => .error (.trapped t)
      | .ok m => .ok { s with rest := j :: rest, machine := m } := by
  obtain ⟨block, rest', next, m⟩ := s
  simp only at hrest
  subst hrest
  simp only [step, hi]
  cases instr with
  | jump target => cases hn
  | branch cond ifTrue ifFalse => cases hn
  | ret result => cases hn
  | unreachable => cases hn
  | _ =>
    simp only [execute]
    cases m.perform f _ <;> rfl

/-- A step out of a block. -/
theorem step_terminator (hrest : s.rest = [i]) (hi : f.inst? i = some instr)
    (ht : instr.isTerminator = true) :
    s.step f = s.machine.leave f instr >>= fun b => enter f (some s.block) b s.machine := by
  obtain ⟨block, rest', next, m⟩ := s
  simp only at hrest
  subst hrest
  simp only [step, hi]
  cases instr with
  | jump target => rfl
  | branch cond ifTrue ifFalse =>
    simp only [execute, Machine.leave]
    cases m.get f cond >>= Val.asInt <;> rfl
  | ret result =>
    cases result with
    | none => rfl
    | some a =>
      simp only [execute, Machine.leave]
      cases m.get f a <;> rfl
  | unreachable => rfl
  | _ => cases ht

/-- Whether a run stands before an instruction of its block. -/
def Placed (f : Function) (s : Running) : Prop :=
  s.rest ≠ [] ∧ ∃ before, f.instsOf s.block = before ++ s.rest

/-- Whether a run has just entered its block, with the given machine before. -/
def Enters (f : Function) (came : Option BlockId) (m : Machine) (u : Running) : Prop :=
  f.hasBlock u.block = true ∧ u.rest = f.instsOf u.block ∧
    ∃ vals, m.phiValues f came u.block = .ok vals ∧ u.machine = m.setAll vals

/-- Whether a step performs an instruction that is not the last one of its block, with the given
machine as the result. -/
structure Performs (f : Function) (s u : Running) (i : InstId) (instr : Instruction)
    (m : Machine) : Prop where
  /-- The instruction is in the block. -/
  mem : i ∈ f.instsOf s.block
  /-- The instruction is in the arena. -/
  content : f.inst? i = some instr
  /-- The machine is that after the instruction. -/
  machine : s.machine.perform f instr = .ok m
  /-- The instruction is the next one. -/
  rest : s.rest = i :: u.rest
  /-- More instructions are left. -/
  more : u.rest ≠ []
  /-- The block stays. -/
  block : u.block = s.block

/-- Entering a block that exists. -/
theorem enters_of_enter (hw : f.WellFormed) (hb : f.hasBlock b = true)
    (h : enter f came b m = .ok u) : u.block = b ∧ u.Enters f came m := by
  rw [enter_eq hw hb] at h
  split at h
  · cases h
  · next vals hvals =>
    obtain rfl := Except.ok.inj h
    exact ⟨rfl, hb, rfl, vals, hvals, rfl⟩

/-- A block is entered before its first instruction. -/
theorem Enters.placed (hw : f.WellFormed) (h : u.Enters f came m) : u.Placed f := by
  obtain ⟨hb, hrest, -⟩ := h
  exact ⟨hrest ▸ hw.nonempty _ hb, [], hrest.symm⟩

/-- After an instruction that is not the last one the next one comes. -/
theorem Performs.placed (h : s.Performs f u i instr m) (hs : s.Placed f) : u.Placed f := by
  obtain ⟨-, before, hl⟩ := hs
  exact ⟨h.more, before ++ [i], by rw [h.block, hl, h.rest]; simp⟩

/-- A step enters the next block after the last instruction of this one, or performs another
instruction of this one. -/
theorem step_cases (hw : f.WellFormed) (hs : s.Placed f) (h : s.step f = .ok u) :
    (∃ i instr, s.rest = [i] ∧ f.inst? i = some instr ∧ instr.isTerminator = true ∧
      u.block ∈ f.successors s.block ∧ u.Enters f (some s.block) s.machine) ∨
      ∃ i instr, s.Performs f u i instr u.machine := by
  obtain ⟨hne, before, hl⟩ := hs
  obtain ⟨i, rest, hrest⟩ := List.exists_cons_of_ne_nil hne
  rw [hrest] at hl
  have hmem : i ∈ f.instsOf s.block := by rw [hl]; simp
  obtain ⟨instr, hi⟩ := hw.exists_inst? hmem
  have hterm := hw.terminator s.block before i rest instr hl hi
  cases rest with
  | nil =>
    rw [step_terminator hrest hi (hterm.2 rfl)] at h
    obtain ⟨b, hleave, h⟩ := exists_of_bind_eq_ok h
    have hsucc : b ∈ f.successors s.block := by
      rw [hw.successors_eq hl hi]
      exact Machine.mem_successors_of_leave hleave
    obtain ⟨rfl, henters⟩ := enters_of_enter hw (hw.hasBlock_of_mem_successors hsucc) h
    exact .inl ⟨i, instr, hrest, hi, hterm.2 rfl, hsucc, henters⟩
  | cons j rest =>
    have hn : instr.isTerminator = false := Bool.eq_false_iff.2 fun ht => by cases hterm.1 ht
    rw [step_inside hrest hi hn] at h
    split at h
    · cases h
    · next m hm =>
      obtain rfl := Except.ok.inj h
      exact .inr ⟨i, instr, hmem, hi, hm, hrest, by simp, rfl⟩

/-! ## Runs in step -/

/-- Whether a number of steps leads from one place of a run to another. -/
inductive Reaches (f : Function) : Nat → Running → Running → Prop where
  /-- No step. -/
  | refl {s : Running} : Reaches f 0 s s
  /-- One step more. -/
  | step {k : Nat} {s u w : Running} (h : s.step f = .ok u) (t : Reaches f k u w) :
    Reaches f (k + 1) s w

/-- The fuel that is left for the rest of a run. -/
theorem Reaches.run_eq {k : Nat} {u : Running} (h : Reaches f k s u) (n : Nat) :
    s.run f (n + k) = u.run f n := by
  induction h with
  | refl => rfl
  | step hs _ ih =>
    rw [← Nat.add_assoc, run, hs]
    exact ih

/-- A run that does not use up its fuel has enough of it for its steps. -/
theorem Reaches.le_of_run {k n : Nat} {u : Running} (h : Reaches f k s u)
    (hn : s.run f n ≠ .trapped .outOfFuel) : k ≤ n := by
  induction h generalizing n with
  | refl => exact Nat.zero_le n
  | step hs _ ih =>
    cases n with
    | zero => exact absurd rfl hn
    | succ n =>
      rw [run, hs] at hn
      exact Nat.succ_le_succ (ih hn)

/-- Whether related runs of two functions come, each after some steps of its own, to a step that
ends both in the same way or leads to related runs again. -/
def InStep (f g : Function) (R : Running → Running → Prop) : Prop :=
  ∀ s s', R s s' → ∃ j k u u', Reaches f j s u ∧ Reaches g k s' u' ∧
    ((∃ e, u.step f = .error e ∧ u'.step g = .error e) ∨
      ∃ w w', u.step f = .ok w ∧ u'.step g = .ok w' ∧ R w w')

/-- Runs that are in step are so the other way round. -/
theorem InStep.symm {R : Running → Running → Prop} (h : InStep f g R) :
    InStep g f fun s' s => R s s' := fun s' s hR => by
  obtain ⟨j, k, u, u', hu, hu', hstep⟩ := h s s' hR
  refine ⟨k, j, u', u, hu', hu, hstep.imp ?_ ?_⟩
  · exact fun ⟨e, he, he'⟩ => ⟨e, he', he⟩
  · exact fun ⟨w, w', hw, hw', hR⟩ => ⟨w', w, hw', hw, hR⟩

/-- Of two runs in step the second ends as the first does. -/
theorem InStep.exists_run {R : Running → Running → Prop} (h : InStep f g R) {s' : Running}
    (hR : R s s') {n : Nat} (hn : s.run f n ≠ .trapped .outOfFuel) :
    ∃ n', s'.run g n' = s.run f n := by
  induction n using Nat.strongRecOn generalizing s s' with
  | _ n ih =>
    obtain ⟨j, k, u, u', hu, hu', hstep⟩ := h s s' hR
    obtain ⟨l, rfl⟩ := Nat.exists_eq_add_of_le' (hu.le_of_run hn)
    rw [hu.run_eq] at hn ⊢
    cases l with
    | zero => exact absurd rfl hn
    | succ l =>
      rcases hstep with ⟨e, he, he'⟩ | ⟨w, w', hw, hw', hR'⟩
      · refine ⟨1 + k, ?_⟩
        rw [hu'.run_eq, run, run, he, he']
      · rw [run, hw] at hn ⊢
        obtain ⟨n', hn'⟩ := ih l (by omega) hR' hn
        refine ⟨n' + 1 + k, ?_⟩
        rw [hu'.run_eq, run, hw']
        exact hn'

end Running

end LoopHoist
