import LoopHoist.Proofs.Machine.Addresses
import LoopHoist.Proofs.Machine.Kinds

/-!
# What holds during a run

For a function in single-assignment form with an assignment of kinds, `Machine.Sound` is kept by
every instruction and by the phis of every block: registers and cells hold values of their kinds,
and slots own their objects. `Running.Sound` adds where the run is, and that everything written
on every way to there is in its register. So every operand that is available has a value of its kind
(`Machine.Sound.exists_get`), and a hoisted computation or load cannot trap.
-/

namespace LoopHoist

namespace Function

/-- Whether no instruction writes a parameter or a value that stands for a global. -/
def GivenUnwritten (f : Function) : Prop :=
  ∀ p ∈ f.placed, ∀ v ∈ p.2.def?, ¬ f.Given v ∧ ∀ q ∈ f.params, q.value ≠ v

instance (f : Function) : Decidable f.GivenUnwritten :=
  inferInstanceAs (Decidable (∀ p ∈ f.placed, ∀ v ∈ p.2.def?, ¬ f.Given v ∧
    ∀ q ∈ f.params, q.value ≠ v))

/-- Whether each value has at most one definition: it is given, or one instruction writes it. -/
structure DefinedOnce (f : Function) : Prop where
  /-- No value is written by two instructions. -/
  writesOnce : f.WritesOnce
  /-- No instruction writes what is given. -/
  given : f.GivenUnwritten

/-- A slot is not given. -/
theorem DefinedOnce.not_given {f : Function} {v : ValueId} (h : f.DefinedOnce) (hv : f.Slot v) :
    ¬ f.Given v := by
  obtain ⟨p, hp, hslot⟩ := hv
  exact (h.given p hp v (Instruction.def?_of_slot? hslot)).1

/-- What is asked of a function that runs. -/
structure Runnable (f : Function) (kinds : ValueId → Kind) : Prop where
  /-- Its parts describe each other. -/
  coherent : f.Coherent
  /-- It is well-formed. -/
  wellFormed : f.WellFormed
  /-- It is in single-assignment form. -/
  single : f.SingleAssignment
  /-- Nothing writes what is given. -/
  given : f.GivenUnwritten
  /-- The kinds are right. -/
  kindCorrect : f.KindCorrect kinds

end Function

variable {f g : Function} {kinds : ValueId → Kind} {m m' : Machine} {instr : Instruction}
  {i j : InstId} {v dst : ValueId} {o : Operand} {a : Val}

namespace Function.Rearranged

variable (h : f.Rearranged g)
include h

/-- Memory has the same kind. -/
theorem memoryKind_eq : g.memoryKind kinds = f.memoryKind kinds := by
  have hall : (g.placed.all fun p => p.2.storesInt kinds) =
      f.placed.all fun p => p.2.storesInt kinds := by
    rw [Bool.eq_iff_iff, List.all_eq_true, List.all_eq_true]
    exact forall_congr' fun _ => imp_congr_left h.mem_placed_iff
  unfold Function.memoryKind
  rw [hall]

/-- Kinds that are right stay right. -/
theorem kindCorrect (hk : f.KindCorrect kinds) : g.KindCorrect kinds where
  params := h.params.symm ▸ hk.params
  globals v name hv := hk.globals v name ((h.def? v).symm.trans hv)
  placed p hp := h.memoryKind_eq ▸ hk.placed p (h.mem_placed_iff.1 hp)

/-- What is given stays unwritten. -/
theorem givenUnwritten (hn : f.GivenUnwritten) : g.GivenUnwritten := fun p hp v hv => by
  obtain ⟨hgiven, hparams⟩ := hn p (h.mem_placed_iff.1 hp) v hv
  exact ⟨fun hg => hgiven (h.given_iff.1 hg), h.params.symm ▸ hparams⟩

end Function.Rearranged

/-! ## The data -/

/-- What holds of the data of a run. -/
structure Machine.Sound (f : Function) (kinds : ValueId → Kind) (m : Machine) : Prop where
  /-- Registers hold values of their kinds. -/
  regs : ∀ v a, m.reg? v = some a → (kinds v).Covers a.kind
  /-- Cells hold values of the kind of memory. -/
  cells : ∀ p, (f.memoryKind kinds).Covers (m.cell p).kind
  /-- The parameters are in their registers. -/
  params : ∀ q ∈ f.params, ∃ a, m.reg? q.value = some a
  /-- The register of a slot holds an address. -/
  slots : ∀ v a, f.Slot v → m.reg? v = some a → ∃ p, a = .ptr p
  /-- Slots own their objects. -/
  orderly : m.Orderly f True

/-- What an instruction gives is of the kind of its result, and an address if it makes a slot. -/
theorem Machine.Gives.spec {mem : Kind} (h : m.Gives f instr a) (hdst : instr.def? = some dst)
    (hk : instr.KindCorrect kinds mem) (hget : ∀ o a, m.get f o = .ok a →
      (o.kind kinds).Covers a.kind) (hcell : ∀ p, mem.Covers (m.cell p).kind) :
    (kinds dst).Covers a.kind ∧ (instr.slot? = some dst → ∃ p, a = .ptr p) := by
  cases h with
  | @compute dst' c a hc =>
    obtain rfl := Option.some.inj hdst
    exact ⟨Computation.KindCorrect.covers hk hget hc, fun hs => by cases hs⟩
  | alloca dst' ty =>
    obtain rfl := Option.some.inj hdst
    exact ⟨hk, fun _ => ⟨_, rfl⟩⟩
  | @load dst' ty addr access p hp =>
    obtain rfl := Option.some.inj hdst
    exact ⟨Kind.Covers.trans hk (hcell p), fun hs => by cases hs⟩
  | call dst' callee args n => exact ⟨hk dst hdst, fun hs => by cases hs⟩

namespace Machine.Sound

variable (hf : f.Runnable kinds) (hm : m.Sound f kinds)
include hf hm

/-- Operands have values of their kinds. -/
theorem kind_of_get (h : m.get f o = .ok a) : (o.kind kinds).Covers a.kind := by
  rcases get_eq_ok h with ⟨i, rfl, rfl⟩ | ⟨v, name, rfl, hv, rfl⟩ | ⟨v, rfl, hv⟩
  · exact Kind.covers_refl _
  · exact hf.kindCorrect.globals v name hv
  · exact hm.regs v a hv

/-- An instruction of the function keeps what holds of the data. -/
theorem perform (hp : (i, instr) ∈ f.placed) (h : m.perform f instr = .ok m') :
    m'.Sound f kinds := by
  have horderly := hm.orderly.carries (carries_perform hf.single.writesOnce hp h)
  have hparams : ∀ q ∈ f.params, ∃ a, m'.reg? q.value = some a := fun q hq =>
    exists_reg?_perform h (hm.params q hq)
  obtain ⟨-, ⟨dst, a, hdst, -, hgives, hreg, hmem⟩ |
    ⟨ty, src, addr, access, a, q, rfl, -, hsrc, rfl⟩ | ⟨-, hregs, hmem⟩⟩ := perform_cases h
  · obtain ⟨hkind, hslot⟩ := hgives.spec hdst (hf.kindCorrect.placed _ hp)
      (fun _ _ => hm.kind_of_get hf) hm.cells
    refine ⟨fun v b hb => ?_, fun p => ?_, hparams, fun v b hv hb => ?_, horderly⟩
    · rw [hreg] at hb
      split at hb
      · next heq =>
        obtain rfl := Option.some.inj hb
        exact heq ▸ hkind
      · exact hm.regs v b hb
    · rw [cell_congr hmem]
      exact hm.cells p
    · rw [hreg] at hb
      split at hb
      · next heq =>
        obtain rfl := Option.some.inj hb
        subst heq
        -- No other instruction defines the value, so its slot is the one made here.
        exact hslot (hf.single.writesOnce.slot?_eq hp hdst hv)
      · exact hm.slots v b hv hb
  · refine ⟨hm.regs, fun p => ?_, hparams, hm.slots, horderly⟩
    rw [cell_setCell]
    split
    · exact (Function.memoryKind_covers hp).trans (hm.kind_of_get hf hsrc)
    · exact hm.cells p
  · have hreg : ∀ v, m'.reg? v = m.reg? v := fun v => by rw [reg?, hregs, reg?]
    refine ⟨fun v b hb => hm.regs v b (hreg v ▸ hb), fun p => ?_, hparams,
      fun v b hv hb => hm.slots v b hv (hreg v ▸ hb), horderly⟩
    rw [cell_congr hmem]
    exact hm.cells p

/-- The phis of a block keep what holds of the data. -/
theorem setPhis {b : BlockId} {came : Option BlockId} {vals : List (ValueId × Val)}
    (h : m.phiValues f came b = .ok vals) : (m.setAll vals).Sound f kinds := by
  -- What a phi writes is of the kind of its result, which is no slot.
  have hvals : ∀ p ∈ vals, (kinds p.1).Covers p.2.kind ∧ ¬ f.Slot p.1 := fun p hp => by
    obtain ⟨i, ty, ins, c, o, hi, hinst, -, ho, hget⟩ := (phiValues_eq_ok h).1 p hp
    have hplaced : (i, Instruction.phi p.1 ty ins) ∈ f.placed :=
      Function.mem_placed.2 ⟨⟨b, hi⟩, hinst⟩
    refine ⟨(hf.kindCorrect.placed _ hplaced _ ho).trans (hm.kind_of_get hf hget), fun hs => ?_⟩
    cases hf.single.writesOnce.slot?_eq hplaced rfl hs
  refine ⟨fun v a ha => ?_, fun p => ?_, fun q hq => ?_, fun v a hv ha => ?_,
    hm.orderly.carries (carries_setPhis hf.single.writesOnce h)⟩
  · rcases of_reg?_setAll ha with ha | ha
    · exact hm.regs v a ha
    · exact (hvals _ ha).1
  · rw [cell_congr (memory_setAll m vals)]
    exact hm.cells p
  · exact exists_reg?_setAll (.inl (hm.params q hq))
  · rcases of_reg?_setAll ha with ha | ha
    · exact hm.slots v a hv ha
    · exact absurd hv (hvals _ ha).2

end Machine.Sound

/-- The data is sound at the start, if there is an argument for each parameter. -/
theorem Machine.sound_start (hf : f.Runnable kinds) (module : Module) {args : List Int64}
    (hargs : f.params.length ≤ args.length) : (Machine.start module f args).Sound f kinds := by
  obtain ⟨hcells, hregs, hparams⟩ := start_spec module f args
  refine ⟨fun v a h => ?_, fun p => ?_, fun q hq => ?_, fun v a hv h => ?_,
    orderly_start module f args⟩
  · obtain ⟨⟨q, hq, rfl⟩, n, rfl⟩ := hregs v a h
    exact hf.kindCorrect.params q hq
  · obtain ⟨n, hn⟩ := hcells p
    rw [hn]
    exact f.memoryKind_covers_int kinds
  · obtain ⟨i, hi, rfl⟩ := List.getElem_of_mem hq
    refine hparams f.params[i] args[i] ?_
    rw [← List.getElem_zip (h := by simp; omega)]
    exact List.getElem_mem _
  · obtain ⟨⟨q, hq, rfl⟩, -⟩ := hregs v a h
    obtain ⟨⟨i, instr⟩, hp, hslot⟩ := hv
    exact absurd rfl ((hf.given _ hp _ (Instruction.def?_of_slot? hslot)).2 q hq)

/-! ## Runs -/

/-- Whether all that is written on every way to a place is in its register: by the instructions
`before` in the block, by its phis, and in strictly dominating blocks. -/
def Machine.Filled (f : Function) (m : Machine) (b : BlockId) (before : List InstId) : Prop :=
  ∀ j instr v, f.inst? j = some instr → instr.def? = some v →
    (j ∈ before ∨ (j ∈ f.instsOf b ∧ ∃ dst ty ins, instr = .phi dst ty ins) ∨
      ∃ c, c ≠ b ∧ (Cfg.ofFunction f).Dominates c b ∧ j ∈ f.instsOf c) →
    ∃ a, m.reg? v = some a

/-- What is available can be read, and has a value of its kind. -/
theorem Machine.Sound.exists_get (hf : f.Runnable kinds) (hm : m.Sound f kinds) {b : BlockId}
    {before : List InstId} (hfilled : m.Filled f b before) (hv : f.Available b before v) :
    ∃ a, m.get f (.value v) = .ok a ∧ (kinds v).Covers a.kind := by
  have hread : ∀ {a}, m.reg? v = some a → ∃ a, m.get f (.value v) = .ok a := Machine.exists_get
  obtain ⟨a, ha⟩ : ∃ a, m.get f (.value v) = .ok a := by
    rcases hv with (⟨n, hn⟩ | ⟨name, hname⟩) | ⟨j, hj, hwhere⟩
    · obtain ⟨q, hq, rfl⟩ := hf.coherent.def_param v n hn
      obtain ⟨a, ha⟩ := hm.params q (List.mem_of_getElem? hq)
      exact hread ha
    · exact ⟨_, Machine.get_global hname⟩
    · obtain ⟨instr, hinst, hdef⟩ := hf.coherent.def_inst v j hj
      obtain ⟨a, ha⟩ := hfilled j instr v hinst hdef (hwhere.imp_right .inr)
      exact hread ha
  exact ⟨a, ha, hm.kind_of_get hf ha⟩

/-- What holds of a run between two instructions. -/
structure Running.Sound (f : Function) (kinds : ValueId → Kind) (s : Running) : Prop where
  /-- The block is reachable. -/
  reachable : (Cfg.ofFunction f).Reachable s.block
  /-- The data is sound. -/
  machine : s.machine.Sound f kinds
  /-- The instructions to come are the end of the block, and all before them is in registers. -/
  place : ∃ before, f.instsOf s.block = before ++ s.rest ∧ s.machine.Filled f s.block before
  /-- An instruction is left. -/
  rest : s.rest ≠ []

/-- The blocks after one in the graph are those that its last instruction goes to. -/
theorem Function.WellFormed.succ_eq {b : BlockId} {before : List InstId} (hw : f.WellFormed)
    (hl : f.instsOf b = before ++ [i]) (hi : f.inst? i = some instr) :
    (Cfg.ofFunction f).succ b = instr.successors := by
  rw [Cfg.succ_ofFunction, hw.successors_eq hl hi]

namespace Running.Sound

variable {s s' : Running} (hf : f.Runnable kinds)
include hf

/-- Entering a block makes a sound run, if all that strictly dominating blocks write is in
registers. -/
theorem enters {came : Option BlockId} (hm : m.Sound f kinds)
    (hb : (Cfg.ofFunction f).Reachable s'.block)
    (hfilled : ∀ j instr v c, f.inst? j = some instr → instr.def? = some v → c ≠ s'.block →
      (Cfg.ofFunction f).Dominates c s'.block → j ∈ f.instsOf c → ∃ a, m.reg? v = some a)
    (h : s'.Enters f came m) : s'.Sound f kinds := by
  obtain ⟨hne, -⟩ := h.placed hf.wellFormed
  obtain ⟨-, hrest, vals, hvals, hmach⟩ := h
  refine ⟨hb, hmach ▸ hm.setPhis hf hvals, ⟨[], hrest.symm, fun j instr v hj hv hwhere => ?_⟩, hne⟩
  rw [hmach]
  refine Machine.exists_reg?_setAll ?_
  rcases hwhere with hmem | ⟨hmem, dst, ty, ins, rfl⟩ | ⟨c, hcb, hdom, hmem⟩
  · cases hmem
  · obtain rfl := Option.some.inj hv
    exact .inr ((Machine.phiValues_eq_ok hvals).2 j dst ty ins hmem hj)
  · exact .inl (hfilled j instr v c hj hv hcb hdom hmem)

/-- A step of a sound run leads to a sound run. -/
theorem step (hs : s.Sound f kinds) (h : s.step f = .ok s') : s'.Sound f kinds := by
  obtain ⟨before, hl, hfilled⟩ := hs.place
  have hplaced : s.Placed f := ⟨hs.rest, before, hl⟩
  rcases Running.step_cases hf.wellFormed hplaced h with
    ⟨i, instr, hrest, hi, ht, hsucc, henters⟩ | ⟨i, instr, hperf⟩
  · rw [← Cfg.succ_ofFunction] at hsucc
    refine enters hf hs.machine (hs.reachable.step hsucc) ?_ henters
    intro k instr' v c hk hv hcb hdom hkc
    refine hfilled k instr' v hk hv ?_
    have hdom' := hdom.of_mem_succ hcb hsucc
    by_cases hcs : c = s.block
    · rw [hcs, hl, hrest, List.mem_append, List.mem_singleton] at hkc
      refine .inl (hkc.resolve_right fun hki => ?_)
      -- The terminator writes nothing.
      rw [hki, hi] at hk
      obtain rfl := Option.some.inj hk
      cases hv.symm.trans (Instruction.def?_eq_none ht)
    · exact .inr (.inr ⟨c, hcs, hdom', hkc⟩)
  · have hplace : f.instsOf s'.block = (before ++ [i]) ++ s'.rest := by
      rw [hperf.block, hl, hperf.rest]
      simp
    refine ⟨hperf.block ▸ hs.reachable, hs.machine.perform hf
      (Function.mem_placed.2 ⟨⟨_, hperf.mem⟩, hperf.content⟩) hperf.machine,
      ⟨before ++ [i], hplace, fun k instr' v hk hv hwhere => ?_⟩, hperf.more⟩
    rw [hperf.block] at hwhere
    -- Only what the instruction itself writes is new.
    have hold := fun h => Machine.exists_reg?_perform hperf.machine (hfilled k instr' v hk hv h)
    rcases hwhere with hkm | hwhere
    · rcases List.mem_append.1 hkm with hkb | hki
      · exact hold (.inl hkb)
      · obtain rfl := List.mem_singleton.1 hki
        obtain rfl := Option.some.inj (hperf.content.symm.trans hk)
        by_cases hphi : ∃ dst ty ins, instr = .phi dst ty ins
        · exact hold (.inr (.inl ⟨hperf.mem, hphi⟩))
        · exact Machine.exists_reg?_of_def? hperf.machine hv fun d ty ins heq =>
            hphi ⟨d, ty, ins, heq⟩
    · exact hold (.inr hwhere)

end Running.Sound

end LoopHoist
