import LoopHoist.Proofs.Machine.Interference
import LoopHoist.Proofs.Machine.Soundness

/-!
# What a loop may write

`LoopMemory.mayWrite` answers for an object of a function whether something in a loop may write it.
If it says no, no step taken inside the loop changes a cell of the object
(`mayWrite_sound`), also in runs in which calls write all the memory that they know.

An object stands for several regions in the course of a run: a slot gets a new one whenever its
allocation is executed. `Machine.Belongs` covers the present one and the earlier ones. What the
value of an identified object designates belongs to that object and to no other
(`Machine.eq_of_designates`). So a store through the value of another object writes elsewhere, and
only a private slot is left where the address of a store is unknown or a call is made: it takes the
slot's own value to get to it.
-/

namespace LoopHoist

variable {f : Function} {m : Machine} {t u : Running} {o o' : MemObject} {r : MemRegion}
  {v : ValueId} {l : Loop} {i : InstId} {b : BlockId} {slots : StackSlots} {honest : Prop}

/-! ## Objects -/

/-- The value that names an object. -/
def MemObject.value : MemObject → ValueId
  | global v | stack v => v

/-- Whether an object is a global or a stack slot of a function. -/
def Function.IsObject (f : Function) : MemObject → Prop
  | .global v => ∃ name, f.def? v = some (.global name)
  | .stack v => f.Slot v

/-- An address that names an object is its value. -/
theorem Function.isObject_of_object? {addr : Operand}
    (h : f.object? (.ofFunction f) addr = some o) : f.IsObject o ∧ addr = .value o.value := by
  obtain ⟨v, rfl, ⟨hname, rfl⟩ | ⟨-, hs, rfl⟩⟩ := object?_eq_some h
  · exact ⟨hname, rfl⟩
  · exact ⟨hs, rfl⟩

/-- The value of a slot names it, if it is bound. -/
theorem Function.DefinedOnce.object?_slot (h : f.DefinedOnce) (hs : f.Slot v)
    (hb : f.isBound v = true) : f.object? (.ofFunction f) (.value v) = some (.stack v) := by
  have hn := h.not_given hs
  have hslot := StackSlots.isSlot_iff.2 hs
  simp only [Function.isBound] at hb
  simp only [Function.object?, Operand.value?]
  cases hd : f.def? v with
  | none => simp [hd] at hb
  | some d =>
    cases d with
    | param n => exact absurd (.inl ⟨n, hd⟩) hn
    | global name => exact absurd (.inr ⟨name, hd⟩) hn
    | inst j => simp [hslot]
    | unbound => simp [hd] at hb

namespace Machine

/-- Whether the value of an object designates a region. -/
def Designates (f : Function) (m : Machine) (o : MemObject) (r : MemRegion) : Prop :=
  ∃ p, m.get f (.value o.value) = .ok (.ptr p) ∧ p.region = r

/-- Whether a region is one of those that the value of an object designates or designated. -/
def Belongs (f : Function) (honest : Prop) (m : Machine) (r : MemRegion) : MemObject → Prop
  | .global v => ∃ name, f.def? v = some (.global name) ∧ r = .global name
  | .stack v => ∃ k, r = .stack k ∧ m.Owned f honest v k

/-- The region that the value of a global designates. -/
theorem Designates.eq_global {name : String} (h : m.Designates f (.global v) r)
    (hv : f.def? v = some (.global name)) : r = .global name := by
  obtain ⟨p, hp, rfl⟩ := h
  cases (get_global hv).symm.trans hp
  rfl

/-- The region that the value of a slot designates. -/
theorem Designates.exists_stack (h : m.Designates f (.stack v) r) (hf : f.DefinedOnce)
    (hm : m.Orderly f honest) (hv : f.Slot v) : ∃ k, r = .stack k ∧ m.Leads k (.reg v) := by
  obtain ⟨p, hp, rfl⟩ := h
  rcases get_eq_ok hp with ⟨_, hi, -⟩ | ⟨w, name, hw, hname, -⟩ | ⟨w, hw, hreg⟩
  · cases hi
  · cases hw
    exact absurd (.inr ⟨name, hname⟩) (hf.not_given hv)
  · cases hw
    obtain ⟨k, rfl⟩ := hm.start _ p hv hreg
    exact ⟨k, rfl, _, hreg, rfl⟩

/-- What the value of an object designates belongs to the object. -/
theorem Designates.belongs (h : m.Designates f o r) (hf : f.DefinedOnce) (hm : m.Orderly f honest)
    (ho : f.IsObject o) : m.Belongs f honest r o := by
  cases o with
  | global v =>
    obtain ⟨name, hv⟩ := ho
    exact ⟨name, hv, h.eq_global hv⟩
  | stack v =>
    obtain ⟨k, hk, hlead⟩ := h.exists_stack hf hm ho
    exact ⟨k, hk, hm.owned v k ho hlead⟩

/-- Different objects do not overlap: what the value of an object designates belongs to no other. -/
theorem eq_of_designates (hc : f.Coherent) (hf : f.DefinedOnce) (hm : m.Orderly f honest)
    (ho : f.IsObject o) (h : m.Designates f o r) (hr : m.Belongs f honest r o') : o = o' := by
  cases o with
  | global v =>
    obtain ⟨name, hv⟩ := ho
    obtain rfl := h.eq_global hv
    cases o' with
    | global w =>
      obtain ⟨name', hw, heq⟩ := hr
      cases heq
      have hvw := (hc.def_global v name hv).symm.trans (hc.def_global w name hw)
      exact congrArg MemObject.global (Option.some.inj hvw)
    | stack w =>
      obtain ⟨k, hk, -⟩ := hr
      cases hk
  | stack v =>
    obtain ⟨k, rfl, hlead⟩ := h.exists_stack hf hm ho
    cases o' with
    | global w =>
      obtain ⟨name, -, hk⟩ := hr
      cases hk
    | stack w =>
      obtain ⟨k', hk, howned⟩ := hr
      cases hk
      exact congrArg MemObject.stack (howned.slots v ho hlead)

/-- A region stays with its object. -/
theorem Belongs.carries {m' : Machine} {made : Option ValueId} (h : m.Belongs f honest r o)
    (hc : m.Carries f honest made m') : m'.Belongs f honest r o := by
  cases o with
  | global v => exact h
  | stack v =>
    obtain ⟨k, hk, howned⟩ := h
    exact ⟨k, hk, howned.carries hc⟩

/-- What is known to code outside the function belongs to no private slot. -/
theorem Belongs.not_known (h : m.Belongs f honest r (.stack v)) (hh : honest) (hv : f.Private v) :
    ¬ m.Known r := by
  obtain ⟨k, rfl, howned⟩ := h
  exact fun hknown => howned.not_loose hh hv hknown.loose

end Machine

/-! ## Inside a loop -/

/-- Only a private slot stays unwritten where there are calls. -/
theorem LoopMemory.private_of_hasCall {lm : LoopMemory} (h : lm.mayWrite slots o = false)
    (hcall : lm.hasCall = true) : ∃ v, o = .stack v ∧ slots.isPrivate v = true := by
  unfold mayWrite at h
  rw [Bool.or_eq_false_iff, hcall, Bool.and_true] at h
  cases o with
  | global v => cases h.1
  | stack v => exact ⟨v, rfl, by simpa using h.1⟩

/-- A call in a loop is counted. -/
theorem LoopMemory.hasCall_of_mem {dst : Option ValueId} {callee : String} {args : List Operand}
    (hb : b ∈ l.blocks) (hi : i ∈ f.instsOf b) (hinst : f.inst? i = some (.call dst callee args)) :
    (ofLoop f slots l).hasCall = true :=
  decide_eq_true (List.countP_pos_iff.2 ⟨_, Function.mem_bodyOf hb hi hinst, rfl⟩)

section Loop

variable (hc : f.Coherent) (hw : f.WellFormed) (hf : f.DefinedOnce)
  (hnot : (LoopMemory.ofLoop f (.ofFunction f) l).mayWrite (.ofFunction f) o = false)
  (hh : ∀ v, o = .stack v → (StackSlots.ofFunction f).isPrivate v = true → honest)
include hc hw hf hnot hh

/-- A store in a loop that may not write an object writes none of its regions. -/
theorem region_ne_of_store {ty : Ty} {src addr : Operand} {access : Access} {p : Address}
    (hm : m.Orderly f honest) (hr : m.Belongs f honest r o) (hb : b ∈ l.blocks)
    (hi : i ∈ f.instsOf b) (hinst : f.inst? i = some (.store ty src addr access))
    (haddr : m.get f addr = .ok (.ptr p)) : p.region ≠ r := by
  rintro rfl
  have hstore : f.object? (.ofFunction f) addr ∈
      (LoopMemory.ofLoop f (.ofFunction f) l).stores := LoopMemory.mem_stores hb hi hinst
  obtain ⟨hne, hunknown⟩ := LoopMemory.of_mayWrite_eq_false hnot _ hstore
  cases hobject : f.object? (.ofFunction f) addr with
  | some o' =>
    obtain ⟨ho', rfl⟩ := Function.isObject_of_object? hobject
    have heq := Machine.eq_of_designates hc hf hm ho' ⟨p, haddr, rfl⟩ hr
    exact hne (hobject.trans (congrArg some heq))
  | none =>
    obtain ⟨v, rfl, hpriv⟩ := hunknown hobject
    obtain ⟨k, hk, howned⟩ := hr
    have hv := StackSlots.isPrivate_iff.1 hpriv
    -- The register of the slot alone leads there, and its value names the slot.
    obtain ⟨w, rfl, hlead⟩ := Machine.leads_of_get haddr (k := k) (congrArg some hk)
    obtain rfl := Holder.reg.inj (howned.secret (hh v rfl hpriv) hv _ hlead)
    have hbound := hw.bound b i hi _ hinst w
      (Instruction.mem_usedValues (o := .value w) (by simp [Instruction.operands]) rfl)
    rw [hf.object?_slot hv.1 hbound] at hobject
    cases hobject

/-- An instruction of a loop that may not write an object changes none of its regions. -/
theorem cell_eq_of_perform {instr : Instruction} {m' : Machine} (hm : m.Orderly f honest)
    (hr : m.Belongs f honest r o) (hb : b ∈ l.blocks) (hi : i ∈ f.instsOf b)
    (hinst : f.inst? i = some instr) (h : m.perform f instr = .ok m') (offset : Int64) :
    m'.cell ⟨r, offset⟩ = m.cell ⟨r, offset⟩ := by
  rcases (Machine.perform_cases h).2 with ⟨-, -, -, -, -, -, hmem⟩ |
      ⟨ty, src, addr, access, a, p, rfl, haddr, -, rfl⟩ | ⟨-, -, hmem⟩
  · rw [Machine.cell_congr hmem]
  · have hne := region_ne_of_store hc hw hf hnot hh hm hr hb hi hinst haddr
    rw [Machine.cell_setCell, if_neg fun heq => hne (congrArg Address.region heq)]
  · rw [Machine.cell_congr hmem]

/-- A step inside a loop that may not write an object changes none of its regions. -/
theorem Running.OpenStep.cell_eq (h : t.OpenStep f honest u) (hplaced : t.Placed f)
    (hm : t.machine.Orderly f honest) (hr : t.machine.Belongs f honest r o)
    (hin : l.contains t.block = true) (offset : Int64) :
    u.machine.cell ⟨r, offset⟩ = t.machine.cell ⟨r, offset⟩ := by
  have hb : t.block ∈ l.blocks := List.contains_iff_mem.1 hin
  rcases h.cases hw hplaced with ⟨-, -, vals, -, hmach⟩ | ⟨i, instr, m, hperf, hmach⟩
  · rw [hmach, Machine.cell_congr (Machine.memory_setAll _ _)]
  · have hcell := cell_eq_of_perform hc hw hf hnot hh hm hr hb hperf.mem hperf.content hperf.machine
      offset
    rcases hmach with hmach | ⟨⟨dst, callee, args, rfl⟩, hover⟩
    · rw [hmach, hcell]
    · -- Since there is a call, the object is a private slot, of which nobody else knows.
      obtain ⟨v, rfl, hpriv⟩ := LoopMemory.private_of_hasCall hnot
        (LoopMemory.hasCall_of_mem hb hperf.mem hperf.content)
      have hr' := hr.carries (Machine.carries_perform hf.writesOnce
        (Function.mem_placed.2 ⟨⟨_, hperf.mem⟩, hperf.content⟩) hperf.machine)
      rcases hover.cells ⟨r, offset⟩ with heq | hknown
      · rw [heq, hcell]
      · exact absurd hknown (hr'.not_known (hh v rfl hpriv) (StackSlots.isPrivate_iff.1 hpriv))

end Loop

/-- The answer is right: if it says that nothing in a loop may write an object, no step taken inside
the loop changes a cell of what the value of the object designates then or designated before, also
where calls write all that they know. They may write any value there, made-up addresses among them,
unless the object is a private slot; for a private slot calls have to be honest. -/
theorem mayWrite_sound (f : Function) (hb : f.Built) (hv : f.validate = .ok ())
    (hf : f.DefinedOnce) : ∃ a, f.analyze = .ok a ∧ ∀ l ∈ a.forest.loops, ∀ o, f.IsObject o →
      (LoopMemory.ofLoop f a.slots l).mayWrite a.slots o = false →
      ∀ honest : Prop, (∀ v, o = .stack v → a.slots.isPrivate v = true → honest) →
      ∀ module args start s t u r, Running.Starts f module args start →
        start.OpenRun f honest s → s.OpenRun f honest t → l.contains t.block = true →
        t.OpenStep f honest u → s.machine.Designates f o r →
        ∀ offset, u.machine.cell ⟨r, offset⟩ = t.machine.cell ⟨r, offset⟩ := by
  have hw := Function.violation?_eq_none_iff.1 (Function.validate_eq_ok_iff.1 hv)
  obtain ⟨a, ha, han⟩ := exists_analyze hw
  refine ⟨a, ha, ?_⟩
  rw [han.slots]
  intro l _ o ho hnot honest hh module args start s t u r hstart hrun hrun' hin hstep hr
  obtain ⟨hplaced, horderly⟩ := hstart.spec hw hf.writesOnce
  obtain ⟨hplaced, horderly⟩ := hrun.keeps hw hf.writesOnce
    (fun _ _ _ hm hmove => Machine.Orderly.carries hm hmove) hplaced horderly
  have hbelongs := hr.belongs hf horderly ho
  obtain ⟨hplaced, horderly, hbelongs⟩ := hrun'.keeps hw hf.writesOnce
    (P := fun m => m.Orderly f honest ∧ m.Belongs f honest r o)
    (fun _ _ _ hm hmove => ⟨hm.1.carries hmove, hm.2.carries hmove⟩) hplaced ⟨horderly, hbelongs⟩
  exact hstep.cell_eq hb.coherent hw hf hnot hh hplaced horderly hbelongs hin

/-! ## A loop with a call -/

/-- A loop that calls, stores through a loaded address, and loads from a slot of its own. -/
def workshop : Function :=
  Function.edits { name := "workshop" }
    [.addGlobal "desk", .addBlock "entry", .addBlock "loop", .addBlock "exit",
      .addValue, .addValue, .addValue, .addValue,
      .append ⟨0⟩ (.alloca ⟨1⟩ .i64), .append ⟨0⟩ (.alloca ⟨2⟩ .i64),
      .append ⟨0⟩ (.store .ptr (.value ⟨2⟩) (.value ⟨0⟩) {}), .append ⟨0⟩ (.jump ⟨1⟩),
      .append ⟨1⟩ (.call none "tidy" []),
      .append ⟨1⟩ (.load ⟨3⟩ .ptr (.value ⟨0⟩) {}),
      .append ⟨1⟩ (.store .i64 (.imm (.i64 7)) (.value ⟨3⟩) {}),
      .append ⟨1⟩ (.load ⟨4⟩ .i64 (.value ⟨1⟩) {}),
      .append ⟨1⟩ (.branch (.value ⟨4⟩) ⟨1⟩ ⟨2⟩), .append ⟨2⟩ (.ret none)]

/-- The workshop is made by edits. -/
theorem built_workshop : workshop.Built :=
  (Function.Built.new "workshop" [] none).edits _ (by decide)

/-- The workshop is well-formed. -/
theorem validate_workshop : workshop.validate = .ok () :=
  Function.validate_eq_ok_iff.2 (by decide)

/-- Each value of the workshop has one source. -/
theorem definedOnce_workshop : workshop.DefinedOnce := ⟨by decide, by decide⟩

/-- Value 1 is a slot of the workshop. -/
theorem slot_workshop : workshop.Slot ⟨1⟩ := ⟨(⟨0⟩, .alloca ⟨1⟩ .i64), by decide, rfl⟩

/-- Nothing in the loop of the workshop may write slot 1. -/
theorem exists_loop_workshop : ∃ a, workshop.analyze = .ok a ∧ ∃ l ∈ a.forest.loops,
    l.contains ⟨1⟩ = true ∧
      (LoopMemory.ofLoop workshop a.slots l).mayWrite a.slots (.stack ⟨1⟩) = false := by
  have hloop : (match workshop.analyze with
      | .ok a => a.forest.loops.any fun l => l.contains ⟨1⟩ &&
          !(LoopMemory.ofLoop workshop a.slots l).mayWrite a.slots (.stack ⟨1⟩)
      | .error _ => false) = true := by decide +kernel
  split at hloop
  · next a ha =>
    obtain ⟨l, hl, hboth⟩ := List.any_eq_true.1 hloop
    rw [Bool.and_eq_true, Bool.not_eq_true'] at hboth
    exact ⟨a, ha, l, hl, hboth⟩
  · cases hloop

/-- The workshop before the call of a round. -/
def workshopCall (m : Machine) : Running :=
  { block := ⟨1⟩, rest := [⟨4⟩, ⟨5⟩, ⟨6⟩, ⟨7⟩, ⟨8⟩], machine := m }

/-- When the workshop comes to its first call, its own slot has the first stack object, and the
address of the second is on the desk. -/
theorem exists_workshopCall : ∃ start m, Running.Starts workshop { name := "house" } [] start ∧
    Running.Reaches workshop 4 start (workshopCall m) ∧
    m.Designates workshop (.stack ⟨1⟩) (.stack 0) ∧
    m.cell ⟨.global "desk", 0⟩ = .ptr ⟨.stack 1, 0⟩ ∧ m.cell ⟨.stack 1, 0⟩ = .int 0 :=
  ⟨_, _, ⟨⟨0⟩, rfl, rfl⟩, .step rfl (.step rfl (.step rfl (.step rfl .refl))),
    ⟨⟨.stack 0, 0⟩, rfl, rfl⟩, rfl, rfl⟩

/-- The call overwrites the object whose address is on the desk, and the loop may not write the
other one. -/
theorem mayWrite_sound_workshop :
    workshop.Built ∧ workshop.validate = .ok () ∧ workshop.DefinedOnce ∧
    ∃ a, workshop.analyze = .ok a ∧ ∃ l ∈ a.forest.loops,
      (LoopMemory.ofLoop workshop a.slots l).mayWrite a.slots (.stack ⟨1⟩) = false ∧
      ∃ t u : Running, l.contains t.block = true ∧ t.OpenStep workshop True u ∧
        t.machine.Designates workshop (.stack ⟨1⟩) (.stack 0) ∧
        u.machine.cell ⟨.stack 1, 0⟩ ≠ t.machine.cell ⟨.stack 1, 0⟩ ∧
        ∀ offset, u.machine.cell ⟨.stack 0, offset⟩ = t.machine.cell ⟨.stack 0, offset⟩ := by
  obtain ⟨a, ha, l, hl, hin, hnot⟩ := exists_loop_workshop
  obtain ⟨a', ha', hsound⟩ :=
    mayWrite_sound workshop built_workshop validate_workshop definedOnce_workshop
  obtain rfl := Except.ok.inj (ha.symm.trans ha')
  obtain ⟨start, m, hstart, hrun, hm, hdesk, hzero⟩ := exists_workshopCall
  let called : Machine := { m with calls := m.calls.push ⟨"tidy", []⟩ }
  have hover : called.Overwritten True (called.setCell ⟨.stack 1, 0⟩ (.int 5)) :=
    .setCell (.inl ⟨⟨.global "desk", 0⟩, congrArg Val.region? hdesk⟩) (by simp [Val.region?])
  have hstep := Running.OpenStep.call (f := workshop) (s := workshopCall m) rfl rfl rfl hover rfl
  refine ⟨built_workshop, validate_workshop, definedOnce_workshop, a, ha, l, hl, hnot, _, _, hin,
    hstep, hm, ?_, ?_⟩
  · rw [Machine.cell_setCell, if_pos rfl]
    exact fun heq => by cases heq.trans hzero
  · exact hsound l hl (.stack ⟨1⟩) slot_workshop hnot True (fun _ _ _ => trivial) _ _ _ _ _ _ _ hstart
      hrun.openRun .refl hin hstep hm

/-- A call in the workshop that is not honest. It makes up the address of the slot that the workshop
keeps to itself, and leaves it on the desk; the load takes it from there, and then the store writes
through it. -/
theorem exists_forgery : ∃ start s t u, Running.Starts workshop { name := "house" } [] start ∧
    Running.Reaches workshop 4 start s ∧ s.machine.Designates workshop (.stack ⟨1⟩) (.stack 0) ∧
    s.OpenRun workshop False t ∧ t.block = ⟨1⟩ ∧ t.OpenStep workshop False u ∧
    t.machine.cell ⟨.stack 0, 0⟩ = .int 0 ∧ u.machine.cell ⟨.stack 0, 0⟩ = .int 7 := by
  have hover (m : Machine) : m.Overwritten False
      (m.setCell ⟨.global "desk", 0⟩ (.ptr ⟨.stack 0, 0⟩)) := .setCell trivial False.elim
  exact ⟨_, _, _, _, ⟨⟨0⟩, rfl, rfl⟩, .step rfl (.step rfl (.step rfl (.step rfl .refl))),
    ⟨⟨.stack 0, 0⟩, rfl, rfl⟩, .head (.call rfl rfl rfl (hover _) rfl) (.single (.plain rfl)), rfl,
    .plain rfl, rfl, rfl⟩

/-- Where calls may write any value, the answer is wrong for a private slot: nothing in the loop of
the workshop may write the slot that it keeps to itself, but a step inside the loop does, once a
call has made up its address. -/
theorem mayWrite_workshop_forged :
    workshop.Built ∧ workshop.validate = .ok () ∧ workshop.DefinedOnce ∧
    ∃ a, workshop.analyze = .ok a ∧ ∃ l ∈ a.forest.loops, workshop.IsObject (.stack ⟨1⟩) ∧
      (LoopMemory.ofLoop workshop a.slots l).mayWrite a.slots (.stack ⟨1⟩) = false ∧
      ∃ start s t u, Running.Starts workshop { name := "house" } [] start ∧
        start.OpenRun workshop False s ∧ s.OpenRun workshop False t ∧
        l.contains t.block = true ∧ t.OpenStep workshop False u ∧
        s.machine.Designates workshop (.stack ⟨1⟩) (.stack 0) ∧
        u.machine.cell ⟨.stack 0, 0⟩ ≠ t.machine.cell ⟨.stack 0, 0⟩ := by
  obtain ⟨a, ha, l, hl, hin, hnot⟩ := exists_loop_workshop
  obtain ⟨start, s, t, u, hstart, hrun, hr, hrun', hblock, hstep, hzero, hseven⟩ := exists_forgery
  refine ⟨built_workshop, validate_workshop, definedOnce_workshop, a, ha, l, hl, slot_workshop, hnot,
    start, s, t, u, hstart, hrun.openRun, hrun', hblock ▸ hin, hstep, hr, ?_⟩
  rw [hzero, hseven]
  exact fun heq => by cases heq

end LoopHoist
