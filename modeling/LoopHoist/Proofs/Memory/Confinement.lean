import LoopHoist.Proofs.Machine.Interference

/-!
# Where the addresses of a private slot stay

A slot is private when no instruction passes its value on. `private_confined` says what that is
worth in a run: each object that the allocation of the slot makes, however often it is executed, is
reached from nowhere but the register of the slot (`Running.Confined`).

When the allocation is executed the object is new, so the slot owns it (`Running.Makes.owned`), and
no move of the run takes an owned object away from a private slot. What is left is the return, which
shows the value of an operand, and the value of a private slot is no operand of it.
-/

namespace LoopHoist

namespace Running

variable {f : Function} {s u : Running} {v : ValueId} {k : Nat} {o : Outcome}

/-- Whether a step executes the allocation of a slot, which makes the stack object of a number. -/
structure Makes (f : Function) (s u : Running) (v : ValueId) (k : Nat) : Prop where
  /-- It is a step of the run. -/
  step : s.step f = .ok u
  /-- The next instruction is the allocation of the slot. -/
  next : ∃ i ty, s.rest.head? = some i ∧ f.inst? i = some (.alloca v ty)
  /-- The number is the next one. -/
  number : s.machine.nextSlot = k

/-- Whether at a place of a run no address of a stack object, at whatever offset, is anywhere but in
the register of a slot, and none is about to be returned. -/
structure Confined (f : Function) (v : ValueId) (k : Nat) (t : Running) : Prop where
  /-- No other register holds one. -/
  regs : ∀ w a, t.machine.reg? w = some a → a.region? = some (.stack k) → w = v
  /-- No memory cell holds one. -/
  cells : ∀ p, (t.machine.cell p).region? ≠ some (.stack k)
  /-- No recorded call was given one. -/
  calls : ∀ c ∈ t.machine.calls, ∀ a ∈ c.args, a.region? ≠ some (.stack k)
  /-- If the run ends here, none is its result. -/
  returned : ∀ o a, t.step f = .error (.finished o) → o.ret = some a →
    a.region? ≠ some (.stack k)

/-- A slot owns the object that its allocation makes, and its register holds the start of it. -/
theorem Makes.owned (h : s.Makes f u v k) (hw : f.WellFormed) (hf : f.WritesOnce)
    (hs : s.Placed f) (hm : s.machine.Orderly f True) :
    u.Placed f ∧ u.machine.reg? v = some (.ptr ⟨.stack k, 0⟩) ∧ u.machine.Owned f True v k := by
  obtain ⟨i, ty, hhead, hi⟩ := h.next
  have hrest : ∀ {j rest}, s.rest = j :: rest → j = i := fun heq => by
    rw [heq] at hhead
    exact Option.some.inj hhead
  rcases step_cases hw hs h.step with ⟨j, instr, hlast, hj, hterm, -⟩ | ⟨j, instr, hperf⟩
  · -- An allocation is not the last instruction of a block.
    obtain rfl := hrest hlast
    obtain rfl := Option.some.inj (hj.symm.trans hi)
    cases hterm
  · obtain rfl := hrest hperf.rest
    obtain rfl := Option.some.inj (hperf.content.symm.trans hi)
    have hplaced : (j, Instruction.alloca v ty) ∈ f.placed :=
      Function.mem_placed.2 ⟨⟨_, hperf.mem⟩, hperf.content⟩
    have hcarries : s.machine.Carries f True _ u.machine :=
      Machine.carries_perform hf hplaced hperf.machine
    have hslot : f.Slot v := ⟨_, hplaced, rfl⟩
    have hreg : u.machine.reg? v = some (.ptr ⟨.stack k, 0⟩) := by
      rw [hcarries.slots v hslot, h.number]
      exact if_pos rfl
    exact ⟨hperf.placed hs, hreg, (hm.carries hcarries).owned v k hslot ⟨_, hreg, rfl⟩⟩

/-- A run that ends in a result is at a return, and the result is the value of its operand. -/
theorem exists_ret_of_step (hw : f.WellFormed) (hs : s.Placed f)
    (h : s.step f = .error (.finished o)) :
    ∃ i result, i ∈ f.instsOf s.block ∧ f.inst? i = some (.ret result) ∧
      ∀ a, o.ret = some a → ∃ x, result = some x ∧ s.machine.get f x = .ok a := by
  obtain ⟨hne, before, hl⟩ := hs
  obtain ⟨i, rest, hrest⟩ := List.exists_cons_of_ne_nil hne
  rw [hrest] at hl
  have hmem : i ∈ f.instsOf s.block := by rw [hl]; simp
  obtain ⟨instr, hi⟩ := hw.exists_inst? hmem
  have hterm := hw.terminator s.block before i rest instr hl hi
  cases rest with
  | cons j rest =>
    -- Inside a block no instruction ends the run with a result.
    have hn : instr.isTerminator = false := Bool.eq_false_iff.2 fun ht => by cases hterm.1 ht
    rw [step_inside hrest hi hn] at h
    split at h <;> cases h
  | nil =>
    rw [step_terminator hrest hi (hterm.2 rfl)] at h
    cases hleave : s.machine.leave f instr with
    | ok b =>
      rw [hleave] at h
      have hsucc : b ∈ f.successors s.block := by
        rw [hw.successors_eq hl hi]
        exact Machine.mem_successors_of_leave hleave
      replace h : enter f (some s.block) b s.machine = .error (.finished o) := h
      rw [enter_eq hw (hw.hasBlock_of_mem_successors hsucc)] at h
      split at h <;> cases h
    | error e =>
      rw [hleave] at h
      obtain rfl : e = .finished o := Except.error.inj h
      cases instr with
      | ret result =>
        refine ⟨i, result, hmem, hi, fun a ha => ?_⟩
        cases result with
        | none =>
          obtain rfl : s.machine.outcome none = o := by simpa [Machine.leave] using hleave
          cases ha
        | some x =>
          simp only [Machine.leave] at hleave
          split at hleave
          · next y hy =>
            obtain rfl : s.machine.outcome (some y) = o := by simpa using hleave
            exact ⟨x, rfl, hy.trans (congrArg Except.ok (Option.some.inj ha))⟩
          · cases hleave
      | branch cond ifTrue ifFalse =>
        simp only [Machine.leave] at hleave
        split at hleave <;> cases hleave
      | _ => cases hleave

/-- An object that a private slot owns is confined. -/
theorem confined_of_owned (hw : f.WellFormed) (hs : s.Placed f) (hv : f.Private v)
    (h : s.machine.Owned f True v k) : s.Confined f v k where
  regs w a ha hk := Holder.reg.inj (h.secret trivial hv (.reg w) ⟨a, ha, hk⟩)
  cells p hp := by cases h.secret trivial hv (.cell p) hp
  calls c hc a ha hk := by cases h.secret trivial hv .arg ⟨c, hc, a, ha, hk⟩
  returned o a ho ha hk := by
    -- The register of the slot would be the operand of the return.
    obtain ⟨i, result, hi, hinst, hret⟩ := exists_ret_of_step hw hs ho
    obtain ⟨x, rfl, hget⟩ := hret a ha
    have hplaced : (i, Instruction.ret (some x)) ∈ f.placed :=
      Function.mem_placed.2 ⟨⟨_, hi⟩, hinst⟩
    refine h.not_loose trivial hv (Machine.loose_of_get hplaced (fun w hw => ?_) hget hk)
    exact Instruction.mem_usedValues (o := x) (by simp [Instruction.operands]) hw

end Running

/-- The address of a private slot never gets out. In every run of a well-formed function in which no
value is written by two instructions, and for each object that the allocation of a private slot has
made, no register but that of the slot, no memory cell and no argument of a recorded call holds an
address of the object from then on, and none is returned. -/
theorem private_confined (f : Function) (hv : f.validate = .ok ()) (hf : f.WritesOnce) :
    ∀ v, (StackSlots.ofFunction f).isPrivate v = true →
      ∀ module args start n s u k n' t, Running.Starts f module args start →
        Running.Reaches f n start s → s.Makes f u v k → Running.Reaches f n' u t →
        t.Confined f v k := by
  intro v hpriv module args start n s u k n' t hstart hrun hmakes hrun'
  have hw := Function.violation?_eq_none_iff.1 (Function.validate_eq_ok_iff.1 hv)
  obtain ⟨hplaced, horderly⟩ := hstart.spec hw hf
  obtain ⟨hplaced, horderly⟩ := hrun.openRun.keeps hw hf
    (fun _ _ _ hm hmove => Machine.Orderly.carries hm hmove) hplaced horderly
  obtain ⟨hplaced, -, howned⟩ := hmakes.owned hw hf hplaced horderly
  obtain ⟨hplaced, howned⟩ := hrun'.openRun.keeps hw hf
    (fun _ _ _ hm hmove => Machine.Owned.carries hm hmove) hplaced howned
  exact Running.confined_of_owned hw hplaced (StackSlots.isPrivate_iff.1 hpriv) howned

/-! ## A slot made in every round -/

/-- A loop that makes two slots in every round, a drawer that it only uses and a letter whose
address it leaves on the desk and passes to a call. -/
def bureau : Function :=
  Function.edits { name := "bureau" }
    [.addGlobal "desk", .addBlock "entry", .addBlock "loop", .addBlock "exit",
      .addValue, .addValue, .addValue, .addValue,
      .append ⟨0⟩ (.jump ⟨1⟩),
      .append ⟨1⟩ (.alloca ⟨1⟩ .i64), .append ⟨1⟩ (.alloca ⟨2⟩ .i64),
      .append ⟨1⟩ (.store .i64 (.imm (.i64 1)) (.value ⟨1⟩) {}),
      .append ⟨1⟩ (.store .ptr (.value ⟨2⟩) (.value ⟨0⟩) {}),
      .append ⟨1⟩ (.call none "post" [.value ⟨2⟩]),
      .append ⟨1⟩ (.load ⟨3⟩ .i64 (.value ⟨1⟩) {}),
      .append ⟨1⟩ (.load ⟨4⟩ .ptr (.value ⟨0⟩) {}),
      .append ⟨1⟩ (.branch (.value ⟨3⟩) ⟨1⟩ ⟨2⟩), .append ⟨2⟩ (.ret (some (.value ⟨4⟩)))]

/-- The bureau before the second drawer is made, when it is made, and at the end of the round. -/
theorem exists_second_drawer : ∃ start s u t,
    Running.Starts bureau { name := "house" } [] start ∧ Running.Reaches bureau 9 start s ∧
    s.Makes bureau u ⟨1⟩ 2 ∧ Running.Reaches bureau 6 u t ∧
    t.machine.cell ⟨.global "desk", 0⟩ = .ptr ⟨.stack 3, 0⟩ :=
  ⟨_, _, _, _, ⟨⟨0⟩, rfl, rfl⟩,
    .step rfl (.step rfl (.step rfl (.step rfl (.step rfl (.step rfl (.step rfl (.step rfl
      (.step rfl .refl)))))))),
    ⟨rfl, ⟨_, _, rfl, rfl⟩, rfl⟩,
    .step rfl (.step rfl (.step rfl (.step rfl (.step rfl (.step rfl .refl))))), rfl⟩

/-- The second drawer stays out of sight, while the address of the second letter is on the desk. -/
theorem private_confined_bureau :
    bureau.validate = .ok () ∧ bureau.WritesOnce ∧
    (StackSlots.ofFunction bureau).isPrivate ⟨1⟩ = true ∧
    ∃ start s u t, Running.Starts bureau { name := "house" } [] start ∧
      Running.Reaches bureau 9 start s ∧ s.Makes bureau u ⟨1⟩ 2 ∧ Running.Reaches bureau 6 u t ∧
      t.Confined bureau ⟨1⟩ 2 ∧ ¬ t.Confined bureau ⟨2⟩ 3 := by
  have hv : bureau.validate = .ok () := Function.validate_eq_ok_iff.2 (by decide)
  have hf : bureau.WritesOnce := by decide
  have hpriv : (StackSlots.ofFunction bureau).isPrivate ⟨1⟩ = true := by decide
  obtain ⟨start, s, u, t, hstart, hrun, hmakes, hrun', hdesk⟩ := exists_second_drawer
  refine ⟨hv, hf, hpriv, start, s, u, t, hstart, hrun, hmakes, hrun', ?_,
    fun h => h.cells _ (congrArg Val.region? hdesk)⟩
  exact private_confined bureau hv hf ⟨1⟩ hpriv _ _ start _ s u 2 _ t hstart hrun hmakes hrun'

end LoopHoist
