import LoopHoist.Machine.State
import LoopHoist.Memory.StackSlots
import LoopHoist.Proofs.Code.Lookup

/-!
# What an instruction does

An instruction that succeeds writes one register, or one memory cell, or neither
(`Machine.perform_cases`); what it writes depends on its operands and, for a load, on one cell
(`Machine.Gives`). All that a run keeps is derived from this.

Two machines that differ in one register alone (`Machine.AgreeOff`) do the same under an instruction
whose operands have the same values in both.
-/

namespace LoopHoist

variable {f g : Function} {m m' : Machine} {instr : Instruction} {v w : ValueId} {o : Operand}
  {a : Val} {p : Address} {c : Computation} {get get' : Operand → Except Trap Val}

/-- Going through a list gives the same if each of its elements does. -/
theorem mapM_congr_of_mem {ε α β : Type} {l : List α} {k k' : α → Except ε β}
    (h : ∀ x ∈ l, k x = k' x) : l.mapM k = l.mapM k' := by
  induction l with
  | nil => rfl
  | cons x l ih =>
    rw [List.mapM_cons, List.mapM_cons, h x List.mem_cons_self,
      ih fun y hy => h y (List.mem_cons_of_mem _ hy)]

/-- What going through a list gives are the results of its elements. -/
theorem mem_of_mapM_eq_ok {ε α β : Type} {l : List α} {k : α → Except ε β} {rs : List β}
    (h : l.mapM k = .ok rs) :
    (∀ r ∈ rs, ∃ x ∈ l, k x = .ok r) ∧ ∀ x ∈ l, ∃ r ∈ rs, k x = .ok r := by
  induction l generalizing rs with
  | nil =>
    obtain rfl := Except.ok.inj h
    simp
  | cons x l ih =>
    rw [List.mapM_cons] at h
    obtain ⟨r, hr, h⟩ := exists_of_bind_eq_ok h
    obtain ⟨rs', hrs, h⟩ := exists_of_bind_eq_ok h
    obtain rfl := Except.ok.inj h
    obtain ⟨hmem, hall⟩ := ih hrs
    constructor
    · intro y hy
      rcases List.mem_cons.1 hy with rfl | hy
      · exact ⟨x, List.mem_cons_self, hr⟩
      · obtain ⟨z, hz, hk⟩ := hmem y hy
        exact ⟨z, List.mem_cons_of_mem _ hz, hk⟩
    · intro z hz
      rcases List.mem_cons.1 hz with rfl | hz
      · exact ⟨r, List.mem_cons_self, hr⟩
      · obtain ⟨y, hy, hk⟩ := hall z hz
        exact ⟨y, List.mem_cons_of_mem _ hy, hk⟩

/-- An address where one is required. -/
theorem Val.eq_of_asAddress (h : a.asAddress = .ok p) : a = .ptr p := by
  cases a with
  | ptr q => exact congrArg Val.ptr (Except.ok.inj h)
  | int n => cases h
  | float bits => cases h

/-! ## Computations -/

namespace Computation

/-- Where the result of a computation comes from. -/
theorem eval_eq_ok (ha : c.eval get = .ok a) :
    match c with
    | int .. | compare .. => ∃ n, a = .int n
    | float .. => ∃ bits, a = .float bits
    | select _ _ ifTrue ifFalse => get ifTrue = .ok a ∨ get ifFalse = .ok a
    | copy _ src => get src = .ok a
    | lea base _ => ∃ p delta, get base = .ok (.ptr p) ∧ a = .ptr (p.advance delta) := by
  cases c with
  | int op ty lhs rhs =>
    obtain ⟨_, _, ha⟩ := exists_of_bind_eq_ok ha
    obtain ⟨_, _, ha⟩ := exists_of_bind_eq_ok ha
    obtain ⟨_, _, ha⟩ := exists_of_bind_eq_ok ha
    obtain ⟨_, _, ha⟩ := exists_of_bind_eq_ok ha
    split at ha
    · exact ⟨_, (Except.ok.inj ha).symm⟩
    · cases ha
  | float op ty lhs rhs =>
    obtain ⟨_, _, ha⟩ := exists_of_bind_eq_ok ha
    obtain ⟨_, _, ha⟩ := exists_of_bind_eq_ok ha
    obtain ⟨_, _, ha⟩ := exists_of_bind_eq_ok ha
    obtain ⟨_, _, ha⟩ := exists_of_bind_eq_ok ha
    exact ⟨_, (Except.ok.inj ha).symm⟩
  | compare op ty lhs rhs =>
    obtain ⟨_, _, ha⟩ := exists_of_bind_eq_ok ha
    obtain ⟨_, _, ha⟩ := exists_of_bind_eq_ok ha
    obtain ⟨_, _, ha⟩ := exists_of_bind_eq_ok ha
    obtain ⟨_, _, ha⟩ := exists_of_bind_eq_ok ha
    exact ⟨_, (Except.ok.inj ha).symm⟩
  | select ty cond ifTrue ifFalse =>
    obtain ⟨_, _, ha⟩ := exists_of_bind_eq_ok ha
    obtain ⟨_, _, ha⟩ := exists_of_bind_eq_ok ha
    split at ha
    · exact .inl ha
    · exact .inr ha
  | copy ty src => exact ha
  | lea base offset =>
    obtain ⟨b, hb, ha⟩ := exists_of_bind_eq_ok ha
    obtain ⟨p, hp, ha⟩ := exists_of_bind_eq_ok ha
    obtain ⟨_, _, ha⟩ := exists_of_bind_eq_ok ha
    obtain ⟨delta, _, ha⟩ := exists_of_bind_eq_ok ha
    rw [Val.eq_of_asAddress hp] at hb
    exact ⟨p, delta, hb, (Except.ok.inj ha).symm⟩

/-- A computation depends on the values of its operands alone. -/
theorem eval_congr (h : ∀ o ∈ c.operands, get' o = get o) : c.eval get' = c.eval get := by
  cases c <;> simp_all [eval, operands]

end Computation

namespace Machine

/-! ## Operands -/

/-- The value of an operand depends on where values come from and on their registers alone. -/
theorem get_congr (hdef : ∀ v, g.def? v = f.def? v)
    (hreg : ∀ v, o = .value v → (∀ name, f.def? v ≠ some (.global name)) →
      m'.reg? v = m.reg? v) : m'.get g o = m.get f o := by
  cases o with
  | imm i => rfl
  | value v =>
    simp only [get, hdef]
    split
    · rfl
    · next hn => rw [hreg v rfl hn]

/-- A value that is in its register can be read. -/
theorem exists_get (h : m.reg? v = some a) : ∃ b, m.get f (.value v) = .ok b := by
  simp only [get]
  split
  · exact ⟨_, rfl⟩
  · rw [h]
    exact ⟨a, rfl⟩

/-- What an operand can stand for: an immediate, the address of a global, or what is in a
register. -/
theorem get_eq_ok (h : m.get f o = .ok a) :
    (∃ i, o = .imm i ∧ a = i.val) ∨
      (∃ v name, o = .value v ∧ f.def? v = some (.global name) ∧ a = .ptr ⟨.global name, 0⟩) ∨
      ∃ v, o = .value v ∧ m.reg? v = some a := by
  cases o with
  | imm i => exact .inl ⟨i, rfl, (Except.ok.inj h).symm⟩
  | value v =>
    simp only [get] at h
    split at h
    · next name hname => exact .inr (.inl ⟨v, name, rfl, hname, (Except.ok.inj h).symm⟩)
    · split at h
      · next b hb => exact .inr (.inr ⟨v, rfl, hb.trans (congrArg some (Except.ok.inj h))⟩)
      · cases h

/-- The value of a global is its address. -/
theorem get_global {name : String} (h : f.def? v = some (.global name)) :
    m.get f (.value v) = .ok (.ptr ⟨.global name, 0⟩) := by
  simp only [get, h]

/-- The value of the result of an instruction is what is in its register. -/
theorem reg?_of_get {i : InstId} (hv : f.def? v = some (.inst i))
    (h : m.get f (.value v) = .ok a) : m.reg? v = some a := by
  rcases get_eq_ok h with ⟨_, hn, -⟩ | ⟨w, name, hw, hname, -⟩ | ⟨w, hw, hreg⟩
  · cases hn
  · cases hw
    rw [hv] at hname
    cases hname
  · cases hw
    exact hreg

/-- Machines of the same memory have the same cells. -/
theorem cell_congr (h : m'.memory = m.memory) : m'.cell = m.cell := by
  funext p
  rw [cell, h, cell]

/-! ## One instruction -/

/-- The value that an instruction with a result may write. -/
inductive Gives (f : Function) (m : Machine) : Instruction → Val → Prop where
  | compute {dst : ValueId} {c : Computation} {a : Val} (h : c.eval (m.get f) = .ok a) :
    Gives f m (.compute dst c) a
  | alloca (dst : ValueId) (ty : Ty) : Gives f m (.alloca dst ty) (.ptr ⟨.stack m.nextSlot, 0⟩)
  | load {dst : ValueId} {ty : Ty} {addr : Operand} {access : Access} {p : Address}
    (h : m.get f addr = .ok (.ptr p)) : Gives f m (.load dst ty addr access) (m.cell p)
  | call (dst : Option ValueId) (callee : String) (args : List Operand) (n : Int64) :
    Gives f m (.call dst callee args) (.int n)

/-- The number of the next stack object after an instruction. -/
def slotAfter (m : Machine) (instr : Instruction) : Nat :=
  if instr.slot?.isSome then m.nextSlot + 1 else m.nextSlot

/-- An instruction writes its result into a register and leaves memory alone, or it stores one cell
and leaves the registers alone, or it leaves both alone. -/
theorem perform_cases (h : m.perform f instr = .ok m') :
    m'.nextSlot = m.slotAfter instr ∧
    ((∃ dst a, instr.def? = some dst ∧ (∀ d ty ins, instr ≠ .phi d ty ins) ∧ m.Gives f instr a ∧
        (∀ w, m'.reg? w = if dst = w then some a else m.reg? w) ∧ m'.memory = m.memory) ∨
      (∃ ty src addr access a p, instr = .store ty src addr access ∧
        m.get f addr = .ok (.ptr p) ∧ m.get f src = .ok a ∧ m' = m.setCell p a) ∨
      (instr.def? = none ∨ ∃ d ty ins, instr = .phi d ty ins) ∧ m'.regs = m.regs ∧
        m'.memory = m.memory) := by
  -- Operands are read before anything changes, so an instruction that does not trap had them all.
  cases instr with
  | compute dst c =>
    obtain ⟨a, ha, h⟩ := exists_of_bind_eq_ok h
    obtain rfl := Except.ok.inj h
    exact ⟨rfl, .inl ⟨dst, a, rfl, by simp, .compute ha, fun w => reg?_setReg m dst w a, rfl⟩⟩
  | alloca dst ty =>
    obtain rfl := Except.ok.inj h
    exact ⟨rfl, .inl ⟨dst, _, rfl, by simp, .alloca dst ty, fun w => reg?_setReg m dst w _, rfl⟩⟩
  | phi dst ty ins =>
    obtain rfl := Except.ok.inj h
    exact ⟨rfl, .inr (.inr ⟨.inr ⟨dst, ty, ins, rfl⟩, rfl, rfl⟩)⟩
  | load dst ty addr access =>
    obtain ⟨b, hb, h⟩ := exists_of_bind_eq_ok h
    obtain ⟨p, hp, h⟩ := exists_of_bind_eq_ok h
    obtain rfl := Except.ok.inj h
    rw [Val.eq_of_asAddress hp] at hb
    exact ⟨rfl, .inl ⟨dst, m.cell p, rfl, by simp, .load hb, fun w => reg?_setReg m dst w _, rfl⟩⟩
  | store ty src addr access =>
    obtain ⟨b, hb, h⟩ := exists_of_bind_eq_ok h
    obtain ⟨p, hp, h⟩ := exists_of_bind_eq_ok h
    obtain ⟨a, ha, h⟩ := exists_of_bind_eq_ok h
    obtain rfl := Except.ok.inj h
    rw [Val.eq_of_asAddress hp] at hb
    exact ⟨rfl, .inr (.inl ⟨ty, src, addr, access, a, p, rfl, hb, ha, rfl⟩)⟩
  | call dst callee args =>
    obtain ⟨vals, -, h⟩ := exists_of_bind_eq_ok h
    obtain rfl := Except.ok.inj h
    cases dst with
    | none => exact ⟨rfl, .inr (.inr ⟨.inl rfl, rfl, rfl⟩)⟩
    | some dst =>
      exact ⟨rfl, .inl ⟨dst, _, rfl, by simp, .call _ callee args _,
        fun w => reg?_setReg _ dst w _, rfl⟩⟩
  | jump target =>
    obtain rfl := Except.ok.inj h
    exact ⟨rfl, .inr (.inr ⟨.inl rfl, rfl, rfl⟩)⟩
  | branch cond ifTrue ifFalse =>
    obtain rfl := Except.ok.inj h
    exact ⟨rfl, .inr (.inr ⟨.inl rfl, rfl, rfl⟩)⟩
  | ret result =>
    obtain rfl := Except.ok.inj h
    exact ⟨rfl, .inr (.inr ⟨.inl rfl, rfl, rfl⟩)⟩
  | unreachable =>
    obtain rfl := Except.ok.inj h
    exact ⟨rfl, .inr (.inr ⟨.inl rfl, rfl, rfl⟩)⟩

/-- An instruction changes no register but that of its result. -/
theorem reg?_perform (h : m.perform f instr = .ok m') (hw : instr.def? ≠ some w) :
    m'.reg? w = m.reg? w := by
  rcases (perform_cases h).2 with ⟨dst, a, hdst, -, -, hreg, -⟩ | ⟨-, -, -, -, -, -, -, -, -, rfl⟩ |
      ⟨-, hregs, -⟩
  · have hne : dst ≠ w := fun heq => hw (heq ▸ hdst)
    rw [hreg, if_neg hne]
  · rfl
  · rw [reg?, hregs, reg?]

/-- An instruction takes no register away. -/
theorem exists_reg?_perform (h : m.perform f instr = .ok m') (hv : ∃ a, m.reg? v = some a) :
    ∃ a, m'.reg? v = some a := by
  obtain ⟨a, ha⟩ := hv
  rcases (perform_cases h).2 with ⟨dst, b, -, -, -, hreg, -⟩ | ⟨-, -, -, -, -, -, -, -, -, rfl⟩ |
      ⟨-, hregs, -⟩
  · rw [hreg]
    split
    · exact ⟨b, rfl⟩
    · exact ⟨a, ha⟩
  · exact ⟨a, ha⟩
  · exact ⟨a, by rw [reg?, hregs]; exact ha⟩

/-- An instruction other than a phi writes its result. -/
theorem exists_reg?_of_def? (h : m.perform f instr = .ok m') (hv : instr.def? = some v)
    (hphi : ∀ d ty ins, instr ≠ .phi d ty ins) : ∃ a, m'.reg? v = some a := by
  rcases (perform_cases h).2 with ⟨dst, b, hdst, -, -, hreg, -⟩ |
      ⟨ty, src, addr, access, a, p, rfl, -⟩ | ⟨hnone | ⟨d, ty, ins, heq⟩, -⟩
  · rw [hdst] at hv
    obtain rfl := Option.some.inj hv
    exact ⟨b, by rw [hreg, if_pos rfl]⟩
  · cases hv
  · rw [hnone] at hv
    cases hv
  · exact absurd heq (hphi d ty ins)

/-! ## What can be moved

A computation and a load have a result that is a function of the machine, so it can be asked for
where the instruction does not stand. -/

/-- The result of a computation or a load. -/
def resultOf (f : Function) (m : Machine) : Instruction → Except Trap Val
  | .compute _ c => c.eval (m.get f)
  | .load _ _ addr _ => do return m.cell (← (← m.get f addr).asAddress)
  | _ => .error .unreachable

/-- An instruction with such a result writes it. -/
theorem perform_of_resultOf (h : m.resultOf f instr = .ok a) (hv : instr.def? = some v) :
    m.perform f instr = .ok (m.setReg v a) := by
  cases instr with
  | compute dst c =>
    obtain rfl := Option.some.inj hv
    simp only [resultOf] at h
    rw [perform, h]
    rfl
  | load dst ty addr access =>
    obtain rfl := Option.some.inj hv
    obtain ⟨b, hb, h⟩ := exists_of_bind_eq_ok h
    obtain ⟨p, hp, h⟩ := exists_of_bind_eq_ok h
    obtain rfl := Except.ok.inj h
    simp only [perform, hb, hp, bind, Except.bind]
    rfl
  | _ => cases h

/-- The result depends on the operands and, for a load, on the cell that it loads. -/
theorem resultOf_congr (hget : ∀ o ∈ instr.operands, m'.get g o = m.get f o)
    (hcell : ∀ dst ty addr access p, instr = .load dst ty addr access →
      m.get f addr = .ok (.ptr p) → m'.cell p = m.cell p) :
    m'.resultOf g instr = m.resultOf f instr := by
  cases instr with
  | compute dst c => exact Computation.eval_congr hget
  | load dst ty addr access =>
    have haddr := hget addr (by simp [Instruction.operands])
    simp only [resultOf, haddr]
    cases hb : m.get f addr with
    | error t => rfl
    | ok b =>
      cases b with
      | ptr p => exact congrArg Except.ok (hcell dst ty addr access p rfl hb)
      | int n => rfl
      | float bits => rfl
  | _ => rfl

/-! ## Machines that differ in one register -/

/-- Whether two machines agree on everything but the register of a value. -/
structure AgreeOff (v : ValueId) (m m' : Machine) : Prop where
  /-- Memory is the same. -/
  memory : m'.memory = m.memory
  /-- The calls are the same. -/
  calls : m'.calls = m.calls
  /-- The next stack object is the same. -/
  nextSlot : m'.nextSlot = m.nextSlot
  /-- The other registers are the same. -/
  regs : ∀ w, w ≠ v → m'.reg? w = m.reg? w

/-- A machine agrees with itself. -/
theorem AgreeOff.refl (v : ValueId) (m : Machine) : m.AgreeOff v m :=
  ⟨rfl, rfl, rfl, fun _ _ => rfl⟩

/-- Machines that agree on all but a register do so after the same register is written in both. -/
theorem AgreeOff.setReg (h : m.AgreeOff v m') (w : ValueId) (a : Val) :
    (m.setReg w a).AgreeOff v (m'.setReg w a) where
  memory := h.memory
  calls := h.calls
  nextSlot := h.nextSlot
  regs u hu := by simp [h.regs u hu]

/-- An instruction with the same operands does the same in machines that agree on all but one
register; those of a phi do not matter, since it took its value before. -/
theorem AgreeOff.perform (h : m.AgreeOff v m')
    (hget : (∀ d ty ins, instr ≠ .phi d ty ins) →
      ∀ o ∈ instr.operands, m'.get g o = m.get f o) :
    (∃ t, m.perform f instr = .error t ∧ m'.perform g instr = .error t) ∨
      ∃ k k', m.perform f instr = .ok k ∧ m'.perform g instr = .ok k' ∧ k.AgreeOff v k' := by
  cases instr with
  | compute dst c =>
    simp only [perform, Computation.eval_congr (hget (by simp))]
    cases c.eval (m.get f) with
    | error t => exact .inl ⟨t, rfl, rfl⟩
    | ok a => exact .inr ⟨_, _, rfl, rfl, h.setReg dst a⟩
  | alloca dst ty =>
    refine .inr ⟨_, _, rfl, rfl, ?_⟩
    rw [h.nextSlot]
    exact ⟨h.memory, h.calls, rfl, (h.setReg dst _).regs⟩
  | load dst ty addr access =>
    have haddr := hget (by simp) addr (by simp [Instruction.operands])
    simp only [perform, haddr, cell_congr h.memory]
    cases m.get f addr with
    | error t => exact .inl ⟨t, rfl, rfl⟩
    | ok b =>
      cases b with
      | ptr p => exact .inr ⟨_, _, rfl, rfl, h.setReg dst (m.cell p)⟩
      | int n => exact .inl ⟨.typeMismatch, rfl, rfl⟩
      | float bits => exact .inl ⟨.typeMismatch, rfl, rfl⟩
  -- The address is read before the value, so on both sides the same of the two traps comes.
  | store ty src addr access =>
    have haddr := hget (by simp) addr (by simp [Instruction.operands])
    have hsrc := hget (by simp) src (by simp [Instruction.operands])
    simp only [perform, haddr, hsrc]
    cases m.get f addr with
    | error t => exact .inl ⟨t, rfl, rfl⟩
    | ok b =>
      cases b with
      | ptr p =>
        cases m.get f src with
        | error t => exact .inl ⟨t, rfl, rfl⟩
        | ok a =>
          refine .inr ⟨_, _, rfl, rfl, ⟨?_, h.calls, h.nextSlot, h.regs⟩⟩
          show m'.memory.insert p a = m.memory.insert p a
          rw [h.memory]
      | int n => exact .inl ⟨.typeMismatch, rfl, rfl⟩
      | float bits => exact .inl ⟨.typeMismatch, rfl, rfl⟩
  | call dst callee args =>
    have hargs : args.mapM (m'.get g) = args.mapM (m.get f) :=
      mapM_congr_of_mem (hget (by simp))
    simp only [perform, hargs]
    cases args.mapM (m.get f) with
    | error t => exact .inl ⟨t, rfl, rfl⟩
    | ok vals =>
      refine .inr ⟨_, _, rfl, rfl, ?_⟩
      have hcalled : ({ m with calls := m.calls.push ⟨callee, vals⟩ } : Machine).AgreeOff v
          { m' with calls := m'.calls.push ⟨callee, vals⟩ } :=
        ⟨h.memory, congrArg (·.push ⟨callee, vals⟩) h.calls, h.nextSlot, h.regs⟩
      cases dst with
      | none => exact hcalled
      | some dst => exact hcalled.setReg dst _
  | _ => exact .inr ⟨m, m', rfl, rfl, h⟩

end Machine

end LoopHoist
