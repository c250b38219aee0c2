import LoopHoist.Proofs.Machine.Kinds

/-!
# Ordinary instructions are pure

An instruction of the class `ordinary` is pure and cannot trap. Whenever its operands have values of
the kinds that it takes, the machine performs it, writes one register and does nothing else
(`Machine.OnlyWrites`), and what it writes depends on its operands alone.

Only for divisions does the class depend on an operand, the divisor. A division is at fault
(`IntOp.Faults`) where the divisor is zero, and also where a signed result does not fit, which on
the machine wraps. The division by an integer immediate is ordinary exactly if it is at fault for no
dividend (`IntOp.safeDivisor_imm_iff`), so neither too many divisions are ordinary nor too few.
-/

namespace LoopHoist

variable {f g : Function} {m : Machine} {instr : Instruction} {op : IntOp} {ty : Ty}
  {lhs rhs : Operand} {i : Immediate} {c : Computation} {get : Operand → Except Trap Val}
  {a b n : Int64} {dst : ValueId}

/-! ## Divisions -/

/-- Whether the division of `a` by `b` is at fault: the divisor is zero, or the division is signed
and divides the least integer by minus one. -/
def IntOp.Faults (op : IntOp) (a b : Int64) : Prop :=
  op.canTrap = true ∧ (b = 0 ∨ op.isSignedDivision = true ∧ a = Int64.minValue ∧ b = -1)

/-- The value of an immediate is an integer exactly if the immediate is one. -/
theorem Immediate.val_eq_int_iff : i.val = .int n ↔ i.int? = some n := by
  cases i <;> simp [val, int?]

/-- A division by an integer immediate is safe exactly if it is at fault for no dividend. -/
theorem IntOp.safeDivisor_imm_iff (htrap : op.canTrap = true) (hi : i.int? = some n) :
    op.safeDivisor (.imm i) = true ↔ ∀ a, ¬ op.Faults a n := by
  have hsafe : op.safeDivisor (.imm i) = true ↔
      n ≠ 0 ∧ ¬ (op.isSignedDivision = true ∧ n = -1) := by
    simp only [safeDivisor, Operand.int?, hi, bne_iff_ne, Bool.and_eq_true, beq_iff_eq,
      Bool.not_eq_true', Bool.eq_false_iff, ne_eq]
  rw [hsafe]
  constructor
  · rintro ⟨hzero, hsigned⟩ a ⟨-, h | ⟨hs, -, hn⟩⟩
    · exact hzero h
    · exact hsigned ⟨hs, hn⟩
  · intro h
    constructor
    · exact fun hzero => h 0 ⟨htrap, .inl hzero⟩
    · rintro ⟨hs, hn⟩
      exact h Int64.minValue ⟨htrap, .inr ⟨hs, rfl, hn⟩⟩

namespace Computation

/-- An integer operation that cannot trap is at fault for none of the values of its operands: the
divisor of one that could is an immediate. -/
theorem not_faults (htotal : (int op ty lhs rhs).isTotal = true)
    (himm : ∀ i, get (.imm i) = .ok i.val) (hb : get rhs = .ok (.int b)) (a : Int64) :
    ¬ op.Faults a b := by
  intro hfaults
  have hsafe : op.safeDivisor rhs = true := by simpa [isTotal, hfaults.1] using htotal
  cases rhs with
  | value v => simp [IntOp.safeDivisor, Operand.int?] at hsafe
  | imm i =>
    rw [himm] at hb
    have hi : i.int? = some b := Immediate.val_eq_int_iff.1 (Except.ok.inj hb)
    exact (IntOp.safeDivisor_imm_iff hfaults.1 hi).1 hsafe a hfaults

/-- An integer operation that cannot trap has a result. -/
theorem exists_result (htotal : (int op ty lhs rhs).isTotal = true)
    (himm : ∀ i, get (.imm i) = .ok i.val) (a : Int64) (hb : get rhs = .ok (.int b)) :
    ∃ q, op.result? a b = some q := by
  rw [← Option.ne_none_iff_exists']
  intro hnone
  obtain ⟨htrap, hzero⟩ := (IntOp.result?_eq_none_iff op a b).1 hnone
  exact not_faults htotal himm hb a ⟨htrap, .inl hzero⟩

/-- Two operands of the kind of integers have integers for their values. -/
theorem exists_ints (h : List.Forall₂ (Reads get) [lhs, rhs] [.int, .int]) :
    ∃ a b, get lhs = .ok (.int a) ∧ get rhs = .ok (.int b) := by
  simp only [List.forall₂_cons] at h
  obtain ⟨hl, hr, -⟩ := h
  obtain ⟨a, ha⟩ := hl.exists_int
  obtain ⟨b, hb⟩ := hr.exists_int
  exact ⟨a, b, ha, hb⟩

/-- A computation that cannot trap has a result, if its operands have values of the kinds that it
takes. -/
theorem exists_eval (htotal : c.isTotal = true) (himm : ∀ i, get (.imm i) = .ok i.val)
    (h : c.Takes get) : ∃ x, c.eval get = .ok x := by
  cases c with
  | int op ty lhs rhs =>
    obtain ⟨a, b, ha, hb⟩ := exists_ints h
    -- Of all computations only this one can trap on operands of its kinds.
    obtain ⟨q, hq⟩ := exists_result htotal himm a hb
    refine ⟨.int q, ?_⟩
    simp only [eval, ha, hb, Val.asInt, bind, Except.bind, hq]
  | float op ty lhs rhs =>
    simp only [Takes, operands, operandKinds, List.forall₂_cons] at h
    obtain ⟨hl, hr, -⟩ := h
    obtain ⟨x, hx⟩ := hl.exists_float
    obtain ⟨y, hy⟩ := hr.exists_float
    refine ⟨.float (op.apply x y), ?_⟩
    simp only [eval, hx, hy, Val.asFloat, bind, Except.bind, pure, Except.pure]
  | compare op ty lhs rhs =>
    obtain ⟨a, b, ha, hb⟩ := exists_ints h
    refine ⟨.int (if op.holds a b then 1 else 0), ?_⟩
    simp only [eval, ha, hb, Val.asInt, bind, Except.bind, pure, Except.pure]
  | select ty cond ifTrue ifFalse =>
    simp only [Takes, operands, operandKinds, List.forall₂_cons] at h
    obtain ⟨hc, ⟨x, hx, -⟩, ⟨y, hy, -⟩, -⟩ := h
    obtain ⟨n, hn⟩ := hc.exists_int
    refine ⟨if n != 0 then x else y, ?_⟩
    simp only [eval, hn, hx, hy, Val.asInt, bind, Except.bind]
    split <;> rfl
  | copy ty src =>
    simp only [Takes, operands, operandKinds, List.forall₂_cons] at h
    obtain ⟨⟨x, hx, -⟩, -⟩ := h
    exact ⟨x, hx⟩
  | lea base offset =>
    simp only [Takes, operands, operandKinds, List.forall₂_cons] at h
    obtain ⟨hb, ho, -⟩ := h
    obtain ⟨p, hp⟩ := hb.exists_ptr
    obtain ⟨n, hn⟩ := ho.exists_int
    refine ⟨.ptr (p.advance n), ?_⟩
    simp only [eval, hp, hn, Val.asInt, Val.asAddress, bind, Except.bind, pure, Except.pure]

end Computation

/-! ## The class -/

/-- An ordinary instruction is a computation that cannot trap. -/
theorem Instruction.category_eq_ordinary_iff :
    instr.category = .ordinary ↔ ∃ dst c, instr = .compute dst c ∧ c.isTotal = true := by
  cases instr <;> simp [category, and_assoc]

/-- Whether a machine that performs an instruction writes `x` to the register of `dst` and does
nothing else. -/
def Machine.OnlyWrites (f : Function) (m : Machine) (instr : Instruction) (dst : ValueId)
    (x : Val) : Prop :=
  ∃ m', m.perform f instr = .ok m' ∧ m'.reg? dst = some x ∧ m.AgreeOff dst m'

/-- A computation that has a result writes it and does nothing else. -/
theorem Machine.onlyWrites_of_eval {x : Val} (h : c.eval (m.get f) = .ok x) :
    m.OnlyWrites f (.compute dst c) dst x := by
  refine ⟨m.setReg dst x, perform_of_resultOf h rfl, ?_, rfl, rfl, rfl, fun w hw => ?_⟩
  · simp
  · simp [hw.symm]

/-- Ordinary instructions are pure and cannot trap. Each is a computation; in every function and
every machine that has values for its operands, of the kinds that it takes, performing it succeeds,
writes the result and changes nothing else; the same is written wherever the operands have the same
values; and none of its divisions is at fault. On the other hand a division by an integer immediate
that is not ordinary is at fault for some dividend. -/
theorem ordinary_pure :
    (∀ instr : Instruction, instr.category = .ordinary →
      ∃ dst c, instr = .compute dst c ∧
        ∀ (f : Function) (m : Machine), c.Takes (m.get f) →
          (∃ x, m.OnlyWrites f instr dst x ∧
            ∀ (g : Function) (k : Machine), (∀ o ∈ instr.operands, k.get g o = m.get f o) →
              k.OnlyWrites g instr dst x) ∧
          ∀ op ty lhs rhs, c = .int op ty lhs rhs →
            ∃ a b, m.get f lhs = .ok (.int a) ∧ m.get f rhs = .ok (.int b) ∧ ¬ op.Faults a b) ∧
    ∀ dst op ty lhs i n, i.int? = some n →
      (Instruction.compute dst (.int op ty lhs (.imm i))).category = .other →
        ∃ a, op.Faults a n := by
  constructor
  · intro instr hcat
    obtain ⟨dst, c, rfl, htotal⟩ := Instruction.category_eq_ordinary_iff.1 hcat
    refine ⟨dst, c, rfl, fun f m h => ⟨?_, ?_⟩⟩
    · obtain ⟨x, hx⟩ := Computation.exists_eval htotal (fun _ => rfl) h
      refine ⟨x, Machine.onlyWrites_of_eval hx, fun g k hget => ?_⟩
      have heval : c.eval (k.get g) = .ok x := (Computation.eval_congr hget).trans hx
      exact Machine.onlyWrites_of_eval heval
    · rintro op ty lhs rhs rfl
      obtain ⟨a, b, ha, hb⟩ := Computation.exists_ints h
      exact ⟨a, b, ha, hb, Computation.not_faults htotal (fun _ => rfl) hb a⟩
  · intro dst op ty lhs i n hi hcat
    have hnot : ¬ (op.canTrap = false ∨ op.safeDivisor (.imm i) = true) := by
      intro htotal
      simp [Instruction.category, Computation.isTotal, htotal] at hcat
    obtain ⟨htrap, hunsafe⟩ := not_or.1 hnot
    rw [IntOp.safeDivisor_imm_iff (by simpa using htrap) hi] at hunsafe
    exact Classical.not_forall_not.1 hunsafe

/-- The class at a divisor of minus one, written in eight bits. The unsigned division by it is
performed even on the least integer; the signed one is at fault for some dividend. -/
theorem ordinary_pure_minus_one :
    (∃ x, (({} : Machine).setReg ⟨0⟩ (.int Int64.minValue)).OnlyWrites { name := "unsigned" }
        (.compute ⟨1⟩ (.int .udiv .i64 (.value ⟨0⟩) (.imm (.i8 (-1))))) ⟨1⟩ x) ∧
      ∃ a, IntOp.sdiv.Faults a (-1) := by
  obtain ⟨hpure, hother⟩ := ordinary_pure
  refine ⟨?_, hother ⟨1⟩ .sdiv .i64 (.value ⟨0⟩) (.i8 (-1)) (-1) (by decide) (by decide)⟩
  obtain ⟨dst, c, hc, hperform⟩ := hpure
    (.compute ⟨1⟩ (.int .udiv .i64 (.value ⟨0⟩) (.imm (.i8 (-1))))) (by decide)
  obtain ⟨rfl, rfl⟩ := Instruction.compute.inj hc
  have hget : (({} : Machine).setReg ⟨0⟩ (.int Int64.minValue)).get { name := "unsigned" }
      (.value ⟨0⟩) = .ok (.int Int64.minValue) := by
    simp [Machine.get, Function.def?]
  obtain ⟨⟨x, hx, -⟩, -⟩ := hperform _ _
    (.cons ⟨_, hget, .inr rfl⟩ (.cons ⟨_, rfl, .inr rfl⟩ .nil))
  exact ⟨x, hx⟩

end LoopHoist
