import LoopHoist.Proofs.Machine.Effects
import Mathlib.Data.List.Forall2

/-!
# Kinds of values

The machine traps on an operand of another kind than an instruction takes. An assignment of kinds to
the values of a function rules that out for arithmetic: each operand has the kind that its operator
takes, and each result is covered by the kind of the value that it is written to
(`Function.KindCorrect`). The kind `any` covers everything and suits no operator. Memory has one
kind for all cells, that of integers as long as only integers are stored.

Two facts are used of a computation: its result is of the kind that it is to have
(`Computation.KindCorrect.covers`), and its operands are what it takes
(`Computation.KindCorrect.takes`), so that it has a result unless it divides by zero.
-/

namespace LoopHoist

/-- What kind of value a register or the memory may hold. -/
inductive Kind where
  | int | float | ptr
  /-- Values of every kind. -/
  | any
deriving DecidableEq

namespace Kind

variable {k k' k'' : Kind}

/-- Whether what is of the second kind is of the first. -/
def Covers (k k' : Kind) : Prop := k = .any ∨ k = k'

instance : DecidableRel Covers := fun k k' => inferInstanceAs (Decidable (k = .any ∨ k = k'))

/-- A kind covers itself. -/
theorem covers_refl (k : Kind) : k.Covers k := .inr rfl

/-- Covering is transitive. -/
theorem Covers.trans (h : k.Covers k') (h' : k'.Covers k'') : k.Covers k'' := by
  rcases h with rfl | rfl
  · exact .inl rfl
  · exact h'

end Kind

/-- The kind of a value. -/
def Val.kind : Val → Kind
  | int _ => .int
  | float _ => .float
  | ptr _ => .ptr

/-! ## What a computation takes -/

/-- Whether an operand has a value, and one of the given kind. -/
def Reads (get : Operand → Except Trap Val) (o : Operand) (k : Kind) : Prop :=
  ∃ a, get o = .ok a ∧ k.Covers a.kind

namespace Reads

variable {get : Operand → Except Trap Val} {o : Operand} {k k' : Kind}

/-- What is of a kind is of every kind that covers it. -/
theorem of_covers (h : Reads get o k) (hk : k'.Covers k) : Reads get o k' := by
  obtain ⟨a, ha, hcov⟩ := h
  exact ⟨a, ha, hk.trans hcov⟩

/-- An operand of the kind of integers has an integer for its value. -/
theorem exists_int (h : Reads get o .int) : ∃ n, get o = .ok (.int n) := by
  obtain ⟨a, ha, hcov⟩ := h
  cases a <;> simp_all [Kind.Covers, Val.kind]

/-- An operand of the kind of floats has a float for its value. -/
theorem exists_float (h : Reads get o .float) : ∃ bits, get o = .ok (.float bits) := by
  obtain ⟨a, ha, hcov⟩ := h
  cases a <;> simp_all [Kind.Covers, Val.kind]

/-- An operand of the kind of addresses has an address for its value. -/
theorem exists_ptr (h : Reads get o .ptr) : ∃ p, get o = .ok (.ptr p) := by
  obtain ⟨a, ha, hcov⟩ := h
  cases a <;> simp_all [Kind.Covers, Val.kind]

end Reads

/-- The kinds that a computation takes, operand by operand. A selection and a copy pass on values of
every kind. -/
def Computation.operandKinds : Computation → List Kind
  | int .. | compare .. => [.int, .int]
  | float .. => [.float, .float]
  | select .. => [.int, .any, .any]
  | copy .. => [.any]
  | lea .. => [.ptr, .int]

/-- Whether the operands of a computation all have values, and of the kinds that it takes. -/
def Computation.Takes (get : Operand → Except Trap Val) (c : Computation) : Prop :=
  List.Forall₂ (Reads get) c.operands c.operandKinds

/-! ## Assignments of kinds -/

/-- What comes from somewhere is allocated. -/
theorem Function.mem_valueIds_of_def? {f : Function} {v : ValueId} {origin : ValueDef}
    (h : f.def? v = some origin) : v ∈ f.valueIds := by
  obtain ⟨v⟩ := v
  exact List.mem_map.2 ⟨v, List.mem_range.2 (Array.getElem?_eq_some_iff.1 h).1, rfl⟩

section Assignment

variable (kinds : ValueId → Kind)

/-- The kind of an operand: that of its value, or that of the immediate. -/
def Operand.kind : Operand → Kind
  | .value v => kinds v
  | .imm i => i.val.kind

/-- Whether the operands of a computation are of the kinds that it takes, and its result is covered
by the given kind. -/
def Computation.KindCorrect (result : Kind) : Computation → Prop
  | int _ _ lhs rhs => lhs.kind kinds = .int ∧ rhs.kind kinds = .int ∧ result.Covers .int
  | float _ _ lhs rhs => lhs.kind kinds = .float ∧ rhs.kind kinds = .float ∧ result.Covers .float
  | compare _ _ lhs rhs => lhs.kind kinds = .int ∧ rhs.kind kinds = .int ∧ result.Covers .int
  | select _ cond ifTrue ifFalse => cond.kind kinds = .int ∧ result.Covers (ifTrue.kind kinds) ∧
    result.Covers (ifFalse.kind kinds)
  | copy _ src => result.Covers (src.kind kinds)
  | lea base offset => base.kind kinds = .ptr ∧ offset.kind kinds = .int ∧ result.Covers .ptr

/-- Whether the kinds are right at an instruction, `memory` being the kind of memory cells. -/
def Instruction.KindCorrect (memory : Kind) : Instruction → Prop
  | compute dst c => c.KindCorrect kinds (kinds dst)
  | alloca dst _ => (kinds dst).Covers .ptr
  | phi dst _ incoming => ∀ q ∈ incoming, (kinds dst).Covers (q.2.kind kinds)
  | load dst _ _ _ => (kinds dst).Covers memory
  | call dst _ _ => ∀ v ∈ dst, (kinds v).Covers .int
  | store .. | jump _ | branch .. | ret _ | unreachable => True

instance (result : Kind) (c : Computation) : Decidable (c.KindCorrect kinds result) :=
  match c with
  | .int .. | .float .. | .compare .. | .select .. | .lea .. =>
    inferInstanceAs (Decidable (_ ∧ _ ∧ _))
  | .copy .. => inferInstanceAs (Decidable (Kind.Covers _ _))

instance (memory : Kind) (instr : Instruction) : Decidable (instr.KindCorrect kinds memory) :=
  match instr with
  | .compute dst c => inferInstanceAs (Decidable (c.KindCorrect kinds (kinds dst)))
  | .alloca .. | .load .. => inferInstanceAs (Decidable (Kind.Covers _ _))
  | .phi dst _ incoming =>
    inferInstanceAs (Decidable (∀ q ∈ incoming, (kinds dst).Covers (q.2.kind kinds)))
  | .call dst _ _ => inferInstanceAs (Decidable (∀ v ∈ dst, (kinds v).Covers .int))
  | .store .. | .jump _ | .branch .. | .ret _ | .unreachable => isTrue trivial

/-- Whether the instruction stores no operand but integers. -/
def Instruction.storesInt : Instruction → Bool
  | store _ src _ _ => src.kind kinds == .int
  | _ => true

/-- The kind of the memory cells of a function: integers as long as it stores nothing else. -/
def Function.memoryKind (f : Function) : Kind :=
  if f.placed.all fun p => p.2.storesInt kinds then .int else .any

/-- Whether an assignment of kinds is right for a function. -/
structure Function.KindCorrect (f : Function) : Prop where
  /-- Parameters are integers. -/
  params : ∀ p ∈ f.params, (kinds p.value).Covers .int
  /-- The values that stand for globals are addresses. -/
  globals : ∀ v name, f.def? v = some (.global name) → (kinds v).Covers .ptr
  /-- The kinds are right at each instruction. -/
  placed : ∀ p ∈ f.placed, p.2.KindCorrect kinds (f.memoryKind kinds)

/-- Only an allocated value can stand for a global, so this can be decided. -/
instance (f : Function) : Decidable (f.KindCorrect kinds) :=
  decidable_of_iff ((∀ p ∈ f.params, (kinds p.value).Covers .int) ∧
    (∀ v ∈ f.valueIds, (f.def? v matches some (.global _)) = true → (kinds v).Covers .ptr) ∧
    ∀ p ∈ f.placed, p.2.KindCorrect kinds (f.memoryKind kinds)) <| by
  constructor
  · rintro ⟨hparams, hglobals, hplaced⟩
    refine ⟨hparams, fun v name hv => ?_, hplaced⟩
    exact hglobals v (Function.mem_valueIds_of_def? hv) (by rw [hv])
  · intro h
    refine ⟨h.params, fun v _ hv => ?_, h.placed⟩
    split at hv
    · next name hname => exact h.globals v name hname
    · cases hv

end Assignment

variable {kinds : ValueId → Kind} {f : Function} {c : Computation} {result : Kind}
  {get : Operand → Except Trap Val} {a : Val}

/-- The cells of memory may hold integers. -/
theorem Function.memoryKind_covers_int (f : Function) (kinds : ValueId → Kind) :
    (f.memoryKind kinds).Covers .int := by
  unfold Function.memoryKind
  split
  · exact Kind.covers_refl _
  · exact .inl rfl

/-- The cells of memory may hold what is stored. -/
theorem Function.memoryKind_covers {i : InstId} {ty : Ty} {src addr : Operand} {access : Access}
    (hi : (i, Instruction.store ty src addr access) ∈ f.placed) :
    (f.memoryKind kinds).Covers (src.kind kinds) := by
  unfold Function.memoryKind
  split
  · next hall =>
    have hsrc := List.all_eq_true.1 hall _ hi
    simp only [Instruction.storesInt, beq_iff_eq] at hsrc
    rw [hsrc]
    exact Kind.covers_refl _
  · exact .inl rfl

namespace Computation.KindCorrect

variable (hc : c.KindCorrect kinds result)
include hc

/-- The result of a computation is of its kind, if the operands are of theirs. -/
theorem covers (hget : ∀ o a, get o = .ok a → (o.kind kinds).Covers a.kind)
    (ha : c.eval get = .ok a) : result.Covers a.kind := by
  have hfrom := Computation.eval_eq_ok ha
  cases c with
  | int op ty lhs rhs | compare op ty lhs rhs =>
    obtain ⟨n, rfl⟩ := hfrom
    exact hc.2.2
  | float op ty lhs rhs =>
    obtain ⟨bits, rfl⟩ := hfrom
    exact hc.2.2
  | select ty cond ifTrue ifFalse =>
    rcases hfrom with h | h
    · exact hc.2.1.trans (hget _ _ h)
    · exact hc.2.2.trans (hget _ _ h)
  | copy ty src => exact Kind.Covers.trans hc (hget _ _ hfrom)
  | lea base offset =>
    obtain ⟨p, delta, -, rfl⟩ := hfrom
    exact hc.2.2

/-- A computation takes its operands, if they have values of their kinds. -/
theorem takes (hget : ∀ o ∈ c.operands, Reads get o (o.kind kinds)) : c.Takes get := by
  have hread : ∀ o ∈ c.operands, ∀ k, o.kind kinds = k → Reads get o k := fun o ho k hk =>
    hk ▸ hget o ho
  have hany : ∀ o ∈ c.operands, Reads get o .any := fun o ho =>
    (hget o ho).of_covers (.inl rfl)
  unfold Takes
  cases c with
  | int op ty lhs rhs | compare op ty lhs rhs =>
    exact .cons (hread lhs (by simp [operands]) _ hc.1)
      (.cons (hread rhs (by simp [operands]) _ hc.2.1) .nil)
  | float op ty lhs rhs =>
    exact .cons (hread lhs (by simp [operands]) _ hc.1)
      (.cons (hread rhs (by simp [operands]) _ hc.2.1) .nil)
  | select ty cond ifTrue ifFalse =>
    exact .cons (hread cond (by simp [operands]) _ hc.1)
      (.cons (hany ifTrue (by simp [operands])) (.cons (hany ifFalse (by simp [operands])) .nil))
  | copy ty src => exact .cons (hany src (by simp [operands])) .nil
  | lea base offset =>
    exact .cons (hread base (by simp [operands]) _ hc.1)
      (.cons (hread offset (by simp [operands]) _ hc.2.1) .nil)

end Computation.KindCorrect

end LoopHoist
