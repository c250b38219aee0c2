import LoopHoist.Code.Instruction

/-!
# Values of the machine

A value is an integer of 64 bits, a float, given by its encoding, or an address: an object and an
offset in bytes. Memory cells are ordered by object, globals by name before stack objects by number,
and then by offset; the order is total and tells all addresses apart, so a sorted map over addresses
behaves like a function (`Address.order`).

A run that cannot go on stops with a `Trap`, which names the value or the block at fault where there
is one.
-/

namespace LoopHoist

/-- A piece of memory: a global, or the stack object made by some execution of an `alloca`. -/
inductive MemRegion where
  /-- The memory of a global. -/
  | global (name : String)
  /-- The memory of the stack object of this number, in the order of allocation. -/
  | stack (number : Nat)
deriving DecidableEq, Inhabited

/-- An address: an offset in bytes from the start of a region. -/
structure Address where
  /-- The region. -/
  region : MemRegion
  /-- The distance from its start in bytes. -/
  offset : Int64
deriving DecidableEq, Inhabited

/-- What a register, a memory cell or an argument holds. -/
inductive Val where
  | int (n : Int64)
  | float (bits : UInt64)
  | ptr (a : Address)
deriving DecidableEq, Inhabited

/-- Why execution stops without a result. -/
inductive Trap where
  /-- A division by zero. -/
  | divideByZero
  /-- The fuel ran out before the function returned. -/
  | outOfFuel
  /-- An operand of another kind than the instruction takes. -/
  | typeMismatch
  /-- A value read before it was written. -/
  | undefinedValue (v : ValueId)
  /-- An unreachable instruction, a missing entry, or a phi without an operand for the way taken. -/
  | unreachable
  /-- The end of a block that names no other. -/
  | fellOffBlock (b : BlockId)
deriving DecidableEq, Inhabited

/-- The name of the trap. -/
def Trap.name : Trap → String
  | divideByZero => "DivideByZero"
  | outOfFuel => "OutOfFuel"
  | typeMismatch => "TypeMismatch"
  | undefinedValue _ => "UndefinedValue"
  | unreachable => "Unreachable"
  | fellOffBlock _ => "FellOffBlock"

/-- The value or the block that the trap is about. -/
def Trap.subject? : Trap → Option String
  | undefinedValue v => some v.text
  | fellOffBlock b => some b.text
  | _ => none

/-! ## The order of memory -/

/-- Globals by name, then stack objects by number. -/
def MemRegion.order : MemRegion → MemRegion → Ordering
  | global a, global b => compare a b
  | global _, stack _ => .lt
  | stack _, global _ => .gt
  | stack a, stack b => compare a b

instance : Std.TransCmp MemRegion.order where
  eq_swap {a b} := by
    cases a <;> cases b
    · exact String.instTransOrd.eq_swap
    · rfl
    · rfl
    · exact Nat.instTransOrd.eq_swap
  isLE_trans {a b c} := by
    cases a <;> cases b <;> cases c <;> simp only [MemRegion.order] <;>
      first
        | exact Std.TransCmp.isLE_trans
        | simp

instance : Std.LawfulEqCmp MemRegion.order where
  compare_self {a} := by cases a <;> simp [MemRegion.order]
  eq_of_compare {a b} := by cases a <;> cases b <;> simp [MemRegion.order]

namespace Address

/-- By region alone. -/
def regionOrder (a b : Address) : Ordering := a.region.order b.region

/-- By region, then by offset. -/
def order (a b : Address) : Ordering := compareLex regionOrder (compareOn offset) a b

instance : Std.TransCmp regionOrder where
  eq_swap := Std.OrientedCmp.eq_swap (α := MemRegion)
  isLE_trans := Std.TransCmp.isLE_trans (α := MemRegion)

instance : Std.TransCmp order :=
  inferInstanceAs (Std.TransCmp (compareLex regionOrder (compareOn offset)))

instance : Std.LawfulEqCmp order where
  compare_self := Std.ReflCmp.compare_self (α := Address)
  eq_of_compare {a b} h := by
    obtain ⟨hr, ho⟩ := Ordering.then_eq_eq.1 h
    obtain ⟨r, o⟩ := a
    obtain ⟨r', o'⟩ := b
    rw [mk.injEq]
    exact ⟨Std.LawfulEqCmp.eq_of_compare (α := MemRegion) hr,
      Std.LawfulEqCmp.eq_of_compare (α := Int64) ho⟩

/-- The address a number of bytes further, modulo the size of the address space. -/
def advance (a : Address) (delta : Int64) : Address := { a with offset := a.offset + delta }

end Address

end LoopHoist
