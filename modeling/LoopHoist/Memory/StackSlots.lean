import LoopHoist.Code.Function

/-!
# Stack slots and identified objects

Two kinds of address are understood: the value that stands for a global, and the result of an
`alloca`. Each names an identified object, and different objects never overlap. A slot whose address
is used for anything but loading from it or storing to it has escaped; one that has not is private,
and only a store that names it can write it.
-/

namespace LoopHoist

/-- An object with a known address, named by the value that holds the address. -/
inductive MemObject where
  | global (v : ValueId)
  | stack (v : ValueId)
deriving DecidableEq, Inhabited

namespace Instruction

/-- The value that holds the address of the stack slot that the instruction makes. -/
def slot? : Instruction → Option ValueId
  | alloca dst _ => some dst
  | _ => none

/-- The address that the instruction loads from or stores to. -/
def addr? : Instruction → Option Operand
  | load _ _ addr _ | store _ _ addr _ => some addr
  | _ => none

/-- The values that the instruction passes on, so that an address among them may become known
elsewhere: a load passes on none, a store the stored value, any other instruction all it uses. -/
def published : Instruction → List ValueId
  | load .. => []
  | store _ src _ _ => src.value?.toList
  | i => i.usedValues

end Instruction

/-- The values that hold the address of a stack slot, and those whose slot escapes. -/
structure StackSlots where
  /-- The results of allocations, in program order. -/
  slots : List ValueId
  /-- Those whose address is passed on somewhere. -/
  escaped : List ValueId
deriving DecidableEq, Inhabited

namespace StackSlots

/-- The slots made by some instructions; those published by any of them escape. -/
def ofPlaced (placed : List (InstId × Instruction)) : StackSlots :=
  let slots := placed.filterMap fun p => p.2.slot?
  { slots, escaped := (placed.flatMap fun p => p.2.published).filter slots.contains }

/-- The slots of a function: what `Function.stackSlots` gives when no look-up faults. -/
def ofFunction (f : Function) : StackSlots := ofPlaced f.placed

/-- Whether a value holds the address of a slot. -/
def isSlot (s : StackSlots) (v : ValueId) : Bool := s.slots.contains v

/-- Whether a value holds the address of a slot that does not escape. -/
def isPrivate (s : StackSlots) (v : ValueId) : Bool := s.slots.contains v && !s.escaped.contains v

end StackSlots

/-- The slots of a function, whose instructions are looked up. -/
def Function.stackSlots (f : Function) : Except Fault StackSlots := do
  return .ofPlaced (← f.bodyAt f.blockIds)

/-- The object that an address operand names: a global, or a slot whose value an instruction
defines. -/
def Function.object? (f : Function) (s : StackSlots) (addr : Operand) : Option MemObject :=
  match addr.value? with
  | none => none
  | some v =>
    match f.def? v with
    | some (.global _) => some (.global v)
    | some (.inst _) => if s.isSlot v then some (.stack v) else none
    | _ => none

namespace Function

/-- The objects that the allocated values name by themselves: a global, or a stack slot. -/
def namedObjects (f : Function) (s : StackSlots) : List MemObject :=
  f.valueIds.filterMap fun v =>
    match f.def? v with
    | some (.global _) => some (.global v)
    | _ => if s.isSlot v then some (.stack v) else none

/-- The loads and stores in program order, each with the object that its address names. -/
def accesses (f : Function) (s : StackSlots) : List (InstId × Option MemObject) :=
  f.placed.filterMap fun p => p.2.addr?.map fun addr => (p.1, f.object? s addr)

end Function

end LoopHoist
