import LoopHoist.Flow.LoopForest
import LoopHoist.Memory.StackSlots

/-!
# Memory behaviour of a loop

What the instructions of a loop body do to memory: the number of loads and of calls, and the target
of each store. `mayWrite` answers for one object: a call may write everything but a private slot, a
store to an unknown address likewise, and a store to an identified object writes that object alone.
Stores and calls never move, so the answer holds for as long as the loop is processed.
-/

namespace LoopHoist

/-- What the body of a loop does to memory. -/
structure LoopMemory where
  /-- The number of loads. -/
  loads : Nat := 0
  /-- The number of calls. -/
  calls : Nat := 0
  /-- The object that each store writes; none if its address names no identified object. -/
  stores : List (Option MemObject) := []
deriving DecidableEq, Inhabited

/-- The instructions of the body of a loop, block by block in program order. -/
def Function.bodyOf (f : Function) (l : Loop) : List (InstId × Instruction) :=
  l.blocks.flatMap f.placedIn

/-- The address that an instruction stores to. -/
def Instruction.storeAddr? : Instruction → Option Operand
  | store _ _ addr _ => some addr
  | _ => none

namespace LoopMemory

/-- The memory behaviour of some instructions. -/
def ofBody (f : Function) (s : StackSlots) (placed : List (InstId × Instruction)) : LoopMemory :=
  let body := placed.map (·.2)
  { loads := body.countP fun i => i.category == .load
    calls := body.countP fun i => i.category == .call
    stores := (body.filterMap Instruction.storeAddr?).map (f.object? s) }

/-- The memory behaviour of the body of a loop. -/
def ofLoop (f : Function) (s : StackSlots) (l : Loop) : LoopMemory := ofBody f s (f.bodyOf l)

/-- Whether the loop loads. -/
def hasLoad (m : LoopMemory) : Bool := 0 < m.loads

/-- Whether the loop stores. -/
def hasStore (m : LoopMemory) : Bool := !m.stores.isEmpty

/-- Whether the loop calls. -/
def hasCall (m : LoopMemory) : Bool := 0 < m.calls

/-- Whether something in the loop may write the object. -/
def mayWrite (m : LoopMemory) (s : StackSlots) (o : MemObject) : Bool :=
  -- Neither a call nor a store through an unknown address reaches a private slot.
  let isPrivate := match o with
    | .stack v => s.isPrivate v
    | .global _ => false
  (!isPrivate && m.hasCall) || m.stores.any fun target =>
    match target with
    | some t => t == o
    | none => !isPrivate

end LoopMemory

end LoopHoist
