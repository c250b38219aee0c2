import LoopHoist.Code.Function
import LoopHoist.Machine.Arithmetic
import Std.Data.TreeMap

/-!
# The state of the machine

Registers hold the results of instructions and the arguments; memory holds the cells written so far,
every other cell reading as zero; the calls are recorded in order, with their arguments. A value
that stands for a global is always the address of that global, whatever its register holds.

`perform` is the effect of one instruction that does not decide where control goes.
-/

namespace LoopHoist

/-- A recorded call. -/
structure Call where
  /-- The name of what was called. -/
  callee : String
  /-- The values of the arguments. -/
  args : List Val
deriving DecidableEq, Inhabited

/-- The data of a run. -/
structure Machine where
  /-- The registers written, by the index of the value. -/
  regs : Std.TreeMap Nat Val := {}
  /-- The memory cells written, by address. -/
  memory : Std.TreeMap Address Val Address.order := {}
  /-- The calls made, in order. -/
  calls : Array Call := #[]
  /-- The number of the next stack object. -/
  nextSlot : Nat := 0
deriving Inhabited

namespace Machine

/-- The register of a value. -/
def reg? (m : Machine) (v : ValueId) : Option Val := m.regs[v.index]?

/-- The machine with a register written. -/
def setReg (m : Machine) (v : ValueId) (x : Val) : Machine :=
  { m with regs := m.regs.insert v.index x }

/-- What a memory cell holds; a cell never written holds zero. -/
def cell (m : Machine) (a : Address) : Val := m.memory.getD a (.int 0)

/-- The machine with a memory cell written. -/
def setCell (m : Machine) (a : Address) (x : Val) : Machine :=
  { m with memory := m.memory.insert a x }

/-- Writing a register changes that register alone. -/
@[simp] theorem reg?_setReg (m : Machine) (v w : ValueId) (x : Val) :
    (m.setReg v x).reg? w = if v = w then some x else m.reg? w := by
  obtain ⟨v⟩ := v
  obtain ⟨w⟩ := w
  simp [reg?, setReg, Std.TreeMap.getElem?_insert]

/-- Writing a cell changes that cell alone. -/
@[simp] theorem cell_setCell (m : Machine) (a b : Address) (x : Val) :
    (m.setCell a x).cell b = if a = b then x else m.cell b := by
  simp [cell, setCell, Std.TreeMap.getD_insert]

/-- The value of an operand in a function. -/
def get (f : Function) (m : Machine) : Operand → Except Trap Val
  | .imm i => .ok i.val
  | .value v =>
    match f.def? v with
    | some (.global name) => .ok (.ptr ⟨.global name, 0⟩)
    | _ =>
      match m.reg? v with
      | some x => .ok x
      | none => .error (.undefinedValue v)

/-- The machine with the result of a call, if the call has one. -/
def setResult (m : Machine) (dst : Option ValueId) (x : Val) : Machine :=
  match dst with
  | some v => m.setReg v x
  | none => m

/-- The effect of an instruction on the data. A store reads its address before the stored value. A
call is recorded and results in the sum of its integer arguments. Phis and terminators have no
effect here. -/
def perform (f : Function) (m : Machine) : Instruction → Except Trap Machine
  | .compute dst c => do return m.setReg dst (← c.eval (m.get f))
  | .alloca dst _ =>
    .ok { m.setReg dst (.ptr ⟨.stack m.nextSlot, 0⟩) with nextSlot := m.nextSlot + 1 }
  | .load dst _ addr _ => do
    let a ← (← m.get f addr).asAddress
    return m.setReg dst (m.cell a)
  | .store _ src addr _ => do
    let a ← (← m.get f addr).asAddress
    return m.setCell a (← m.get f src)
  | .call dst callee args => do
    let vals ← args.mapM (m.get f)
    let called := { m with calls := m.calls.push ⟨callee, vals⟩ }
    return called.setResult dst (.int ((vals.map Val.term).foldl (· + ·) 0))
  | _ => .ok m

end Machine

end LoopHoist
