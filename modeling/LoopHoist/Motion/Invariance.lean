import LoopHoist.Memory.LoopMemory
import LoopHoist.Motion.Settings

/-!
# Loop invariance

A value is invariant in a loop when it is a parameter, the address of a global, or the result of an
instruction that lies outside the body or has been hoisted out of it. `verdict` decides for one
instruction whether it may be hoisted now: an ordinary instruction when its operands are invariant,
a load when moreover it is not volatile and nothing in the loop may write what it reads. While a
loop is processed the hoisted set only grows, so what is invariant stays so.
-/

namespace LoopHoist

/-- What is hoisted: an ordinary instruction or a load. -/
inductive HoistKind where
  | ordinary
  | load
deriving DecidableEq, Inhabited

/-- Why an instruction stays in its loop. -/
inductive Reject where
  /-- This operand is computed in the loop. -/
  | variantOperand (v : ValueId)
  /-- Instructions of this class never move. -/
  | immovable (c : Category)
  /-- The settings keep loads where they are. -/
  | loadsDisabled
  /-- The access must stay as it is. -/
  | isVolatile
  /-- Something in the loop may write the loaded memory. -/
  | mayBeClobbered
deriving DecidableEq, Inhabited

/-- The written reason. -/
def Reject.text : Reject → String
  | variantOperand v => "operand " ++ v.text ++ " varies in the loop"
  | immovable c => c.text ++ " instructions are not hoisted"
  | loadsDisabled => "load hoisting is disabled"
  | isVolatile => "volatile access"
  | mayBeClobbered => "memory may be written in the loop"

/-- A loop while it is processed. -/
structure LoopState where
  /-- The loop. -/
  loop : Loop
  /-- The stack slots of the function. -/
  slots : StackSlots
  /-- What the body did to memory before anything left it. -/
  memory : LoopMemory
  /-- The settings of the run. -/
  settings : Settings
  /-- The instructions hoisted so far, the last one first. -/
  hoisted : List InstId := []
deriving DecidableEq, Inhabited

namespace LoopState

/-- The state of a loop from which nothing has been hoisted. -/
def start (f : Function) (slots : StackSlots) (settings : Settings) (loop : Loop) : LoopState :=
  { loop, slots, memory := .ofLoop f slots loop, settings }

/-- The same state, the instructions of the body being looked up. -/
def startAt (f : Function) (slots : StackSlots) (settings : Settings) (loop : Loop) :
    Except Fault LoopState := do
  return { loop, slots, memory := .ofBody f slots (← f.bodyAt loop.blocks), settings }

/-- The state after an instruction has been hoisted. -/
def mark (s : LoopState) (i : InstId) : LoopState := { s with hoisted := i :: s.hoisted }

/-- Whether an instruction has been hoisted. -/
def isHoisted (s : LoopState) (i : InstId) : Bool := s.hoisted.contains i

/-- The instruction that was marked has been hoisted, and those that had been. -/
@[simp] theorem isHoisted_mark (s : LoopState) (i j : InstId) :
    (s.mark i).isHoisted j = (j == i || s.isHoisted j) := by
  rw [isHoisted, mark, List.contains_cons, isHoisted]

/-- Whether an instruction is owned by a block outside the loop. -/
def isOutside (s : LoopState) (f : Function) (i : InstId) : Bool :=
  match f.owner? i with
  | some b => !s.loop.contains b
  | none => false

/-- Whether a value is the same in every round of the loop. -/
def invariantValue (s : LoopState) (f : Function) (v : ValueId) : Bool :=
  match f.def? v with
  | some (.param _) | some (.global _) => true
  | some (.inst i) => s.isHoisted i || s.isOutside f i
  | some .unbound | none => false

/-- Whether an operand is the same in every round of the loop; an immediate always is. -/
def invariant (s : LoopState) (f : Function) : Operand → Bool
  | .imm _ => true
  | .value v => s.invariantValue f v

/-- The first value operand that is not invariant. -/
def variantOperand? (s : LoopState) (f : Function) (instr : Instruction) : Option ValueId :=
  instr.usedValues.find? fun v => !s.invariantValue f v

/-- Whether nothing in the loop may write what a load from this address reads, as far as the alias
policy looks. -/
def loadIsSafe (s : LoopState) (f : Function) (addr : Operand) : Bool :=
  -- Without a known object nothing can be said, under either policy.
  match s.settings.aliasPolicy, f.object? s.slots addr with
  | _, none => false
  | .globalsOnly, some (.global _) => !s.memory.hasStore && !s.memory.hasCall
  | .globalsOnly, some (.stack _) => false
  | .strict, some (.global v) => !s.memory.mayWrite s.slots (.global v)
  | .strict, some (.stack v) =>
    s.slots.isPrivate v && !s.memory.mayWrite s.slots (.stack v)

/-- Whether an instruction with the given content may be hoisted now, and as what. -/
def verdictOf (s : LoopState) (f : Function) (instr : Instruction) : Except Reject HoistKind :=
  match instr with
  | .load _ _ addr access =>
    -- The settings are asked first, then the access, then its operands, and memory last.
    if !s.settings.hoistLoads then .error .loadsDisabled
    else if access.isVolatile then .error .isVolatile
    else
      match s.variantOperand? f instr with
      | some v => .error (.variantOperand v)
      | none => if s.loadIsSafe f addr then .ok .load else .error .mayBeClobbered
  | _ =>
    if instr.category = .ordinary then
      match s.variantOperand? f instr with
      | some v => .error (.variantOperand v)
      | none => .ok .ordinary
    else .error (.immovable instr.category)

/-- Whether an instruction may be hoisted now, and as what. -/
def verdict (s : LoopState) (f : Function) (i : InstId) : Except Fault (Except Reject HoistKind) :=
  (f.instAt i).map (s.verdictOf f)

end LoopState

end LoopHoist
