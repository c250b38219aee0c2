import LoopHoist.Code.Module
import LoopHoist.Machine.State

/-!
# Running a function

Execution enters a block, gives all its phis their values at once, and goes through its instructions
one by one. A jump or a branch names the block to go to when the current one ends; a return stops at
once. Each instruction costs one unit of fuel, and `run` stops with a trap when an instruction is
left and the fuel is not.
-/

namespace LoopHoist

/-- What a finished run shows. -/
structure Outcome where
  /-- The returned value, if there is one. -/
  ret : Option Val
  /-- The calls made, in order. -/
  calls : List Call
  /-- The cells of globals that were written, by name and offset. -/
  globals : List (String × Int64 × Val)
deriving DecidableEq, Inhabited

/-- How a run ends. -/
inductive Halt where
  /-- The function returned. -/
  | finished (o : Outcome)
  /-- Execution stopped without a result. -/
  | trapped (t : Trap)
  /-- Control reached a block or an instruction that does not exist. -/
  | faulted (e : Fault)
deriving DecidableEq, Inhabited

/-- A function in execution. -/
structure Running where
  /-- The current block. -/
  block : BlockId
  /-- Its instructions still to come. -/
  rest : List InstId
  /-- The block to go to after it, once an instruction has named one. -/
  next : Option BlockId := none
  /-- The data. -/
  machine : Machine
deriving Inhabited

namespace Machine

/-- The cells of globals, by name and offset. -/
def globals (m : Machine) : List (String × Int64 × Val) :=
  m.memory.toList.filterMap fun (a, x) =>
    match a.region with
    | .global name => some (name, a.offset, x)
    | .stack _ => none

/-- The outcome of a run that ends now. -/
def outcome (m : Machine) (ret : Option Val) : Outcome :=
  { ret, calls := m.calls.toList, globals := m.globals }

/-- The value that a phi takes from the block that control came from. -/
def incomingValue (f : Function) (m : Machine) (came : Option BlockId)
    (incoming : List (BlockId × Operand)) : Except Trap Val :=
  match came with
  | none => .error .unreachable
  | some b =>
    match incoming.find? fun p => p.1 == b with
    | some p => m.get f p.2
    | none => .error .unreachable

/-- The values that the phis of a block take, all read before any is written. -/
def phiValues (f : Function) (m : Machine) (came : Option BlockId) (b : BlockId) :
    Except Trap (List (ValueId × Val)) :=
  ((f.placedIn b).filterMap fun p =>
    match p.2 with
    | .phi dst _ incoming => some (dst, incoming)
    | _ => none).mapM fun p => return (p.1, ← m.incomingValue f came p.2)

end Machine

namespace Running

/-- The start of a block, coming from another or, for the entry, from nowhere. A block without
instructions is fallen off at once. -/
def enter (f : Function) (came : Option BlockId) (b : BlockId) (m : Machine) :
    Except Halt Running :=
  match f.block? b with
  | none => .error (.faulted .outOfBounds)
  | some block =>
    -- The phis are read even where nothing else is left to execute.
    match m.phiValues f came b with
    | .error t => .error (.trapped t)
    | .ok vals =>
      if block.insts.isEmpty then .error (.trapped (.fellOffBlock b))
      else
        .ok { block := b
              rest := block.insts
              machine := vals.foldl (fun m p => m.setReg p.1 p.2) m }

/-- The next instruction to come: in the current block if it has one left, else in the block that
was named. -/
def advance (f : Function) (r : Running) : Except Halt Running :=
  match r.rest, r.next with
  | _ :: _, _ => .ok r
  | [], some b => enter f (some r.block) b r.machine
  | [], none => .error (.trapped (.fellOffBlock r.block))

/-- The effect of one instruction, before the next is looked for. -/
def execute (f : Function) (r : Running) : Instruction → Except Halt Running
  | .jump target => .ok { r with next := some target }
  | .branch cond ifTrue ifFalse =>
    match r.machine.get f cond >>= Val.asInt with
    | .ok c => .ok { r with next := some (if c != 0 then ifTrue else ifFalse) }
    | .error t => .error (.trapped t)
  | .ret none => .error (.finished (r.machine.outcome none))
  | .ret (some a) =>
    match r.machine.get f a with
    | .ok x => .error (.finished (r.machine.outcome (some x)))
    | .error t => .error (.trapped t)
  | .unreachable => .error (.trapped .unreachable)
  | instr =>
    match r.machine.perform f instr with
    | .ok m => .ok { r with machine := m }
    | .error t => .error (.trapped t)

/-- One instruction, and the way to the next. -/
def step (f : Function) (r : Running) : Except Halt Running :=
  match r.rest with
  | [] => .error (.trapped (.fellOffBlock r.block))
  | i :: rest =>
    match f.inst? i with
    | none => .error (.faulted .outOfBounds)
    | some instr => ({ r with rest }.execute f instr) >>= advance f

/-- The end of a run on a given amount of fuel. -/
def run (f : Function) : Nat → Running → Halt
  | 0, _ => .trapped .outOfFuel
  | fuel + 1, r =>
    match r.step f with
    | .error h => h
    | .ok r' => run f fuel r'

end Running

/-- The machine before the first instruction: the arguments in the registers of the parameters, as
far as both go, and the initial values of the globals in memory. -/
def Machine.start (m : Module) (f : Function) (args : List Int64) : Machine :=
  let loaded := m.initialValues.toList.foldl
    (fun s e => s.setCell ⟨.global e.1, 0⟩ (.int e.2)) ({} : Machine)
  (f.params.zip args).foldl (fun s p => s.setReg p.1.value (.int p.2)) loaded

/-- The end of a run of a function of a module on the given arguments and fuel. -/
def Function.runWith (fuel : Nat) (m : Module) (f : Function) (args : List Int64) : Halt :=
  match f.entry with
  | none => .trapped .unreachable
  | some e =>
    match Running.enter f none e (Machine.start m f args) with
    | .error h => h
    | .ok r => r.run f fuel

/-- The fuel of a run: the number of instructions that it may execute. -/
def defaultFuel : Nat := 100000

/-- The end of a run of a function of a module on the given arguments. -/
def Function.run (m : Module) (f : Function) (args : List Int64) : Halt :=
  f.runWith defaultFuel m args

end LoopHoist
