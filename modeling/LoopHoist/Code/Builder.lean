import LoopHoist.Code.Edit

/-!
# Building block by block

A builder is a function with a current block, to which instructions are added. `define` allocates
the result of an instruction and then adds the instruction, so a fault of the second step leaves
the value allocated.
-/

namespace LoopHoist

/-- A function under construction and the block that new instructions go to. -/
structure Builder where
  /-- The function so far. -/
  function : Function
  /-- The block that new instructions go to, once one was selected. -/
  current : Option BlockId := none
deriving DecidableEq, Inhabited

namespace Builder

/-- A builder of an empty function. -/
def new (name : String) : Builder := { function := { name } }

/-- The builder with another current block, which is not checked to exist. -/
def switchTo (b : Builder) (block : BlockId) : Builder := { b with current := some block }

/-- The builder after an edit of its function, with the reply. -/
def edit (b : Builder) (e : Edit) : Builder × Except Failure Reply :=
  let r := b.function.edit e
  ({ b with function := r.1 }, r.2)

/-- An instruction added to the current block. -/
def emit (b : Builder) (instr : Instruction) : Builder × Except Failure Reply :=
  match b.current with
  | none => (b, .error (.fault .noCurrentBlock))
  | some block => b.edit (.append block instr)

/-- An instruction with a fresh result added to the current block; the reply is the result. -/
def define (b : Builder) (instr : ValueId → Instruction) : Builder × Except Failure Reply :=
  let v := b.function.nextValue
  let r := (b.edit .addValue).1.emit (instr v)
  (r.1, r.2.map fun _ => .value v)

end Builder

end LoopHoist
