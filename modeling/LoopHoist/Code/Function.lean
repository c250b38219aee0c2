import LoopHoist.Code.Instruction
import LoopHoist.Code.Violation

/-!
# Functions

A function owns three arenas: blocks, instructions and values. A block lists the handles of its
instructions in order; each instruction also records the block that owns it, so an instruction can
change its place without changing its handle. `placed` lists the instructions of the blocks in
program order, and `def?` tells where a value comes from.

Look-ups come in two forms: with an optional result (`block?`), and as an access that faults on a
handle that names nothing (`blockAt`).
-/

namespace LoopHoist

/-- A parameter: the value bound to it and its type. -/
structure Param where
  /-- The value bound to the parameter. -/
  value : ValueId
  /-- The type of the parameter. -/
  ty : Ty
deriving DecidableEq, Inhabited

/-- Where a value comes from. -/
inductive ValueDef where
  /-- It is the parameter of this number. -/
  | param (number : Nat)
  /-- It is the result of this instruction. -/
  | inst (i : InstId)
  /-- It is the address of this global. -/
  | global (name : String)
  /-- Nothing defines it yet. -/
  | unbound
deriving DecidableEq, Inhabited

/-- A basic block. -/
structure Block where
  /-- The written name of the block. -/
  label : String
  /-- The handles of its instructions in order of execution. -/
  insts : List InstId := []
deriving DecidableEq, Inhabited

/-- An entry of the arena of instructions. -/
structure Node where
  /-- The instruction. -/
  instr : Instruction
  /-- The block that owns it. -/
  owner : BlockId
deriving DecidableEq, Inhabited

/-- A function: its signature, its arenas and its entry. -/
structure Function where
  /-- The name of the function. -/
  name : String
  /-- The parameters in order. -/
  params : List Param := []
  /-- The type of the result, if there is one. -/
  ret : Option Ty := none
  /-- The blocks in program order. -/
  blocks : Array Block := #[]
  /-- The instructions in the order of creation. -/
  insts : Array Node := #[]
  /-- For each value where it comes from. -/
  values : Array ValueDef := #[]
  /-- The value that stands for the address of each global, in the order of first use. -/
  globals : List (String × ValueId) := []
  /-- The block where execution starts. -/
  entry : Option BlockId := none
deriving DecidableEq, Inhabited

/-! ## Blocks -/

namespace Block

/-- The last instruction, which is the terminator of a well-formed block. -/
def last? (b : Block) : Option InstId := b.insts.getLast?

/-- The place of an instruction in the block. -/
def position? (b : Block) (i : InstId) : Option Nat := b.insts.idxOf? i

/-- The block with an instruction added at its end. -/
def push (b : Block) (i : InstId) : Block := { b with insts := b.insts ++ [i] }

/-- The block without an instruction; the others keep their order. -/
def erase (b : Block) (i : InstId) : Block := { b with insts := b.insts.erase i }

/-- The block with an instruction put directly before its last one. -/
def insertBeforeLast (b : Block) (i : InstId) : Block :=
  { b with insts := b.insts.dropLast ++ i :: b.insts.getLast?.toList }

/-- Inserting before the last instruction adds exactly one instruction. -/
theorem insertBeforeLast_length (b : Block) (i : InstId) :
    (b.insertBeforeLast i).insts.length = b.insts.length + 1 := by
  unfold insertBeforeLast
  rcases List.eq_nil_or_concat b.insts with h | ⟨l, x, h⟩ <;> simp [h]

/-- Inserting before the last instruction keeps the last instruction. -/
theorem last?_insertBeforeLast {b : Block} (i : InstId) (h : b.insts ≠ []) :
    (b.insertBeforeLast i).last? = b.last? := by
  unfold insertBeforeLast last?
  obtain ⟨l, x, hl⟩ := (List.eq_nil_or_concat b.insts).resolve_left h
  simp [hl]

end Block

namespace Function

/-! ## Handles in use -/

/-- The number of blocks. -/
def size (f : Function) : Nat := f.blocks.size

/-- Whether the function has no blocks, as a mere declaration has none. -/
def isDeclaration (f : Function) : Bool := f.blocks.size == 0

/-- Whether the function has a block of this handle. -/
def hasBlock (f : Function) (b : BlockId) : Bool := b.index < f.blocks.size

/-- The blocks in program order. -/
def blockIds (f : Function) : List BlockId := (List.range f.blocks.size).map BlockId.mk

/-- The allocated values in the order of allocation. -/
def valueIds (f : Function) : List ValueId := (List.range f.values.size).map ValueId.mk

/-- Whether handles can name all that the arenas of a function hold. -/
structure Nameable (f : Function) : Prop where
  /-- There are no more blocks than handles. -/
  blocks : f.size ≤ handleCount
  /-- There are no more instructions than handles. -/
  insts : f.insts.size ≤ handleCount
  /-- There are no more values than handles. -/
  values : f.values.size ≤ handleCount

/-- The block handles are exactly those of existing blocks. -/
@[simp] theorem mem_blockIds {f : Function} {b : BlockId} :
    b ∈ f.blockIds ↔ f.hasBlock b = true := by
  cases b
  simp [blockIds, hasBlock]

/-! ## Look-up -/

/-- The block of a handle. -/
def block? (f : Function) (b : BlockId) : Option Block := f.blocks[b.index]?

/-- The instruction of a handle. -/
def inst? (f : Function) (i : InstId) : Option Instruction := f.insts[i.index]?.map (·.instr)

/-- The block that owns an instruction. -/
def owner? (f : Function) (i : InstId) : Option BlockId := f.insts[i.index]?.map (·.owner)

/-- Where a value comes from; nothing for a value that was never allocated. -/
def def? (f : Function) (v : ValueId) : Option ValueDef := f.values[v.index]?

/-- The instruction that defines a value, if an instruction does. -/
def definingInst? (f : Function) (v : ValueId) : Option InstId :=
  match f.def? v with
  | some (.inst i) => some i
  | _ => none

/-- The instruction handles of a block in order; none for a block that does not exist. -/
def instsOf (f : Function) (b : BlockId) : List InstId :=
  match f.block? b with
  | some block => block.insts
  | none => []

/-- The block of a handle, which the caller promises to exist. -/
def blockAt (f : Function) (b : BlockId) : Except Fault Block :=
  match f.block? b with
  | some block => .ok block
  | none => .error .outOfBounds

/-- The instruction of a handle, which the caller promises to exist. -/
def instAt (f : Function) (i : InstId) : Except Fault Instruction :=
  match f.inst? i with
  | some instr => .ok instr
  | none => .error .outOfBounds

/-! ## The body

What a pass over the body reads is given twice: as lists that pass over handles that name nothing,
and by look-ups that fault on them. -/

/-- The instructions of a block with their handles, in order. -/
def placedIn (f : Function) (b : BlockId) : List (InstId × Instruction) :=
  (f.instsOf b).filterMap fun i => (f.inst? i).map fun instr => (i, instr)

/-- The instructions of a block with their handles, in order, the block and the handles being
looked up. -/
def placedAt (f : Function) (b : BlockId) : Except Fault (List (InstId × Instruction)) := do
  let block ← f.blockAt b
  block.insts.mapM fun i => return (i, ← f.instAt i)

/-- The instructions of some blocks, block by block, looked up. -/
def bodyAt (f : Function) (bs : List BlockId) : Except Fault (List (InstId × Instruction)) := do
  return (← bs.mapM f.placedAt).flatten

/-- The instructions of all blocks with their handles, in program order. -/
def placed (f : Function) : List (InstId × Instruction) := f.blockIds.flatMap f.placedIn

/-- The number of instructions in blocks. -/
def instructionCount (f : Function) : Nat := (f.blocks.toList.flatMap Block.insts).length

/-- The terminator of a block: its last instruction, if that ends a block. -/
def terminator? (f : Function) (b : BlockId) : Option Instruction :=
  match (f.block? b).bind Block.last? with
  | some i => (f.inst? i).filter Instruction.isTerminator
  | none => none

/-- The terminator of a block, looked up. -/
def terminatorAt (f : Function) (b : BlockId) : Except Fault (Option Instruction) := do
  let block ← f.blockAt b
  match block.last? with
  | some i => return (some (← f.instAt i)).filter Instruction.isTerminator
  | none => return none

/-- The blocks that a block may pass control to, each once, as its terminator names them. -/
def successors (f : Function) (b : BlockId) : List BlockId :=
  match f.terminator? b with
  | some t => t.successors
  | none => []

/-- The successors of a block, its terminator being looked up. -/
def successorsAt (f : Function) (b : BlockId) : Except Fault (List BlockId) := do
  match ← f.terminatorAt b with
  | some t => return t.successors
  | none => return []

/-- The placed instructions with a value among their operands, in program order. -/
def uses (f : Function) (v : ValueId) : List InstId :=
  (f.placed.filter fun p => p.2.usedValues.contains v).map (·.1)

/-- For every block, its instruction handles in order. -/
def layout (f : Function) : List (List InstId) := f.blocks.toList.map (·.insts)

/-! ## Agreement -/

/-- Equality of functions that compares float immediates as numbers, so that a function holding a
NaN agrees with nothing, itself included. -/
def agrees (f g : Function) : Bool :=
  f.name == g.name && f.params == g.params && f.ret == g.ret && f.blocks == g.blocks &&
    listAgrees (fun m n => m.instr.agrees n.instr && m.owner == n.owner)
      f.insts.toList g.insts.toList &&
    f.values == g.values && f.globals == g.globals && f.entry == g.entry

/-! ## Text -/

/-- The text of a parameter with its type. -/
def paramText (p : Param) : String := p.value.text ++ ": " ++ p.ty.text

/-- The lines of a block: its label with its handle, then each instruction, indented. -/
def blockText (f : Function) (b : BlockId) : String :=
  (match f.block? b with | some block => block.label | none => "") ++ ": ; " ++ b.text ++ "\n" ++
    String.join ((f.placedIn b).map fun p => "  " ++ p.2.text ++ "\n")

/-- The text of the function: its signature, then its blocks in program order. -/
def text (f : Function) : String :=
  "fn " ++ f.name ++ "(" ++ ", ".intercalate (f.params.map paramText) ++ ")" ++
    (match f.ret with | some ty => " -> " ++ ty.text | none => "") ++ " \x7b\n" ++
    String.join (f.blockIds.map f.blockText) ++ "\x7d"

end Function

end LoopHoist
