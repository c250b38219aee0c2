import LoopHoist.Code.Function

/-!
# Building and changing a function

Every change of a function is one `Edit`. Adding something issues the next free handle of its arena
(`nextBlock`, `nextInst`, `nextValue`), and a handle keeps its meaning ever after; an arena may grow
past what handles can name, which `Nameable` rules out. An edit that is refused with a `Violation`
leaves the function as it was. `move` is the edit that code motion uses:
it takes an instruction out of the block that owns it and puts it directly before the terminator of
another.

An instruction appended to a block that does not exist faults, but not without a trace: its result
value is bound and the instruction is recorded in the arena, while no block lists it.
-/

namespace LoopHoist

/-- One change of a function. -/
inductive Edit where
  | addBlock (label : String)
  | addParam (ty : Ty)
  | addGlobal (name : String)
  | addValue
  | append (block : BlockId) (instr : Instruction)
  | setEntry (block : BlockId)
  | setReturn (ty : Ty)
  | setPhi (phi : ValueId) (incoming : List (BlockId × Operand))
  | move (inst : InstId) (dest : BlockId)
deriving DecidableEq, Inhabited

/-- What an edit answers: the handle it issued, or that it is done. -/
inductive Reply where
  | block (b : BlockId)
  | inst (i : InstId)
  | value (v : ValueId)
  | done
deriving DecidableEq, Inhabited

/-- Whether what an edit answers is a handle of the range. -/
def Reply.InRange : Reply → Prop
  | .block b => b.index < handleCount
  | .inst i => i.index < handleCount
  | .value v => v.index < handleCount
  | .done => True

namespace Function

/-! ## Adding -/

/-- The handle that the next block will have. -/
def nextBlock (f : Function) : BlockId := ⟨f.blocks.size⟩

/-- The handle that the next instruction will have. -/
def nextInst (f : Function) : InstId := ⟨f.insts.size⟩

/-- The handle that the next value will have. -/
def nextValue (f : Function) : ValueId := ⟨f.values.size⟩

/-- A new block at the end of the layout. The first block becomes the entry, unless an entry was
set before. -/
def addBlock (f : Function) (label : String) : Function :=
  { f with
    blocks := f.blocks.push { label }
    entry := match f.entry with | some b => some b | none => some f.nextBlock }

/-- A new value that comes from the given place. -/
def addValue (f : Function) (origin : ValueDef) : Function :=
  { f with values := f.values.push origin }

/-- A new parameter with its value. -/
def addParam (f : Function) (ty : Ty) : Function :=
  { f.addValue (.param f.params.length) with params := f.params ++ [⟨f.nextValue, ty⟩] }

/-- The value that stands for the address of a global, if the function has one. -/
def global? (f : Function) (name : String) : Option ValueId := f.globals.lookup name

/-- A value for the address of a global, made only if there is none yet. -/
def addGlobal (f : Function) (name : String) : Function :=
  match f.global? name with
  | some _ => f
  | none => { f.addValue (.global name) with globals := f.globals ++ [(name, f.nextValue)] }

/-- An instruction at the end of a block. A result value that is allocated is bound to it, over any
earlier binding. -/
def append (f : Function) (b : BlockId) (instr : Instruction) : Function :=
  { f with
    values := match instr.def? with
      | some v => f.values.setIfInBounds v.index (.inst f.nextInst)
      | none => f.values
    insts := f.insts.push ⟨instr, b⟩
    blocks := f.blocks.modify b.index (·.push f.nextInst) }

/-! ## Changing -/

/-- The phi that defines a value, with other incoming edges. -/
def setPhi (f : Function) (phi : ValueId) (incoming : List (BlockId × Operand)) :
    Except Violation Function :=
  match f.definingInst? phi with
  | none => .error (.notAPhi phi)
  | some i =>
    match f.inst? i with
    | some (.phi dst ty _) =>
      .ok { f with
        insts := f.insts.modify i.index fun n => { n with instr := .phi dst ty incoming } }
    | _ => .error (.notAPhi phi)

/-- The function with an instruction taken out of the block `src` and put directly before the last
instruction of `dest`, which owns it from then on. -/
def relocate (f : Function) (i : InstId) (src dest : BlockId) : Function :=
  { f with
    blocks := (f.blocks.modify src.index (·.erase i)).modify dest.index (·.insertBeforeLast i)
    insts := f.insts.modify i.index fun n => { n with owner := dest } }

/-- An instruction moved to just before the terminator of `dest`. Operands, values and the edges
between blocks stay as they are. It is refused if `dest` does not exist or has no terminator, and
for an instruction that is a terminator itself. -/
def move (f : Function) (i : InstId) (dest : BlockId) : Except Failure Function :=
  match f.block? dest with
  | none => .error (.violation (.unknownBlock dest i dest))
  | some block =>
    match f.terminatorAt dest with
    | .error e => .error (.fault e)
    | .ok none => .error (.violation (.missingTerminator dest block.label))
    | .ok (some _) =>
      -- The destination is fit; only now the instruction is looked at.
      match f.insts[i.index]? with
      | none => .error (.fault .outOfBounds)
      | some node =>
        if node.instr.isTerminator then
          .error (.violation (.misplacedTerminator dest i))
        else if f.hasBlock node.owner then
          .ok (f.relocate i node.owner dest)
        else
          .error (.fault .outOfBounds)

/-! ## What an edit changes

Appending adds one instruction to the arena and to one block, and binds at most one value; a
relocation changes two sequences and one owner. -/

/-- The appended instruction has the next handle, and the earlier ones keep theirs. -/
@[simp] theorem inst?_append (f : Function) (b : BlockId) (instr : Instruction) (i : InstId) :
    (f.append b instr).inst? i = if i = f.nextInst then some instr else f.inst? i := by
  obtain ⟨i⟩ := i
  by_cases h : i = f.insts.size <;> simp [inst?, append, nextInst, Array.getElem?_push, h]

/-- The appended instruction is owned by its block, and the earlier ones keep their owners. -/
@[simp] theorem owner?_append (f : Function) (b : BlockId) (instr : Instruction) (i : InstId) :
    (f.append b instr).owner? i = if i = f.nextInst then some b else f.owner? i := by
  obtain ⟨i⟩ := i
  by_cases h : i = f.insts.size <;> simp [owner?, append, nextInst, Array.getElem?_push, h]

/-- Only the block appended to changes, and there is no other block than before. -/
@[simp] theorem block?_append (f : Function) (b : BlockId) (instr : Instruction) (c : BlockId) :
    (f.append b instr).block? c =
      if c = b then (f.block? c).map (·.push f.nextInst) else f.block? c := by
  obtain ⟨b⟩ := b
  obtain ⟨c⟩ := c
  by_cases h : b = c <;> simp [block?, append, Array.getElem?_modify, h, eq_comm]

/-- Only the value that the appended instruction writes is bound anew, if it is allocated. -/
@[simp] theorem def?_append (f : Function) (b : BlockId) (instr : Instruction) (v : ValueId) :
    (f.append b instr).def? v =
      if instr.def? = some v then (f.def? v).map fun _ => .inst f.nextInst else f.def? v := by
  obtain ⟨v⟩ := v
  simp only [def?, append]
  cases hd : instr.def? with
  | none => simp
  | some w =>
    obtain ⟨w⟩ := w
    by_cases h : w = v
    · subst h
      simp only [Array.getElem?_setIfInBounds, if_true]
      by_cases hw : w < f.values.size <;> simp [hw]
    · simp [h]

/-- A relocation changes no instruction. -/
@[simp] theorem inst?_relocate (f : Function) (i : InstId) (src dest : BlockId) (j : InstId) :
    (f.relocate i src dest).inst? j = f.inst? j := by
  simp only [inst?, relocate, Array.getElem?_modify]
  split <;> simp [Function.comp_def]

/-- A relocation gives the moved instruction another owner, and no other instruction. -/
@[simp] theorem owner?_relocate (f : Function) (i : InstId) (src dest : BlockId) (j : InstId) :
    (f.relocate i src dest).owner? j =
      if j = i then (f.owner? j).map fun _ => dest else f.owner? j := by
  obtain ⟨i⟩ := i
  obtain ⟨j⟩ := j
  by_cases h : i = j <;>
    simp [owner?, relocate, Array.getElem?_modify, h, eq_comm, Function.comp_def]

/-- A relocation binds no value anew. -/
@[simp] theorem def?_relocate (f : Function) (i : InstId) (src dest : BlockId) (v : ValueId) :
    (f.relocate i src dest).def? v = f.def? v := rfl

/-- A relocation takes the instruction out of `src` and then puts it into `dest`; the other blocks
stay as they are. -/
@[simp] theorem block?_relocate (f : Function) (i : InstId) (src dest b : BlockId) :
    (f.relocate i src dest).block? b =
      (f.block? b).map fun block =>
        let rest := if b = src then block.erase i else block
        if b = dest then rest.insertBeforeLast i else rest := by
  obtain ⟨src⟩ := src
  obtain ⟨dest⟩ := dest
  obtain ⟨b⟩ := b
  simp only [block?, relocate, Array.getElem?_modify, BlockId.mk.injEq]
  by_cases hs : src = b <;> by_cases hd : dest = b <;>
    simp [hs, hd, eq_comm, Function.comp_def]

/-- A relocation adds no block and takes none away. -/
@[simp] theorem size_relocate (f : Function) (i : InstId) (src dest : BlockId) :
    (f.relocate i src dest).size = f.size := by
  simp [size, relocate]

/-- The same blocks exist after a relocation. -/
@[simp] theorem hasBlock_relocate (f : Function) (i : InstId) (src dest b : BlockId) :
    (f.relocate i src dest).hasBlock b = f.hasBlock b := by
  simp [hasBlock, relocate]

/-! ## Edits -/

/-- The outcome of an edit: the function after it, and the reply or the reason why there is none. -/
def edit (f : Function) : Edit → Function × Except Failure Reply
  | .addBlock label => (f.addBlock label, .ok (.block f.nextBlock))
  | .addParam ty => (f.addParam ty, .ok (.value f.nextValue))
  | .addGlobal name => (f.addGlobal name, .ok (.value ((f.global? name).getD f.nextValue)))
  | .addValue => (f.addValue .unbound, .ok (.value f.nextValue))
  | .append b instr =>
    (f.append b instr,
      -- The arena keeps the instruction also when no block takes it.
      if f.hasBlock b then .ok (.inst f.nextInst) else .error (.fault .outOfBounds))
  | .setEntry b => ({ f with entry := some b }, .ok .done)
  | .setReturn ty => ({ f with ret := some ty }, .ok .done)
  | .setPhi phi incoming =>
    match f.setPhi phi incoming with
    | .ok g => (g, .ok .done)
    | .error v => (f, .error (.violation v))
  | .move i dest =>
    match f.move i dest with
    | .ok g => (g, .ok .done)
    | .error e => (f, .error e)

/-- The function after a list of edits, whatever they reply. -/
def edits (f : Function) (es : List Edit) : Function := es.foldl (fun g e => (g.edit e).1) f

/-- An edit that is refused leaves the function as it was. -/
theorem edit_of_violation {f g : Function} {e : Edit} {v : Violation}
    (h : f.edit e = (g, .error (.violation v))) : g = f := by
  cases e with
  | append b instr =>
    simp only [edit, Prod.mk.injEq] at h
    split at h <;> simp at h
  | setPhi phi incoming =>
    simp only [edit] at h
    split at h <;> simp_all
  | move i dest =>
    simp only [edit] at h
    split at h <;> simp_all
  | _ => simp [edit] at h

end Function

end LoopHoist
