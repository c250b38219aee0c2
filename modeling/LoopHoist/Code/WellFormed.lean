import LoopHoist.Code.Function

/-!
# Well-formed functions

A function is well-formed when its entry exists, every block is non-empty and ends in its one
terminator, every block that an instruction names exists, and every value that an instruction uses
is bound. `violation?` finds the first broken rule, block by block and instruction by instruction;
for one instruction the rules are tried in the order of their constructors here.
-/

namespace LoopHoist

namespace Function

/-- Whether a value is bound: to a parameter, a global, or an instruction that some block owns. -/
def isBound (f : Function) (v : ValueId) : Bool :=
  match f.def? v with
  | some (.param _) | some (.global _) => true
  | some (.inst i) => (f.owner? i).isSome
  | some .unbound | none => false

/-- The first broken rule at one instruction of a block, `isLast` telling whether it is the last
one. -/
def violationAt? (f : Function) (b : BlockId) (label : String) (isLast : Bool) (i : InstId) :
    Option Violation :=
  match f.insts[i.index]? with
  | none => some (.detachedInstruction i)
  | some node =>
    if node.owner ≠ b then some (.detachedInstruction i)
    else if node.instr.isTerminator && !isLast then some (.misplacedTerminator b i)
    else if isLast && !node.instr.isTerminator then some (.missingTerminator b label)
    -- The instruction stands where it may; what it names is judged last.
    else
      match node.instr.namedBlocks.find? fun t => !f.hasBlock t with
      | some target => some (.unknownBlock b i target)
      | none => (node.instr.usedValues.find? fun v => !f.isBound v).map (.danglingOperand i)

/-- The first broken rule in the rest of a block. -/
def violationIn? (f : Function) (b : BlockId) (label : String) : List InstId → Option Violation
  | [] => none
  | i :: rest =>
    match f.violationAt? b label rest.isEmpty i with
    | some v => some v
    | none => f.violationIn? b label rest

/-- The first broken rule in a block. -/
def blockViolation? (f : Function) (b : BlockId) : Option Violation :=
  match f.block? b with
  | none => none
  | some block =>
    if block.insts.isEmpty then some (.emptyBlock b block.label)
    else f.violationIn? b block.label block.insts

/-- Whether the function has an entry and the entry exists. -/
def hasEntry (f : Function) : Bool :=
  match f.entry with
  | some b => f.hasBlock b
  | none => false

/-- The first broken rule in the function. -/
def violation? (f : Function) : Option Violation :=
  if f.hasEntry then f.blockIds.findSome? f.blockViolation?
  else some (.missingEntryBlock f.name)

/-- The check of well-formedness: nothing, or the first broken rule. -/
def validate (f : Function) : Except Violation Unit :=
  match f.violation? with
  | some v => .error v
  | none => .ok ()

/-- The check passes exactly when no rule is broken. -/
theorem validate_eq_ok_iff {f : Function} : f.validate = .ok () ↔ f.violation? = none := by
  unfold validate
  cases f.violation? <;> simp

end Function

end LoopHoist
