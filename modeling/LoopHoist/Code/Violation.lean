import LoopHoist.Code.Handle

/-!
# What can be wrong with a function

A `Violation` is a broken rule of well-formedness; it is reported as a value and the function stays
as it was. A `Fault` is a broken promise of the caller, such as a handle that names nothing: the
operation has no answer. A `Failure` is either of the two.
-/

namespace LoopHoist

/-- A broken rule of well-formedness, with the places that show it. -/
inductive Violation where
  /-- The entry is not set or does not exist. -/
  | missingEntryBlock (function : String)
  /-- A block has no instructions. -/
  | emptyBlock (block : BlockId) (label : String)
  /-- The last instruction of a block does not end it. -/
  | missingTerminator (block : BlockId) (label : String)
  /-- An instruction that ends a block is not its last one, or would not be. -/
  | misplacedTerminator (block : BlockId) (inst : InstId)
  /-- An instruction names a block that does not exist. -/
  | unknownBlock (block : BlockId) (inst : InstId) (target : BlockId)
  /-- An instruction uses a value that is not bound. -/
  | danglingOperand (inst : InstId) (value : ValueId)
  /-- A block lists an instruction that another block owns. -/
  | detachedInstruction (inst : InstId)
  /-- A value was taken for the result of a phi and is none. -/
  | notAPhi (value : ValueId)
deriving DecidableEq, Inhabited

/-- The name of the broken rule. -/
def Violation.name : Violation → String
  | missingEntryBlock _ => "MissingEntryBlock"
  | emptyBlock .. => "EmptyBlock"
  | missingTerminator .. => "MissingTerminator"
  | misplacedTerminator .. => "MisplacedTerminator"
  | unknownBlock .. => "UnknownBlock"
  | danglingOperand .. => "DanglingOperand"
  | detachedInstruction _ => "DetachedInstruction"
  | notAPhi _ => "NotAPhi"

/-- The message that tells the broken rule and where it is broken. -/
def Violation.message : Violation → String
  | missingEntryBlock function => "function '" ++ function ++ "' has no entry block"
  | emptyBlock block label => "block " ++ block.text ++ " ('" ++ label ++ "') is empty"
  | missingTerminator block label =>
    "block " ++ block.text ++ " ('" ++ label ++ "') has no terminator"
  | misplacedTerminator block inst =>
    "terminator " ++ inst.text ++ " in the middle of block " ++ block.text
  | unknownBlock block inst target =>
    inst.text ++ " in block " ++ block.text ++ " branches to unknown block " ++ target.text
  | danglingOperand inst value => inst.text ++ " uses dangling value " ++ value.text
  | detachedInstruction inst => inst.text ++ " is not attached to any block"
  | notAPhi value => value.text ++ " is not defined by a phi"

/-- A broken promise of the caller. -/
inductive Fault where
  /-- A handle names a block or an instruction that does not exist. -/
  | outOfBounds
  /-- Dominance was asked of a graph without an entry. -/
  | noEntryBlock
  /-- A search of the dominator computation left the graph or did not come to an end. -/
  | unsettled
  /-- An instruction was added before a block was selected. -/
  | noCurrentBlock
deriving DecidableEq, Inhabited

/-- The message of a fault. -/
def Fault.message : Fault → String
  | outOfBounds => "index out of bounds"
  | noEntryBlock => "dominator tree requires a function with an entry block"
  | unsettled => "dominator computation has no result"
  | noCurrentBlock => "FunctionBuilder: no current block selected"

/-- Why an operation on a function gave no result. -/
inductive Failure where
  /-- A rule of well-formedness is or would be broken. -/
  | violation (v : Violation)
  /-- The caller broke a promise. -/
  | fault (f : Fault)
deriving DecidableEq, Inhabited

end LoopHoist
