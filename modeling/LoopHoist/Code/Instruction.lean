import LoopHoist.Code.Operand
import LoopHoist.Code.Ty

/-!
# Instructions

An instruction computes a value from operands (`Computation`), makes or accesses memory, calls,
or ends a block. `category` is the side-effect class on which code motion decides: only an
`ordinary` instruction is pure and cannot trap. A division is ordinary exactly when its divisor is
an integer immediate that excludes every trap (`IntOp.safeDivisor`).
-/

namespace LoopHoist

/-! ## Operators -/

/-- Integer operators. Division, remainder and right shift come signed and unsigned. -/
inductive IntOp where
  | add | sub | mul | udiv | sdiv | urem | srem | and | or | xor | shl | lshr | ashr
deriving DecidableEq, Inhabited

/-- Float operators. -/
inductive FloatOp where
  | add | sub | mul | div
deriving DecidableEq, Inhabited

/-- Integer comparisons; the ordered ones come signed and unsigned. -/
inductive Comparison where
  | eq | ne | ult | ule | ugt | uge | slt | sle | sgt | sge
deriving DecidableEq, Inhabited

namespace IntOp

/-- Whether the operator is a division or a remainder, which trap on a zero divisor. -/
def canTrap : IntOp → Bool
  | udiv | sdiv | urem | srem => true
  | _ => false

/-- Whether the operator is a signed division or remainder, which overflows on a divisor of minus
one. -/
def isSignedDivision : IntOp → Bool
  | sdiv | srem => true
  | _ => false

/-- Whether dividing by the operand cannot trap, whatever is divided: the divisor is an integer
immediate, not zero, and for a signed division not minus one. -/
def safeDivisor (op : IntOp) (divisor : Operand) : Bool :=
  match divisor.int? with
  | some n => n != 0 && !(op.isSignedDivision && n == -1)
  | none => false

/-- The written name of the operator. -/
def text : IntOp → String
  | add => "add"
  | sub => "sub"
  | mul => "mul"
  | udiv => "udiv"
  | sdiv => "sdiv"
  | urem => "urem"
  | srem => "srem"
  | and => "and"
  | or => "or"
  | xor => "xor"
  | shl => "shl"
  | lshr => "lshr"
  | ashr => "ashr"

/-- All integer operators, in the order of declaration. -/
def all : List IntOp := [add, sub, mul, udiv, sdiv, urem, srem, and, or, xor, shl, lshr, ashr]

/-- The operator written with the given name. -/
def ofText? (s : String) : Option IntOp := all.find? fun op => op.text == s

/-- Reading the written name gives the operator back. -/
theorem ofText?_text (op : IntOp) : ofText? op.text = some op := by cases op <;> rfl

end IntOp

namespace FloatOp

/-- The written name of the operator. -/
def text : FloatOp → String
  | add => "fadd"
  | sub => "fsub"
  | mul => "fmul"
  | div => "fdiv"

/-- All float operators, in the order of declaration. -/
def all : List FloatOp := [add, sub, mul, div]

/-- The operator written with the given name. -/
def ofText? (s : String) : Option FloatOp := all.find? fun op => op.text == s

/-- Reading the written name gives the operator back. -/
theorem ofText?_text (op : FloatOp) : ofText? op.text = some op := by cases op <;> rfl

end FloatOp

namespace Comparison

/-- The written name of the comparison. -/
def text : Comparison → String
  | eq => "eq"
  | ne => "ne"
  | ult => "ult"
  | ule => "ule"
  | ugt => "ugt"
  | uge => "uge"
  | slt => "slt"
  | sle => "sle"
  | sgt => "sgt"
  | sge => "sge"

/-- All comparisons, in the order of declaration. -/
def all : List Comparison := [eq, ne, ult, ule, ugt, uge, slt, sle, sgt, sge]

/-- The comparison written with the given name. -/
def ofText? (s : String) : Option Comparison := all.find? fun op => op.text == s

/-- Reading the written name gives the comparison back. -/
theorem ofText?_text (op : Comparison) : ofText? op.text = some op := by cases op <;> rfl

end Comparison

/-! ## The instruction type -/

/-- How a load or a store accesses memory. -/
structure Access where
  /-- The promised alignment in bytes. -/
  align : UInt8 := 1
  /-- Whether the access must stay as it is. -/
  isVolatile : Bool := false
deriving DecidableEq, Inhabited

/-- A computation of one value from operands, with no other effect. -/
inductive Computation where
  /-- An integer operator. -/
  | int (op : IntOp) (ty : Ty) (lhs rhs : Operand)
  /-- A float operator. -/
  | float (op : FloatOp) (ty : Ty) (lhs rhs : Operand)
  /-- One or zero, as an integer comparison holds or not. -/
  | compare (op : Comparison) (ty : Ty) (lhs rhs : Operand)
  /-- The first of two operands if the condition is not zero, else the second. -/
  | select (ty : Ty) (cond ifTrue ifFalse : Operand)
  /-- The operand itself. -/
  | copy (ty : Ty) (src : Operand)
  /-- The address a number of bytes after a base address. -/
  | lea (base offset : Operand)
deriving DecidableEq, Inhabited

/-- An instruction. The last four kinds are the terminators. -/
inductive Instruction where
  /-- Writes the result of a computation. -/
  | compute (dst : ValueId) (c : Computation)
  /-- Writes the address of a fresh stack slot for one value. -/
  | alloca (dst : ValueId) (ty : Ty)
  /-- Writes the operand listed for the block that control came from. -/
  | phi (dst : ValueId) (ty : Ty) (incoming : List (BlockId × Operand))
  /-- Writes what memory holds at an address. -/
  | load (dst : ValueId) (ty : Ty) (addr : Operand) (access : Access)
  /-- Puts an operand into memory at an address. -/
  | store (ty : Ty) (src addr : Operand) (access : Access)
  /-- Calls something outside, and writes its result if it has one. -/
  | call (dst : Option ValueId) (callee : String) (args : List Operand)
  /-- Goes to a block. -/
  | jump (target : BlockId)
  /-- Goes to the first block if the condition is not zero, else to the second. -/
  | branch (cond : Operand) (ifTrue ifFalse : BlockId)
  /-- Leaves the function, with a result or without. -/
  | ret (result : Option Operand)
  /-- Is never executed. -/
  | unreachable
deriving DecidableEq, Inhabited

/-- The side-effect class of an instruction. `other` holds what is neither pure nor a memory access,
a call or a terminator: stack slots, phis, and arithmetic that may trap. -/
inductive Category where
  | ordinary | load | store | call | terminator | other
deriving DecidableEq, Inhabited

/-- The written name of the class. -/
def Category.text : Category → String
  | ordinary => "Ordinary"
  | load => "Load"
  | store => "Store"
  | call => "Call"
  | terminator => "Terminator"
  | other => "Other"

namespace Computation

/-- The operands in the order in which they are written. -/
def operands : Computation → List Operand
  | int _ _ lhs rhs | float _ _ lhs rhs | compare _ _ lhs rhs => [lhs, rhs]
  | select _ cond ifTrue ifFalse => [cond, ifTrue, ifFalse]
  | copy _ src => [src]
  | lea base offset => [base, offset]

/-- Whether the computation can never trap on operands of its kinds. -/
def isTotal : Computation → Bool
  | int op _ _ rhs => !op.canTrap || op.safeDivisor rhs
  | _ => true

end Computation

namespace Instruction

/-- The value that the instruction writes, if any. -/
def def? : Instruction → Option ValueId
  | compute dst _ | alloca dst _ | phi dst _ _ | load dst _ _ _ => some dst
  | call dst _ _ => dst
  | store .. | jump _ | branch .. | ret _ | unreachable => none

/-- The operands in the order in which they are written. -/
def operands : Instruction → List Operand
  | compute _ c => c.operands
  | alloca _ _ => []
  | phi _ _ incoming => incoming.map (·.2)
  | load _ _ addr _ => [addr]
  | store _ src addr _ => [src, addr]
  | call _ _ args => args
  | branch cond _ _ => [cond]
  | ret result => result.toList
  | jump _ | unreachable => []

/-- The values among the operands, in order. -/
def usedValues (i : Instruction) : List ValueId := i.operands.filterMap Operand.value?

/-- A value that is an operand is used. -/
theorem mem_usedValues {i : Instruction} {o : Operand} {v : ValueId} (ho : o ∈ i.operands)
    (hv : o = .value v) : v ∈ i.usedValues :=
  List.mem_filterMap.2 ⟨o, ho, by rw [hv]; rfl⟩

/-- The blocks that the instruction may pass control to, each once. -/
def successors : Instruction → List BlockId
  | jump target => [target]
  | branch _ ifTrue ifFalse => if ifTrue = ifFalse then [ifTrue] else [ifTrue, ifFalse]
  | _ => []

/-- Whether the instruction ends a block. -/
def isTerminator : Instruction → Bool
  | jump _ | branch .. | ret _ | unreachable => true
  | _ => false

/-- Whether the instruction is a load or a store marked volatile. -/
def isVolatile : Instruction → Bool
  | load _ _ _ access | store _ _ _ access => access.isVolatile
  | _ => false

/-- The side-effect class of the instruction. -/
def category : Instruction → Category
  | compute _ c => if c.isTotal then .ordinary else .other
  | alloca .. | phi .. => .other
  | load .. => .load
  | store .. => .store
  | call .. => .call
  | jump _ | branch .. | ret _ | unreachable => .terminator

/-- The blocks that the instruction names: the targets of a terminator, the incoming blocks of a
phi. -/
def namedBlocks : Instruction → List BlockId
  | phi _ _ incoming => incoming.map (·.1)
  | i => i.successors

/-- A terminator is exactly an instruction of the terminator class. -/
theorem category_eq_terminator_iff (i : Instruction) :
    i.category = .terminator ↔ i.isTerminator = true := by
  cases i <;> simp only [category, isTerminator] <;> (try split) <;> simp

/-- Only a terminator has successors. -/
theorem successors_eq_nil {i : Instruction} (h : i.isTerminator = false) : i.successors = [] := by
  cases i <;> simp_all [isTerminator, successors]

/-- A terminator defines nothing. -/
theorem def?_eq_none {i : Instruction} (h : i.isTerminator = true) : i.def? = none := by
  cases i <;> simp_all [isTerminator, def?]

/-- No successor is listed twice. -/
theorem successors_nodup (i : Instruction) : i.successors.Nodup := by
  cases i <;> simp only [successors] <;> (try split) <;> simp_all

end Instruction

/-! ## Agreement

Equality of instructions that compares float immediates as numbers. -/

/-- Whether two lists have one length and agree place by place. -/
def listAgrees {α : Type} (same : α → α → Bool) : List α → List α → Bool
  | [], [] => true
  | a :: as, b :: bs => same a b && listAgrees same as bs
  | _, _ => false

/-- Agreement of computations: equal but for floats, which are compared as numbers. -/
def Computation.agrees : Computation → Computation → Bool
  | int op ty a b, int op' ty' a' b' => op == op' && ty == ty' && a.agrees a' && b.agrees b'
  | float op ty a b, float op' ty' a' b' => op == op' && ty == ty' && a.agrees a' && b.agrees b'
  | compare op ty a b, compare op' ty' a' b' =>
    op == op' && ty == ty' && a.agrees a' && b.agrees b'
  | select ty c a b, select ty' c' a' b' => ty == ty' && c.agrees c' && a.agrees a' && b.agrees b'
  | copy ty a, copy ty' a' => ty == ty' && a.agrees a'
  | lea a b, lea a' b' => a.agrees a' && b.agrees b'
  | _, _ => false

/-- Agreement of instructions: equal but for floats, which are compared as numbers. -/
def Instruction.agrees : Instruction → Instruction → Bool
  | compute dst c, compute dst' c' => dst == dst' && c.agrees c'
  | phi dst ty ins, phi dst' ty' ins' =>
    dst == dst' && ty == ty' &&
      listAgrees (fun p p' => p.1 == p'.1 && p.2.agrees p'.2) ins ins'
  | load dst ty addr access, load dst' ty' addr' access' =>
    dst == dst' && ty == ty' && addr.agrees addr' && access == access'
  | store ty src addr access, store ty' src' addr' access' =>
    ty == ty' && src.agrees src' && addr.agrees addr' && access == access'
  | call dst callee args, call dst' callee' args' =>
    dst == dst' && callee == callee' && listAgrees Operand.agrees args args'
  | branch cond t f, branch cond' t' f' => cond.agrees cond' && t == t' && f == f'
  | ret (some a), ret (some a') => a.agrees a'
  | a, b => a == b

/-! ## Text -/

/-- The text of the access attributes. -/
def Access.text (a : Access) : String :=
  "\x7balign=" ++ a.align.toNat.repr ++ ", volatile=" ++ (if a.isVolatile then "true" else "false")
    ++ "\x7d"

/-- The text of a computation that writes `dst`. -/
def Computation.text (dst : ValueId) (c : Computation) : String :=
  let operands := ", ".intercalate (c.operands.map Operand.text)
  let name := match c with
    | int op ty _ _ => op.text ++ "." ++ ty.text
    | float op ty _ _ => op.text ++ "." ++ ty.text
    | compare op ty _ _ => "cmp." ++ op.text ++ "." ++ ty.text
    | select ty _ _ _ => "select." ++ ty.text
    | copy ty _ => "mov." ++ ty.text
    | lea _ _ => "lea"
  dst.text ++ " = " ++ name ++ " " ++ operands

/-- The text of one incoming edge of a phi. -/
def incomingText (p : BlockId × Operand) : String := "[" ++ p.2.text ++ ", " ++ p.1.text ++ "]"

/-- The text of an instruction. -/
def Instruction.text : Instruction → String
  | compute dst c => c.text dst
  | alloca dst ty => dst.text ++ " = alloca." ++ ty.text
  | phi dst ty incoming =>
    dst.text ++ " = phi." ++ ty.text ++ (if incoming.isEmpty then "" else " ") ++
      ", ".intercalate (incoming.map incomingText)
  | load dst ty addr access =>
    dst.text ++ " = ld." ++ ty.text ++ " [" ++ addr.text ++ "] " ++ access.text
  | store ty src addr access =>
    "st." ++ ty.text ++ " " ++ src.text ++ ", [" ++ addr.text ++ "] " ++ access.text
  | call dst callee args =>
    (match dst with | some v => v.text ++ " = " | none => "") ++ "call @" ++ callee ++ "(" ++
      ", ".intercalate (args.map Operand.text) ++ ")"
  | jump target => "jmp " ++ target.text
  | branch cond ifTrue ifFalse =>
    "br " ++ cond.text ++ ", " ++ ifTrue.text ++ ", " ++ ifFalse.text
  | ret (some a) => "ret " ++ a.text
  | ret none => "ret"
  | unreachable => "unreachable"

end LoopHoist
