import LoopHoist.Machine.Value

/-!
# Arithmetic of the machine

Integers have 64 bits whatever the written type: sums and products wrap, shifts take the amount
modulo 64, and division truncates, with the one overflow wrapping too. Only a zero divisor has no
result (`IntOp.result?_eq_none_iff`). Floats are computed in the 64-bit format.

`Computation.eval` computes the result of a computation from the values of its operands, and traps
on one of the wrong kind.
-/

namespace LoopHoist

/-- The result of an integer operator; none for a division by zero. -/
def IntOp.result? (op : IntOp) (a b : Int64) : Option Int64 :=
  if op.canTrap && b == 0 then none
  -- Division rounds toward zero; the least integer divided by minus one is itself.
  else some <| match op with
    | add => a + b
    | sub => a - b
    | mul => a * b
    | udiv => (a.toUInt64 / b.toUInt64).toInt64
    | sdiv => a / b
    | urem => (a.toUInt64 % b.toUInt64).toInt64
    | srem => a % b
    | and => a &&& b
    | or => a ||| b
    | xor => a ^^^ b
    -- Only the low six bits of the amount count.
    | shl => a <<< (b &&& 63)
    | lshr => (a.toUInt64 >>> (b &&& 63).toUInt64).toInt64
    | ashr => a >>> (b &&& 63)

/-- An integer operator has no result exactly for a division by zero. -/
theorem IntOp.result?_eq_none_iff (op : IntOp) (a b : Int64) :
    op.result? a b = none ↔ op.canTrap = true ∧ b = 0 := by
  unfold result?
  split <;> simp_all

/-- Whether a comparison holds; the unsigned ones compare the operands as natural numbers. -/
def Comparison.holds (op : Comparison) (a b : Int64) : Bool :=
  match op with
  | eq => a == b
  | ne => a != b
  | ult => a.toUInt64 < b.toUInt64
  | ule => a.toUInt64 ≤ b.toUInt64
  | ugt => b.toUInt64 < a.toUInt64
  | uge => b.toUInt64 ≤ a.toUInt64
  | slt => a < b
  | sle => a ≤ b
  | sgt => b < a
  | sge => b ≤ a

/-- The result of a float operator on encodings. -/
def FloatOp.apply (op : FloatOp) (a b : UInt64) : UInt64 :=
  let x := Float.ofBits a
  let y := Float.ofBits b
  match op with
  | add => (x + y).toBits
  | sub => (x - y).toBits
  | mul => (x * y).toBits
  | div => (x / y).toBits

/-- The encoding in the 64-bit format of a float of the 32-bit format. -/
def widen (bits : UInt32) : UInt64 := (Float32.ofBits bits).toFloat.toBits

/-- The value of an immediate. -/
def Immediate.val : Immediate → Val
  | i8 n => .int n.toInt64
  | i16 n => .int n.toInt64
  | i32 n => .int n.toInt64
  | i64 n => .int n
  | f32 bits => .float (widen bits)
  | f64 bits => .float bits

namespace Val

/-- The integer, where one is required. -/
def asInt : Val → Except Trap Int64
  | int n => .ok n
  | _ => .error .typeMismatch

/-- The encoding of the float, where one is required. -/
def asFloat : Val → Except Trap UInt64
  | float bits => .ok bits
  | _ => .error .typeMismatch

/-- The address, where one is required. -/
def asAddress : Val → Except Trap Address
  | ptr a => .ok a
  | _ => .error .typeMismatch

/-- The value as a term of the result of a call: an integer counts itself, anything else nothing. -/
def term : Val → Int64
  | int n => n
  | _ => 0

end Val

/-- The value of a computation, `get` giving the values of operands. Operands are read from left to
right; a selection reads its condition and then only the operand it selects. -/
def Computation.eval (get : Operand → Except Trap Val) : Computation → Except Trap Val
  | int op _ lhs rhs => do
    let a ← (← get lhs).asInt
    let b ← (← get rhs).asInt
    match op.result? a b with
    | some n => .ok (.int n)
    | none => .error .divideByZero
  | float op _ lhs rhs => do
    let a ← (← get lhs).asFloat
    let b ← (← get rhs).asFloat
    return .float (op.apply a b)
  | compare op _ lhs rhs => do
    let a ← (← get lhs).asInt
    let b ← (← get rhs).asInt
    return .int (if op.holds a b then 1 else 0)
  | select _ cond ifTrue ifFalse => do
    let c ← (← get cond).asInt
    if c != 0 then get ifTrue else get ifFalse
  | copy _ src => get src
  | lea base offset => do
    let a ← (← get base).asAddress
    let delta ← (← get offset).asInt
    return .ptr (a.advance delta)

end LoopHoist
