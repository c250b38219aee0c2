import LoopHoist.Code.Handle
import LoopHoist.Text.Shortest

/-!
# Operands

An operand is a value or an immediate. Immediates are kept as bits, so equality of operands is
equality of what is written in the instruction; `Operand.agrees` is the coarser and at the same
time partial equality that compares float immediates as numbers, under which a NaN equals nothing.
-/

namespace LoopHoist

/-- A constant written in an instruction: an integer of some width, or the encoding of a float. -/
inductive Immediate where
  | i8 (value : Int8)
  | i16 (value : Int16)
  | i32 (value : Int32)
  | i64 (value : Int64)
  | f32 (bits : UInt32)
  | f64 (bits : UInt64)
deriving DecidableEq, Inhabited

namespace Immediate

/-- The integer of an integer immediate, extended with its sign. -/
def int? : Immediate → Option Int64
  | i8 n => some n.toInt64
  | i16 n => some n.toInt64
  | i32 n => some n.toInt64
  | i64 n => some n
  | f32 _ | f64 _ => none

/-- The written form: a decimal integer, or the shortest decimal of a float. -/
def text : Immediate → String
  | i8 n => n.toInt.repr
  | i16 n => n.toInt.repr
  | i32 n => n.toInt.repr
  | i64 n => n.toInt.repr
  | f32 bits => BinaryFormat.single.text bits.toNat
  | f64 bits => BinaryFormat.double.text bits.toNat

/-- Equality that compares floats of one width as numbers and all else by content. -/
def agrees : Immediate → Immediate → Bool
  | f32 a, f32 b => BinaryFormat.single.sameNumber a.toNat b.toNat
  | f64 a, f64 b => BinaryFormat.double.sameNumber a.toNat b.toNat
  | a, b => a == b

end Immediate

/-- What an instruction reads: a value or an immediate. -/
inductive Operand where
  | value (v : ValueId)
  | imm (i : Immediate)
deriving DecidableEq, Inhabited

namespace Operand

/-- The value that the operand refers to, if it is not an immediate. -/
def value? : Operand → Option ValueId
  | value v => some v
  | imm _ => none

/-- The integer of an integer immediate; a value and a float have none. -/
def int? : Operand → Option Int64
  | value _ => none
  | imm i => i.int?

/-- The written form of the operand. -/
def text : Operand → String
  | value v => v.text
  | imm i => i.text

/-- Equality that compares float immediates as numbers. -/
def agrees : Operand → Operand → Bool
  | value a, value b => a == b
  | imm a, imm b => a.agrees b
  | _, _ => false

end Operand

end LoopHoist
