/-!
# Types of values

The pass itself never looks at a type; a type matters for the printed form of an instruction, for
the footprint of a memory access and for telling floats and pointers apart.
-/

namespace LoopHoist

/-- The type of a value: an integer of some width, a float of some width, or an address. -/
inductive Ty where
  | i1 | i8 | i16 | i32 | i64 | f32 | f64 | ptr
deriving DecidableEq, Inhabited

namespace Ty

/-- Bytes that a value of the type takes; an address takes eight. -/
def bytes : Ty → Nat
  | i1 | i8 => 1
  | i16 => 2
  | i32 | f32 => 4
  | i64 | f64 | ptr => 8

/-- Whether the type is one of the two float types. -/
def isFloat : Ty → Bool
  | f32 | f64 => true
  | _ => false

/-- Whether the type is the type of addresses. -/
def isPtr : Ty → Bool
  | ptr => true
  | _ => false

/-- The written name of the type. -/
def text : Ty → String
  | i1 => "i1"
  | i8 => "i8"
  | i16 => "i16"
  | i32 => "i32"
  | i64 => "i64"
  | f32 => "f32"
  | f64 => "f64"
  | ptr => "ptr"

/-- All types, in the order of declaration. -/
def all : List Ty := [i1, i8, i16, i32, i64, f32, f64, ptr]

/-- The type written with the given name. -/
def ofText? (s : String) : Option Ty := all.find? fun t => t.text == s

/-- Reading the written name gives the type back. -/
theorem ofText?_text (t : Ty) : ofText? t.text = some t := by cases t <;> rfl

end Ty

end LoopHoist
