import LoopHoist.Code.WellFormed
import Std.Data.TreeMap

/-!
# Modules

A module is a list of functions and the globals that they may address. Names need not be unique: a
look-up finds the first function or global of a name, while of two initial values for one name the
later counts.
-/

namespace LoopHoist

/-- A global variable; without an initial value it starts at zero. -/
structure Global where
  /-- The name by which functions refer to it. -/
  name : String
  /-- The type of its value. -/
  ty : Ty
  /-- The initial value. -/
  init : Option Int64 := none
deriving DecidableEq, Inhabited

/-- A named collection of functions and globals. -/
structure Module where
  /-- The name of the module. -/
  name : String
  /-- The functions in the order of declaration. -/
  functions : List Function := []
  /-- The globals in the order of declaration. -/
  globals : List Global := []
deriving DecidableEq, Inhabited

/-- The text of a global. -/
def Global.text (g : Global) : String :=
  "global @" ++ g.name ++ ": " ++ g.ty.text ++
    (match g.init with | some n => " = " ++ n.toInt.repr | none => "") ++ "\n"

namespace Module

/-- The first function of a name. -/
def function? (m : Module) (name : String) : Option Function :=
  m.functions.find? fun f => f.name == name

/-- The first global of a name. -/
def global? (m : Module) (name : String) : Option Global :=
  m.globals.find? fun g => g.name == name

/-- The module with a function added at the end. -/
def addFunction (m : Module) (f : Function) : Module := { m with functions := m.functions ++ [f] }

/-- The module with a global added at the end. -/
def addGlobal (m : Module) (g : Global) : Module := { m with globals := m.globals ++ [g] }

/-- The number of instructions in the blocks of all functions. -/
def instructionCount (m : Module) : Nat :=
  m.functions.foldr (fun f n => f.instructionCount + n) 0

/-- The first broken rule in a function with a body. -/
def violation? (m : Module) : Option Violation :=
  (m.functions.filter fun f => !f.isDeclaration).findSome? Function.violation?

/-- The check of all functions with a body: nothing, or the first broken rule. -/
def validate (m : Module) : Except Violation Unit :=
  match m.violation? with
  | some v => .error v
  | none => .ok ()

/-- The initial values of the globals by name; of two globals of one name the later counts. -/
def initialValues (m : Module) : Std.TreeMap String Int64 :=
  m.globals.foldl (fun t g => t.insert g.name (g.init.getD 0)) {}

/-- The text of the module: its globals, then its functions. -/
def text (m : Module) : String :=
  "; module " ++ m.name ++ "\n" ++ String.join (m.globals.map Global.text) ++
    String.join (m.functions.map fun f => "\n" ++ f.text ++ "\n")

end Module

end LoopHoist
