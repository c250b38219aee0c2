import LoopHoist.Code.Module
import LoopHoist.Motion.Hoisting

/-!
# The pass over a module

The pass goes through the functions of a module one by one, and none of them matters to another. A
function that is rejected stays as it was and is listed in the report, and its counters are not
added. The report ends with a summary of what the module holds, which is made whether the pass is
active or not.
-/

namespace LoopHoist

/-- A function that the pass rejected, and the rule it breaks. -/
structure Rejection where
  /-- The name of the function. -/
  function : String
  /-- The rule that it breaks. -/
  violation : Violation
deriving DecidableEq, Inhabited

/-- The outcome of the pass over a module. -/
structure Report where
  /-- The counters of all functions that were not rejected, and the summary. -/
  counters : Counters := {}
  /-- The rejected functions, in module order. -/
  failures : List Rejection := []
deriving DecidableEq, Inhabited

/-- Whether no function was rejected. -/
def Report.isClean (r : Report) : Bool := r.failures.isEmpty

namespace HoistResult

/-- The counters that an outcome adds to the report; a rejected function adds none. -/
def gained (r : HoistResult) : Counters :=
  match r.result with
  | .ok c => c
  | .error _ => {}

/-- The entry that an outcome adds to the list of rejected functions. -/
def rejection? (r : HoistResult) : Option Rejection :=
  match r.result with
  | .ok _ => none
  | .error v => some ⟨r.function.name, v⟩

end HoistResult

/-- What one function adds to the summary of a module. -/
def Counters.ofFunction (f : Function) : Counters :=
  let body := f.placed.map (·.2)
  { functions := if f.isDeclaration then 0 else 1
    instructions := UInt64.ofNat body.length
    loads := UInt64.ofNat (body.countP fun i => i.category == .load)
    stores := UInt64.ofNat (body.countP fun i => i.category == .store) }

namespace Module

/-- What the module holds: functions with a body, instructions, loads and stores. -/
def summary (m : Module) : Counters := Counters.sum (m.functions.map Counters.ofFunction)

/-- The pass over the first function of a name: the module after it and the outcome; nothing if
there is no such function. -/
def hoistIn? (m : Module) (settings : Settings) (name : String) :
    Option (Except Fault (Module × Except Violation Counters)) :=
  match m.functions.span fun f => f.name != name with
  | (_, []) => none
  | (before, f :: after) =>
    some ((f.hoistInvariants settings).map fun r =>
      ({ m with functions := before ++ r.function :: after }, r.result))

/-- The pass over every function: the module after it and the report. -/
def hoistInvariants (m : Module) (settings : Settings) : Except Fault (Module × Report) :=
  match m.functions.mapM fun f => f.hoistInvariants settings with
  | .error e => .error e
  | .ok results =>
    -- The summary counts instructions, none of which is lost by moving it.
    let after := { m with functions := results.map (·.function) }
    .ok (after,
      { counters := Counters.sum (results.map (·.gained)) + after.summary
        failures := results.filterMap (·.rejection?) })

end Module

end LoopHoist
