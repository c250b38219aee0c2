import LoopHoist.Code.Edit
import LoopHoist.Code.WellFormed
import LoopHoist.Flow.Analysis
import LoopHoist.Motion.Counters
import LoopHoist.Motion.Invariance
import LoopHoist.Motion.Maturity

/-!
# Loop-invariant code motion

The pass goes through the loops of a function, inner loops first, and moves what is invariant in a
loop to just before the terminator of its preheader. Within a loop the candidates are the
instructions of its blocks in reverse postorder, so a definition comes before its uses and one round
is enough; what an inner loop gives up lands in a block of the outer loop and is a candidate there.

A function that is not well-formed is rejected before anything moves, and one that fails on the way
or at the final check is given back as it was. `HoistResult.moves` lists the relocations in the
order in which they were made.
-/

namespace LoopHoist

/-- One relocation: an instruction left a loop for its preheader. -/
structure Relocation where
  /-- The instruction. -/
  inst : InstId
  /-- What it was hoisted as. -/
  kind : HoistKind
  /-- The loop that it left. -/
  loop : LoopId
  /-- The preheader of that loop. -/
  preheader : BlockId
deriving DecidableEq, Inhabited

/-- A function on its way through the pass. -/
structure Hoisting where
  /-- The function so far. -/
  function : Function
  /-- The counters so far. -/
  counters : Counters := {}
  /-- The relocations so far, the last one first. -/
  moves : List Relocation := []
deriving DecidableEq, Inhabited

/-- The outcome of the pass. -/
structure HoistResult where
  /-- The function after the pass. -/
  function : Function
  /-- The counters, or the broken rule for which the function was rejected. -/
  result : Except Violation Counters
  /-- The relocations made, in order; none for a rejected function. -/
  moves : List Relocation := []
deriving Inhabited

namespace Counters

/-- What one loop adds to the counters, by its memory behaviour. -/
def ofLoop (m : LoopMemory) : Counters :=
  { numLoops := 1
    loopsNoStore := if m.hasStore then 0 else 1
    loopsNoStoreWithLoad := if !m.hasStore && m.hasLoad then 1 else 0
    loopsNoLoad := if m.hasLoad then 0 else 1
    loopsWithCall := if m.hasCall then 1 else 0 }

/-- What one relocation adds to the counters. -/
def ofHoist : HoistKind → Counters
  | .ordinary => { basicHoisted := 1 }
  | .load => { loadsHoisted := 1 }

end Counters

namespace Hoisting

/-- One candidate: if it may be hoisted now it is moved to the preheader and marked. -/
def tryHoist (i : LoopId) (preheader : BlockId) (st : Hoisting × LoopState) (inst : InstId) :
    Except Failure (Hoisting × LoopState) :=
  match st.2.verdict st.1.function inst with
  | .error e => .error (.fault e)
  | .ok (.error _) => .ok st
  | .ok (.ok kind) =>
    match st.1.function.move inst preheader with
    | .error e => .error e
    | .ok g =>
      .ok ({ function := g
             counters := st.1.counters + .ofHoist kind
             moves := { inst, kind, loop := i, preheader } :: st.1.moves },
           st.2.mark inst)

/-- The candidates of a loop: the instructions of its blocks, the blocks in the given order. -/
def candidates (f : Function) (order : List BlockId) (l : Loop) : List InstId :=
  (order.filter l.contains).flatMap f.instsOf

/-- The same candidates, the blocks being looked up. -/
def candidatesAt (f : Function) (order : List BlockId) (l : Loop) : Except Fault (List InstId) := do
  return (← (order.filter l.contains).mapM f.blockAt).flatMap Block.insts

/-- One loop: it is counted, and if it has a preheader each candidate is tried once. -/
def processLoop (a : Analysis) (settings : Settings) (h : Hoisting) (i : LoopId) :
    Except Failure Hoisting := do
  let l ← (a.forest.loopAt i).mapError .fault
  -- The memory behaviour and the candidates are those before anything leaves the loop.
  let state ← (LoopState.startAt h.function a.slots settings l).mapError .fault
  let counted := { h with counters := h.counters + .ofLoop state.memory }
  match l.preheader with
  | none => return { counted with counters := counted.counters + { noPreheader := 1 } }
  | some preheader =>
    let xs ← (candidatesAt h.function a.dominators.order l).mapError .fault
    return (← xs.foldlM (tryHoist i preheader) (counted, state)).1

/-- All loops of the function, inner loops first. -/
def processAll (a : Analysis) (settings : Settings) (f : Function) : Except Failure Hoisting :=
  a.forest.postorder.foldlM (processLoop a settings) { function := f }

end Hoisting

namespace Function

/-- The outcome of a run over an analysed function: the transformed function if every relocation
succeeded and, where the settings ask for it, the result is well-formed; else the function as it
was. -/
def commit (f : Function) (settings : Settings) :
    Except Failure Hoisting → Except Fault HoistResult
  | .error (.fault e) => .error e
  | .error (.violation v) => .ok { function := f, result := .error v }
  | .ok h =>
    match if settings.verify then h.function.violation? else none with
    | some v => .ok { function := f, result := .error v }
    | none => .ok { function := h.function, result := .ok h.counters, moves := h.moves.reverse }

/-- The pass over one function. A declaration and an inactive pass give the function back with all
counters zero. -/
def hoistInvariants (f : Function) (settings : Settings) : Except Fault HoistResult :=
  if f.isDeclaration || !settings.isActive then .ok { function := f, result := .ok {} }
  else
    match f.violation? with
    | some v => .ok { function := f, result := .error v }
    | none =>
      match f.analyze with
      | .error e => .error e
      | .ok a => f.commit settings (Hoisting.processAll a settings f)

end Function

end LoopHoist
