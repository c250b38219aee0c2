import Mathlib.Logic.Relation
import LoopHoist.Proofs.Machine.Addresses

/-!
# Runs in which calls write memory

The machine records a call and leaves memory alone. Code that is called may write memory: every
cell of a global, and every cell of a stack object that it knows, because an address of the object
is in memory or was passed to a call (`Machine.Known`). An honest call writes only what it can have:
numbers, addresses of globals, and addresses of stack objects that it knows. One that is not honest
writes any value there is, an address that it makes up among them (`Machine.Overwritten`). A run in
which every call may do so is an `OpenRun`; the runs of the machine itself are among them
(`Reaches.openRun`).

A step of such a run either enters the next block or performs one instruction, after which a call
may have written memory (`OpenStep.cases`). Each of these is a move in the sense of
`Machine.Carries`, so what moves keep is kept by whole runs (`OpenRun.keeps`).
-/

namespace LoopHoist

variable {f : Function} {honest : Prop} {m m' : Machine} {s u : Running}

namespace Machine

/-- Whether code outside the function knows a region. -/
def Known (m : Machine) : MemRegion → Prop
  | .global _ => True
  | .stack k => (∃ p, m.Leads k (.cell p)) ∨ m.Leads k .arg

/-- Whether code outside the function can turn one machine into another. It writes any value into
cells of what it knows; if it is honest, any number and any address of what it knows. -/
structure Overwritten (honest : Prop) (m m' : Machine) : Prop where
  /-- Registers are out of reach. -/
  regs : m'.regs = m.regs
  /-- The record of the calls is out of reach. -/
  calls : m'.calls = m.calls
  /-- No stack objects are made. -/
  nextSlot : m'.nextSlot = m.nextSlot
  /-- A cell stays, or its region is known. -/
  cells : ∀ p, m'.cell p = m.cell p ∨ m.Known p.region
  /-- No address is made up: those in memory are of known regions. -/
  values : honest → ∀ p r, (m'.cell p).region? = some r → m.Known r

/-- An address of a stack object that is known can be passed on. -/
theorem Known.loose {k : Nat} (h : m.Known (.stack k)) : m.Loose f k := by
  rcases h with ⟨p, hp⟩ | harg
  · exact ⟨.cell p, hp, by simp⟩
  · exact ⟨.arg, harg, by simp⟩

/-- The region of an address in memory is known. -/
theorem known_of_cell {p : Address} {r : MemRegion} (h : (m.cell p).region? = some r) :
    m.Known r := by
  cases r with
  | global name => trivial
  | stack k => exact .inl ⟨p, h⟩

/-- One cell is written. -/
theorem Overwritten.setCell {p : Address} {a : Val} (hp : m.Known p.region)
    (ha : honest → ∀ r, a.region? = some r → m.Known r) :
    m.Overwritten honest (m.setCell p a) := by
  refine ⟨rfl, rfl, rfl, fun q => ?_, fun hh q r hr => ?_⟩
  · rw [cell_setCell]
    split
    · next heq => exact .inr (heq ▸ hp)
    · exact .inl rfl
  · rw [cell_setCell] at hr
    split at hr
    · exact ha hh r hr
    · exact known_of_cell hr

/-- Code outside the function does with addresses what a move may do. -/
theorem Overwritten.carries (h : m.Overwritten honest m') : m.Carries f honest none m' where
  nextSlot := h.nextSlot
  leads hh x k hx := by
    cases x with
    | reg v => exact .inl (by rw [Leads, reg?, ← h.regs]; exact hx)
    | cell p => exact .inr (.inl (h.values hh p _ hx).loose)
    | arg => exact .inl (by rw [Leads, ← h.calls]; exact hx)
  slots v _ := by rw [if_neg (by simp), reg?, h.regs, reg?]

end Machine

namespace Running

/-! ## Steps -/

/-- A step of a run in which calls may write memory, honestly or not. -/
inductive OpenStep (f : Function) (honest : Prop) (s : Running) : Running → Prop where
  /-- A step of the machine. -/
  | plain {u : Running} (h : s.step f = .ok u) : OpenStep f honest s u
  /-- A call, after which memory has been written. -/
  | call {i : InstId} {rest : List InstId} {dst : Option ValueId} {callee : String}
    {args : List Operand} {m m' : Machine} {u : Running} (hrest : s.rest = i :: rest)
    (hi : f.inst? i = some (.call dst callee args))
    (hm : s.machine.perform f (.call dst callee args) = .ok m) (hm' : m.Overwritten honest m')
    (hu : { s with rest, machine := m' }.advance f = .ok u) : OpenStep f honest s u

/-- A run in which calls may write memory, honestly or not. -/
def OpenRun (f : Function) (honest : Prop) : Running → Running → Prop :=
  Relation.ReflTransGen (OpenStep f honest)

/-- Every run of the machine is one in which the calls happen to write nothing. -/
theorem Reaches.openRun {k : Nat} (h : Reaches f k s u) : s.OpenRun f honest u := by
  induction h with
  | refl => exact .refl
  | step hs _ ih => exact .head (.plain hs) ih

/-- A step enters the next block or performs an instruction of this one, after which a call may have
written memory. -/
theorem OpenStep.cases (hw : f.WellFormed) (hs : s.Placed f) (h : s.OpenStep f honest u) :
    u.Enters f (some s.block) s.machine ∨ ∃ i instr m, s.Performs f u i instr m ∧
      (u.machine = m ∨ (∃ dst callee args, instr = .call dst callee args) ∧
        m.Overwritten honest u.machine) := by
  cases h with
  | plain h =>
    rcases step_cases hw hs h with ⟨i, instr, -, -, -, -, henters⟩ | ⟨i, instr, hperf⟩
    · exact .inl henters
    · exact .inr ⟨i, instr, u.machine, hperf, .inl rfl⟩
  | @call i rest dst callee args m m' u hrest hi hm hm' hu =>
    obtain ⟨-, before, hl⟩ := hs
    rw [hrest] at hl
    cases rest with
    | nil =>
      -- A call is not the last instruction of a block.
      cases (hw.terminator s.block before i [] _ hl hi).2 rfl
    | cons j rest =>
      obtain rfl := Except.ok.inj hu
      refine .inr ⟨i, _, m, ⟨by rw [hl]; simp, hi, hm, hrest, by simp, rfl⟩, .inr ⟨?_, hm'⟩⟩
      exact ⟨dst, callee, args, rfl⟩

/-! ## Runs -/

/-- Entering a block is a move. -/
theorem Enters.carries (hf : f.WritesOnce) {came : Option BlockId} (h : u.Enters f came m) :
    m.Carries f honest none u.machine := by
  obtain ⟨-, -, vals, hvals, hm⟩ := h
  exact hm ▸ Machine.carries_setPhis hf hvals

/-- What every move keeps is kept by a step, which leads to an instruction again. -/
theorem OpenStep.keeps {P : Machine → Prop} (hw : f.WellFormed) (hf : f.WritesOnce)
    (hP : ∀ made m m', P m → m.Carries f honest made m' → P m') (hs : s.Placed f)
    (h : s.OpenStep f honest u) (hm : P s.machine) : u.Placed f ∧ P u.machine := by
  rcases h.cases hw hs with henters | ⟨i, instr, m, hperf, hmach⟩
  · exact ⟨henters.placed hw, hP _ _ _ hm (henters.carries hf)⟩
  · have hc : s.machine.Carries f honest instr.slot? m := Machine.carries_perform hf
      (Function.mem_placed.2 ⟨⟨_, hperf.mem⟩, hperf.content⟩) hperf.machine
    refine ⟨hperf.placed hs, ?_⟩
    rcases hmach with hmach | ⟨-, hover⟩
    · rw [hmach]
      exact hP _ _ _ hm hc
    · exact hP _ _ _ (hP _ _ _ hm hc) hover.carries

/-- What every move keeps is kept by a run. -/
theorem OpenRun.keeps {P : Machine → Prop} (hw : f.WellFormed) (hf : f.WritesOnce)
    (hP : ∀ made m m', P m → m.Carries f honest made m' → P m') (hs : s.Placed f)
    (h : s.OpenRun f honest u) (hm : P s.machine) : u.Placed f ∧ P u.machine := by
  induction h with
  | refl => exact ⟨hs, hm⟩
  | tail _ hstep ih => exact hstep.keeps hw hf hP ih.1 ih.2

/-- The places that a run starts from. -/
def Starts (f : Function) (module : Module) (args : List Int64) (s : Running) : Prop :=
  ∃ e, f.entry = some e ∧ enter f none e (Machine.start module f args) = .ok s

/-- A run starts at an instruction, with its objects in order. -/
theorem Starts.spec (hw : f.WellFormed) (hf : f.WritesOnce) {module : Module} {args : List Int64}
    (h : s.Starts f module args) : s.Placed f ∧ s.machine.Orderly f honest := by
  obtain ⟨e, he, henter⟩ := h
  obtain ⟨e', he', hb⟩ := hw.entry
  obtain rfl := Option.some.inj (he.symm.trans he')
  obtain ⟨-, henters⟩ := enters_of_enter hw hb henter
  exact ⟨henters.placed hw, (Machine.orderly_start module f args).carries (henters.carries hf)⟩

end Running

end LoopHoist
