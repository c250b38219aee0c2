import LoopHoist.Motion.Report
import LoopHoist.Proofs.Motion.Layout
import LoopHoist.Proofs.Motion.Outcome
import LoopHoist.Proofs.Motion.Turns

/-!
# The pass over a module

The pass over a module is the pass over each of its functions alone, collected in order
(`mapM_eq_ok`). How each of these runs ends is known (`HoistOutcome`), and with it who is listed
as rejected (`HoistOutcome.rejection?_eq`). The summary at the end is made of the functions after
the pass, but it counts what is placed, and a run loses, doubles or changes no instruction
(`HoistOutcome.ofFunction_eq`); so it is the summary of the module before the pass, which counts its
functions, instructions, loads and stores (`Module.counted_summary`). Counters wrap when they are
added, so as numbers they add up as long as the sum fits (`toNat_sum`).
-/

namespace LoopHoist

variable {f g : Function} {settings : Settings} {r : HoistResult} {m : Module}

/-! ## Reading counters -/

namespace Counters

/-- The counter of a reported name; any other name counts nothing. -/
def get (c : Counters) (name : String) : UInt64 := (c.entries.lookup name).getD 0

/-- Each counter of a sum is the sum of the counters. -/
@[simp] theorem get_add (c d : Counters) (name : String) : (c + d).get name = c.get name + d.get name := by
  show (add c d).get name = _
  simp only [get, entries, List.lookup_cons, List.lookup_nil, add]
  repeat' split
  all_goals rfl

/-- When nothing is counted every counter is zero. -/
@[simp] theorem get_zero (name : String) : (0 : Counters).get name = 0 := by
  show (({} : Counters).entries.lookup name).getD 0 = 0
  simp only [entries, List.lookup_cons, List.lookup_nil]
  repeat' split
  all_goals rfl

/-- Each counter of the sum of a list is the sum of the counters. -/
theorem get_sum (cs : List Counters) (name : String) :
    (sum cs).get name = (cs.map (·.get name)).sum := by
  have hsum : sum cs = cs.sum := by
    rw [List.sum_eq_foldl]
    rfl
  rw [hsum]
  clear hsum
  induction cs with
  | nil => exact get_zero name
  | cons c cs ih => rw [List.sum_cons, List.map_cons, List.sum_cons, get_add, ih]

end Counters

/-- A sum of words is the word of the sum. -/
theorem sum_ofNat (ns : List Nat) : (ns.map UInt64.ofNat).sum = .ofNat ns.sum := by
  induction ns with
  | nil => rfl
  | cons n ns ih => rw [List.map_cons, List.sum_cons, List.sum_cons, UInt64.ofNat_add, ih]

/-- As a number a sum of words is the sum of the numbers, if that is small enough. -/
theorem toNat_sum {us : List UInt64} (h : (us.map (·.toNat)).sum < UInt64.size) :
    us.sum.toNat = (us.map (·.toNat)).sum := by
  have hsum : us.sum = .ofNat (us.map (·.toNat)).sum := by
    simp [← sum_ofNat, Function.comp_def]
  rw [hsum, UInt64.toNat_ofNat_of_lt' h]

/-! ## What the summary counts -/

namespace Function

/-- The number of instructions of a class that the blocks of a function list. -/
def occurrences (f : Function) (c : Category) : Nat :=
  (f.blockIds.flatMap f.instsOf).countP fun i => (f.inst? i).any (·.category == c)

/-- What the blocks list in program order is the layout. -/
theorem map_instsOf_blockIds (f : Function) : f.blockIds.map f.instsOf = f.layout := by
  rw [blockIds, layout, List.map_map]
  refine List.ext_getElem (by simp) fun n hn hm => ?_
  simp only [List.length_map, Array.length_toList] at hm
  simp [instsOf, block?, hm]

/-- Counting the placed instructions of a class is counting those that blocks list. -/
theorem countP_placed (f : Function) (c : Category) :
    (f.placed.map (·.2)).countP (·.category == c) = f.occurrences c := by
  rw [occurrences, placed, List.countP_map, List.countP_flatMap, List.countP_flatMap]
  refine congrArg List.sum (List.map_congr_left fun b _ => ?_)
  simp only [Function.comp_apply, placedIn, List.countP_filterMap]
  refine List.countP_congr fun i _ => ?_
  cases f.inst? i <;> simp

/-- In a coherent function all that blocks list is placed. -/
theorem Coherent.length_placed (hc : f.Coherent) : f.placed.length = f.instructionCount := by
  have hin : ∀ b, (f.placedIn b).length = (f.instsOf b).length := fun b => by
    rw [placedIn, List.length_filterMap_eq_countP, List.countP_eq_length]
    intro i hi
    have hinst := isSome_owner?_iff.symm.trans (congrArg Option.isSome ((hc.mem_iff i b).1 hi))
    simpa using hinst
  rw [instructionCount, placed, List.length_flatMap, List.flatMap_def, ← layout,
    ← map_instsOf_blockIds, List.length_flatten, List.map_map]
  exact congrArg List.sum (List.map_congr_left fun b _ => hin b)

end Function

/-- A function adds to the summary of a module in four counters only. -/
theorem Counters.get_ofFunction_of_not_mem (f : Function) {name : String}
    (h : name ∉ ["Functions", "Instructions", "Loads", "Stores"]) :
    (Counters.ofFunction f).get name = 0 := by
  simp only [List.mem_cons, List.not_mem_nil, or_false, not_or] at h
  obtain ⟨hfunctions, hinstructions, hloads, hstores⟩ := h
  simp only [Counters.get, entries, List.lookup_cons, List.lookup_nil, ofFunction,
    beq_false_of_ne hfunctions, beq_false_of_ne hinstructions, beq_false_of_ne hloads,
    beq_false_of_ne hstores]
  repeat' split
  all_goals rfl

namespace Module

/-- Whether counters are those of what a module holds, as words. -/
structure Counted (m : Module) (c : Counters) : Prop where
  /-- The functions that have a body are counted. -/
  functions : c.functions = .ofNat (m.functions.countP fun f => !f.isDeclaration)
  /-- The instructions that blocks list are counted. -/
  instructions : c.instructions = .ofNat m.instructionCount
  /-- The loads among them are counted. -/
  loads : c.loads = .ofNat (m.functions.map (·.occurrences .load)).sum
  /-- The stores among them are counted. -/
  stores : c.stores = .ofNat (m.functions.map (·.occurrences .store)).sum
  /-- Nothing else is counted. -/
  rest : ∀ name, name ∉ ["Functions", "Instructions", "Loads", "Stores"] → c.get name = 0

/-- A counter of the summary is the sum of what the functions add to it. -/
theorem get_summary {name : String} {k : Function → Nat}
    (h : ∀ f ∈ m.functions, (Counters.ofFunction f).get name = .ofNat (k f)) :
    m.summary.get name = .ofNat (m.functions.map k).sum := by
  rw [summary, Counters.get_sum, List.map_map, ← sum_ofNat, List.map_map]
  exact congrArg List.sum (List.map_congr_left h)

/-- The summary of a module counts what the module holds. -/
theorem counted_summary (hm : ∀ f ∈ m.functions, f.Coherent) : m.Counted m.summary where
  functions := by
    have hsum : (m.functions.map fun f => if f.isDeclaration then 0 else 1).sum =
        m.functions.countP fun f => !f.isDeclaration := by
      induction m.functions with
      | nil => rfl
      | cons f fs ih =>
        rw [List.map_cons, List.sum_cons, ih, List.countP_cons]
        cases f.isDeclaration <;> simp [Nat.add_comm]
    rw [← hsum]
    show m.summary.get "Functions" = _
    refine get_summary fun f _ => ?_
    show (if f.isDeclaration then (0 : UInt64) else 1) = _
    split <;> rfl
  instructions := by
    rw [instructionCount, ← List.foldr_map (f := Function.instructionCount) (g := (· + ·)),
      ← List.sum_eq_foldr]
    show m.summary.get "Instructions" = _
    refine get_summary fun f hf => ?_
    show UInt64.ofNat (f.placed.map (·.2)).length = _
    rw [List.length_map, (hm f hf).length_placed]
  loads := by
    show m.summary.get "Loads" = _
    exact get_summary fun f _ => congrArg UInt64.ofNat (f.countP_placed .load)
  stores := by
    show m.summary.get "Stores" = _
    exact get_summary fun f _ => congrArg UInt64.ofNat (f.countP_placed .store)
  rest name h := by
    rw [get_summary (k := fun _ => 0) fun f _ => Counters.get_ofFunction_of_not_mem f h]
    simp

end Module

/-! ## What a run leaves of a function -/

/-- The entry of a function in the list of rejected ones, if the pass looks at it and the check
finds something broken. -/
def Function.rejection? (f : Function) (settings : Settings) : Option Rejection :=
  match f.validate with
  | .error v => if settings.isActive && !f.isDeclaration then some ⟨f.name, v⟩ else none
  | .ok _ => none

/-- A rearrangement adds the same to the summary of a module. -/
theorem Function.Rearranged.ofFunction_eq (h : f.Rearranged g) (hc : f.Coherent) :
    Counters.ofFunction g = .ofFunction f := by
  have hperm := (h.perm_placed hc).map (·.2)
  -- A declaration has no first block.
  have hdecl : ∀ k : Function, k.isDeclaration = !k.hasBlock ⟨0⟩ := fun k => by
    rw [isDeclaration, Function.hasBlock, Bool.eq_iff_iff]
    simp
  simp only [Counters.ofFunction, hdecl, h.hasBlock, hperm.length_eq, hperm.countP_eq]

namespace HoistOutcome

variable (h : HoistOutcome f settings r)
include h

/-- A run adds the same to the summary of a module as the function before it. -/
theorem ofFunction_eq (hb : f.Built) : Counters.ofFunction r.function = .ofFunction f := by
  by_cases hlook : LookedAt f settings
  · cases hv : f.validate with
    | error v => rw [(h.unchanged v ((h.rejected v).2 ⟨hlook, hv⟩)).1]
    | ok u =>
      -- A run that goes through the loops rearranges the function.
      have hw := Function.violation?_eq_none_iff.1 (Function.validate_eq_ok_iff.1 hv)
      obtain ⟨a, g, hanalyze, hg, hfun, -⟩ := h.done hlook hv
      obtain ⟨a', hanalyze', ha⟩ := exists_analyze hw
      obtain rfl := Except.ok.inj (hanalyze.symm.trans hanalyze')
      obtain ⟨g', hg', htrace⟩ := exists_processAll ha hb.coherent hw settings
      obtain rfl := Except.ok.inj (hg.symm.trans hg')
      rw [hfun]
      exact (htrace.rearranged ha hb.coherent hw).ofFunction_eq hb.coherent
  · rw [(h.skipped hlook).1]

/-- A run is listed as rejected if the function should be. -/
theorem rejection?_eq : r.rejection? = f.rejection? settings := by
  have hiff := h.rejected
  unfold HoistResult.rejection? Function.rejection?
  cases hres : r.result with
  | ok c =>
    have hno : ∀ v, ¬ (LookedAt f settings ∧ f.validate = .error v) := fun v hv => by
      have herr := (hiff v).2 hv
      rw [hres] at herr
      cases herr
    cases hv : f.validate with
    | ok u => rfl
    | error v =>
      have hlook : ¬ LookedAt f settings := fun hlook => hno v ⟨hlook, hv⟩
      have hskip := not_lookedAt_iff.1 hlook
      cases hactive : settings.isActive <;> cases hdecl : f.isDeclaration <;> simp_all
  | error v =>
    obtain ⟨⟨hactive, hdecl⟩, hv⟩ := (hiff v).1 hres
    rw [hv, (h.unchanged v hres).1]
    simp [hactive, hdecl]

/-- What is listed as rejected is left as it was. -/
theorem eq_of_rejection? (hrej : f.rejection? settings ≠ none) : r.function = f := by
  rw [← h.rejection?_eq, HoistResult.rejection?] at hrej
  cases hres : r.result with
  | ok c =>
    rw [hres] at hrej
    exact absurd rfl hrej
  | error v => exact (h.unchanged v hres).1

end HoistOutcome

/-! ## All functions -/

/-- What a counter of the report comes to as a number: the sum of this counter over the functions
that were not rejected, and in the summary. -/
def countOf (results : List HoistResult) (summary : Counters) (name : String) : Nat :=
  ((results.filterMap fun r => r.result.toOption).map fun c => (c.get name).toNat).sum +
    (summary.get name).toNat

/-- The report counts that, if the counter has room for it. -/
theorem toNat_get_report {results : List HoistResult} {summary : Counters} {name : String}
    (h : countOf results summary name < UInt64.size) :
    ((Counters.sum (results.map (·.gained)) + summary).get name).toNat =
      countOf results summary name := by
  let us := (results.map (·.gained)).map (·.get name)
  -- A rejected function gains nothing, so it may be counted or left out.
  have hgained : (us.map (·.toNat)).sum =
      ((results.filterMap fun r => r.result.toOption).map fun c => (c.get name).toNat).sum := by
    clear h
    induction results with
    | nil => rfl
    | cons r rs ih =>
      simp only [us, List.map_cons, List.sum_cons] at ih ⊢
      rw [ih, List.filterMap_cons]
      cases hres : r.result with
      | ok c => simp [HoistResult.gained, hres, Except.toOption]
      | error v =>
        have hzero : (({} : Counters).get name).toNat = 0 := congrArg _ (Counters.get_zero name)
        simp [HoistResult.gained, hres, Except.toOption, hzero]
  have hall : ((us ++ [summary.get name]).map (·.toNat)).sum = countOf results summary name := by
    rw [List.map_append, List.sum_append, hgained]
    rfl
  rw [← hall] at h ⊢
  rw [Counters.get_add, Counters.get_sum, ← toNat_sum h, List.sum_append, List.sum_singleton]

/-- What the pass makes of a module and reports, when it makes `results` of the functions. -/
structure ModuleOutcome (m : Module) (settings : Settings) (results : List HoistResult)
    (m' : Module) (report : Report) : Prop where
  /-- Each result is that of the pass over the function alone. -/
  alone : List.Forall₂ (fun f r => f.hoistInvariants settings = .ok r) m.functions results
  /-- The functions afterwards are those of the results, and nothing else of the module changes. -/
  module : m' = { m with functions := results.map (·.function) }
  /-- The functions that the pass looks at and that do not pass the check are listed in order, with
  the error of the check. -/
  failures : report.failures = m.functions.filterMap (Function.rejection? · settings)
  /-- They are left as they were. -/
  unchanged : ∀ (i : Nat) (f : Function), m.functions[i]? = some f → f.rejection? settings ≠ none →
    m'.functions[i]? = some f
  /-- The summary counts what the module holds. -/
  counted : m.Counted m.summary
  /-- The summary is the same before and after. -/
  summary : m'.summary = m.summary
  /-- Each counter of the report is the sum of those of the functions that were not rejected, and of
  the summary of the module before, if the counter has room for that. -/
  counters : ∀ name, countOf results m.summary name < UInt64.size →
    (report.counters.get name).toNat = countOf results m.summary name

/-- The pass over a module works function by function and loses nothing. Whatever functions edits
have made, and under all settings, it succeeds: each function afterwards is what the pass makes of
it alone, whatever the others are; the functions listed as rejected are, in order, those that the
pass looks at and that do not pass the check, with the error of the check and left as they were; and
each counter adds up over the functions that were not rejected and the summary of the module, which
counts what the module holds and is the same before and after. -/
theorem hoistInvariants_functionwise (m : Module) (hm : ∀ f ∈ m.functions, f.Built)
    (settings : Settings) : ∃ results m' report, m.hoistInvariants settings = .ok (m', report) ∧
      ModuleOutcome m settings results m' report := by
  have hruns : ∀ f ∈ m.functions, ∃ r, f.hoistInvariants settings = .ok r ∧
      HoistOutcome f settings r := fun f hf => exists_hoistOutcome (hm f hf) settings
  choose! run hrun hend using hruns
  let m' : Module := { m with functions := (m.functions.map run).map (·.function) }
  let report : Report :=
    { counters := Counters.sum ((m.functions.map run).map (·.gained)) + m'.summary
      failures := (m.functions.map run).filterMap (·.rejection?) }
  have hpass : m.hoistInvariants settings = .ok (m', report) := by
    unfold Module.hoistInvariants
    rw [mapM_eq_ok hrun]
  -- Hoisting changes the place of instructions alone, and the summary does not ask where they are.
  have hsummary : m'.summary = m.summary := by
    unfold Module.summary
    rw [List.map_map, List.map_map]
    exact congrArg _ (List.map_congr_left fun f hf => (hend f hf).ofFunction_eq (hm f hf))
  refine ⟨m.functions.map run, m', report, hpass, ?_, rfl, ?_, fun i f hf hrej => ?_,
    Module.counted_summary fun f hf => (hm f hf).coherent, hsummary, fun name h => ?_⟩
  · rw [List.forall₂_map_right_iff, List.forall₂_same]
    exact hrun
  · show (m.functions.map run).filterMap (·.rejection?) = _
    rw [List.filterMap_map]
    exact List.filterMap_congr fun f hf => (hend f hf).rejection?_eq
  · show ((m.functions.map run).map (·.function))[i]? = some f
    rw [List.getElem?_map, List.getElem?_map, hf, Option.map_some, Option.map_some,
      (hend f (List.mem_of_getElem? hf)).eq_of_rejection? hrej]
  · show ((Counters.sum ((m.functions.map run).map (·.gained)) + m'.summary).get name).toNat = _
    rw [hsummary]
    exact toNat_get_report h

/-- A module with a function that does not pass the check in front of one that does. -/
def mixed : Module := { name := "mixed", functions := [unfinished, cascade] }

/-- The pass lists the unfinished loop as rejected and leaves it as it was, and hoists in the
cascade as ever. -/
theorem hoistInvariants_functionwise_mixed :
    ∃ results m' report, mixed.hoistInvariants {} = .ok (m', report) ∧
      ModuleOutcome mixed {} results m' report ∧
      report.failures = [⟨"unfinished", .missingTerminator ⟨1⟩ "loop"⟩] ∧
      m'.functions[0]? = some unfinished ∧ (report.counters.get "LICMBasic").toNat = 3 := by
  obtain ⟨results, m', report, hrun, hend⟩ := hoistInvariants_functionwise mixed (by
    intro f hf
    rcases List.mem_cons.1 hf with rfl | hf
    · exact (Function.Built.new "unfinished" [] none).edits _ (by decide)
    · rw [List.mem_singleton.1 hf]
      exact built_cascade) {}
  have hbasic : (mixed.hoistInvariants {}).map (fun q => (q.2.counters.get "LICMBasic").toNat) =
      .ok 3 := by
    decide +kernel
  rw [hrun] at hbasic
  exact ⟨results, m', report, hrun, hend, hend.failures.trans (by decide),
    hend.unchanged 0 unfinished rfl (by decide), Except.ok.inj hbasic⟩

end LoopHoist
