import LoopHoist.Proofs.Memory.MayWrite

/-!
# One stay in a loop

A run comes into a loop at its header (`ComesInto.arrives`) and stays in it for as long as each step
leads to a block of the loop, through however many rounds of the loop and of loops inside
(`Running.Stays`). In the meantime a register that nothing in the loop writes stays as it is
(`Stays.reg?_eq`), and so does the memory that nothing in it may write (`Stays.cell_eq`).

A register that an instruction of the loop writes may change with each execution of the
instruction. But where the instruction lies on every way, the register holds what the last execution
during the stay has written: so if all executions during the stay write the same value, it is that
value (`Stays.reg?_of_passed`).
-/

namespace LoopHoist

variable {f : Function} {a : Analysis} {l : Loop} {n : LoopId}
  {s t u start : Running} {o : MemObject} {r : MemRegion} {i j : InstId} {v : ValueId}
  {instr : Instruction} {x : Val} {b : BlockId} {module : Module} {args : List Int64}

namespace Running

/-! ## Steps -/

/-- Whether a step of a run executes an instruction. -/
structure Executes (f : Function) (t : Running) (i : InstId) (u : Running) : Prop where
  /-- It is a step of the run. -/
  step : t.step f = .ok u
  /-- The instruction is the next one. -/
  next : ∃ rest, t.rest = i :: rest

/-- A step that executes an instruction other than a terminator performs it. -/
theorem Executes.performs (h : t.Executes f i u) (hw : f.WellFormed) (ht : t.Placed f)
    (hi : f.inst? i = some instr) (hn : instr.isTerminator = false) :
    t.Performs f u i instr u.machine := by
  obtain ⟨rest, hrest⟩ := h.next
  rcases step_cases hw ht h.step with ⟨k, instr', hk, hinst, hterm, -⟩ | ⟨k, instr', hperf⟩
  · obtain rfl : i = k := (List.cons.inj (hrest.symm.trans hk)).1
    obtain rfl := Option.some.inj (hi.symm.trans hinst)
    rw [hn] at hterm
    cases hterm
  · obtain rfl : i = k := (List.cons.inj (hrest.symm.trans hperf.rest)).1
    obtain rfl := Option.some.inj (hi.symm.trans hperf.content)
    exact hperf

/-- A step leads to an instruction again. -/
theorem Placed.step (ht : t.Placed f) (hw : f.WellFormed) (h : t.step f = .ok u) : u.Placed f := by
  rcases step_cases hw ht h with ⟨-, -, -, -, -, -, henters⟩ | ⟨i, instr, hperf⟩
  · exact henters.placed hw
  · exact hperf.placed ht

/-- Entering a block changes a register only if a phi of the block writes it. -/
theorem Enters.reg?_eq {came : Option BlockId} {m : Machine} (h : u.Enters f came m)
    (hphi : ∀ i ty ins, i ∈ f.instsOf u.block → f.inst? i ≠ some (.phi v ty ins)) :
    u.machine.reg? v = m.reg? v := by
  obtain ⟨-, -, vals, hvals, hmach⟩ := h
  rw [hmach, Machine.reg?_setAll]
  rintro ⟨w, y⟩ hmem rfl
  obtain ⟨i, ty, ins, -, -, hi, hinst, -⟩ := (Machine.phiValues_eq_ok hvals).1 _ hmem
  exact hphi i ty ins hi hinst

/-- A run goes through reachable blocks. -/
theorem Reaches.reachable (hw : f.WellFormed) (hs : s.Placed f)
    (hr : (Cfg.ofFunction f).Reachable s.block) {k : Nat} (h : Reaches f k s u) :
    u.Placed f ∧ (Cfg.ofFunction f).Reachable u.block := by
  induction h with
  | refl => exact ⟨hs, hr⟩
  | @step k s u w hstep _ ih =>
    refine ih (hs.step hw hstep) ?_
    rcases step_cases hw hs hstep with ⟨-, -, -, -, -, hsucc, -⟩ | ⟨i, instr, hperf⟩
    · exact hr.step (Cfg.succ_ofFunction f s.block ▸ hsucc)
    · rw [hperf.block]
      exact hr

/-! ## Coming into a loop -/

/-- Whether a run comes into a loop: it is in the loop, and it has just started or was outside the
loop one step before. -/
def ComesInto (f : Function) (l : Loop) (s start : Running) : Prop :=
  l.contains s.block = true ∧ (s = start ∨ ∃ k t, Reaches f k start t ∧
    l.contains t.block = false ∧ t.step f = .ok s)

/-- What holds when a run comes into a loop. -/
structure Arrives (f : Function) (l : Loop) (s : Running) : Prop where
  /-- The run is at the header. -/
  header : s.block = l.header
  /-- All instructions of the header are to come. -/
  rest : s.rest = f.instsOf s.block
  /-- The run is before an instruction. -/
  placed : s.Placed f
  /-- Slots own their objects. -/
  orderly : s.machine.Orderly f True

/-- A run starts by entering the entry. -/
theorem Starts.enters (h : start.Starts f module args) (hw : f.WellFormed) :
    f.entry = some start.block ∧ ∃ m, start.Enters f none m := by
  obtain ⟨e, he, henter⟩ := h
  obtain ⟨e', he', hb⟩ := hw.entry
  obtain rfl := Option.some.inj (he.symm.trans he')
  obtain ⟨rfl, henters⟩ := enters_of_enter hw hb henter
  exact ⟨he, _, henters⟩

/-- A run comes into a loop at its header. -/
theorem ComesInto.arrives (h : s.ComesInto f l start) (hw : f.WellFormed) (hf : f.WritesOnce)
    (ha : Analyzed f a) (hl : a.forest.loop? n = some l) (hstart : start.Starts f module args) :
    s.Arrives f l := by
  obtain ⟨hin, hcase⟩ := h
  obtain ⟨hplaced, horderly⟩ : start.Placed f ∧ start.machine.Orderly f True := hstart.spec hw hf
  obtain ⟨hentry, m, henters⟩ := hstart.enters hw
  have hbody := (ha.contains_iff hl).1 hin
  rcases hcase with rfl | ⟨k, t, hrun, hout, hstep⟩
  · -- The header dominates the entry, so it is the entry.
    have hmem := hbody.dominates _ [_] hentry .here
    exact ⟨(List.mem_singleton.1 hmem).symm, henters.2.1, hplaced, horderly⟩
  · obtain ⟨htplaced, htorderly⟩ := hrun.openRun.keeps hw hf
      (fun _ _ _ hm hmove => Machine.Orderly.carries hm hmove) hplaced horderly
    obtain ⟨-, hreach⟩ := hrun.reachable hw hplaced (Cfg.reachable_entry hentry)
    obtain ⟨hsplaced, hsorderly⟩ := (OpenStep.plain hstep).keeps hw hf
      (fun _ _ _ hm hmove => Machine.Orderly.carries hm hmove) htplaced htorderly
    rcases step_cases hw htplaced hstep with ⟨-, -, -, -, -, hsucc, henters⟩ | ⟨i, instr, hperf⟩
    · refine ⟨?_, henters.2.1, hsplaced, hsorderly⟩
      -- A block other than the header has its predecessors in the loop.
      by_contra hne
      have htin := hbody.of_mem_succ hne (Cfg.succ_ofFunction f t.block ▸ hsucc) hreach
      rw [(ha.contains_iff hl).2 htin] at hout
      cases hout
    · rw [hperf.block, hout] at hin
      cases hin

/-! ## Staying -/

/-- Whether a run stays in a loop from one place to another. -/
inductive Stays (f : Function) (l : Loop) (s : Running) : Running → Prop where
  /-- The run is in the loop. -/
  | start (h : l.contains s.block = true) : Stays f l s s
  /-- One more step leads to a block of the loop. -/
  | step {t u : Running} (h : Stays f l s t) (hs : t.step f = .ok u)
    (hin : l.contains u.block = true) : Stays f l s u

namespace Stays

/-- The run is in the loop. -/
theorem contains (h : s.Stays f l t) : l.contains t.block = true := by
  cases h <;> assumption

/-- The run is before an instruction. -/
theorem placed (h : s.Stays f l t) (hw : f.WellFormed) (hs : s.Placed f) : t.Placed f := by
  induction h with
  | start => exact hs
  | step _ hstep _ ih => exact ih.step hw hstep

/-- A register that nothing in the loop writes stays as it is. -/
theorem reg?_eq (h : s.Stays f l t) (hw : f.WellFormed) (hs : s.Placed f)
    (hv : ∀ b i instr, l.contains b = true → i ∈ f.instsOf b → f.inst? i = some instr →
      instr.def? ≠ some v) : t.machine.reg? v = s.machine.reg? v := by
  induction h with
  | start => rfl
  | @step t u h hstep hin ih =>
    rw [← ih]
    rcases step_cases hw (h.placed hw hs) hstep with
      ⟨-, -, -, -, -, -, henters⟩ | ⟨i, instr, hperf⟩
    · exact henters.reg?_eq fun i ty ins hi hinst => hv u.block i _ hin hi hinst rfl
    · exact Machine.reg?_perform hperf.machine
        (hv t.block i instr h.contains hperf.mem hperf.content)

/-- Memory that nothing in the loop may write stays as it is. -/
theorem cell_eq (h : s.Stays f l t) (hc : f.Coherent) (hw : f.WellFormed) (hf : f.DefinedOnce)
    (hs : s.Placed f) (hm : s.machine.Orderly f True) (hr : s.machine.Belongs f True r o)
    (hnot : (LoopMemory.ofLoop f (.ofFunction f) l).mayWrite (.ofFunction f) o = false)
    (offset : Int64) : t.machine.cell ⟨r, offset⟩ = s.machine.cell ⟨r, offset⟩ := by
  have hkeep : (t.Placed f ∧ t.machine.Orderly f True ∧ t.machine.Belongs f True r o) ∧
      t.machine.cell ⟨r, offset⟩ = s.machine.cell ⟨r, offset⟩ := by
    induction h with
    | start => exact ⟨⟨hs, hm, hr⟩, rfl⟩
    | @step t u h hstep _ ih =>
      obtain ⟨⟨hs, hm, hr⟩, heq⟩ := ih
      refine ⟨(OpenStep.plain hstep).keeps hw hf.writesOnce
        (P := fun m => m.Orderly f True ∧ m.Belongs f True r o)
        (fun _ _ _ hm hmove => ⟨hm.1.carries hmove, hm.2.carries hmove⟩) hs ⟨hm, hr⟩, ?_⟩
      rw [(OpenStep.plain hstep).cell_eq hc hw hf hnot (fun _ _ _ => trivial) hs hm hr h.contains,
        heq]
  exact hkeep.2

/-- Where an instruction of the loop, other than a phi, lies on every way to a place, its register
holds what all its executions during the stay write. -/
theorem reg?_of_passed (h : s.Stays f l t) (hw : f.WellFormed) (hf : f.WritesOnce)
    (hs : s.Arrives f l) (hb : j ∈ f.instsOf b) (hj : f.inst? j = some instr)
    (hdef : instr.def? = some v) (hphi : ∀ d ty ins, instr ≠ .phi d ty ins)
    (hfirst : ∀ c, (Cfg.ofFunction f).Dominates c l.header → j ∈ f.instsOf c → c = l.header)
    (hsame : ∀ t u, s.Stays f l t → t.Executes f j u → u.machine.reg? v = some x) :
    ∀ before, f.instsOf t.block = before ++ t.rest → (j ∈ before ∨ ∃ c, c ≠ t.block ∧
      (Cfg.ofFunction f).Dominates c t.block ∧ j ∈ f.instsOf c) →
    t.machine.reg? v = some x := by
  induction h with
  | start =>
    -- Nothing of the loop lies on every way to the header but the header itself.
    rintro before hl (hmem | ⟨c, hne, hdom, hmem⟩)
    · rw [hs.rest, List.self_eq_append_left] at hl
      rw [hl] at hmem
      cases hmem
    · rw [hs.header] at hne hdom
      exact absurd (hfirst c hdom hmem) hne
  | @step t u h hstep hin ih =>
    obtain ⟨-, before', hl'⟩ := h.placed hw hs.placed
    -- Only the instruction itself writes its result.
    have hkept : ∀ {c k instr'}, k ∈ f.instsOf c → f.inst? k = some instr' → k ≠ j →
        instr'.def? ≠ some v := fun hk hinst hne hv =>
      hne (hf _ _ _ _ _ _ _ hk hb hinst hj hv hdef)
    intro before hl hpassed
    rcases step_cases hw (h.placed hw hs.placed) hstep with
      ⟨i, instr', hlast, hi, hterm, hsucc, henters⟩ | ⟨i, instr', hperf⟩
    · have hreg : u.machine.reg? v = t.machine.reg? v := by
        refine henters.reg?_eq fun k ty ins hk hinst => hkept hk hinst (fun hkj => ?_) rfl
        rw [hkj, hj] at hinst
        exact hphi _ _ _ (Option.some.inj hinst)
      rw [henters.2.1, List.self_eq_append_left] at hl
      obtain ⟨c, hne, hdom, hmem⟩ := hpassed.resolve_left (by simp [hl])
      rw [hreg]
      refine ih before' hl' ?_
      have hdom' := hdom.of_mem_succ hne (Cfg.succ_ofFunction f t.block ▸ hsucc)
      by_cases hct : c = t.block
      · -- The block is done, but for its terminator, which writes nothing.
        rw [hct, hl', hlast, List.mem_append, List.mem_singleton] at hmem
        refine .inl (hmem.resolve_right fun hji => ?_)
        rw [hji, hi] at hj
        obtain rfl := Option.some.inj hj
        cases hdef.symm.trans (Instruction.def?_eq_none hterm)
      · exact .inr ⟨c, hct, hdom', hmem⟩
    · by_cases hij : i = j
      · subst hij
        exact hsame t u h ⟨hstep, _, hperf.rest⟩
      · rw [Machine.reg?_perform hperf.machine (hkept hperf.mem hperf.content hij)]
        refine ih before' hl' ?_
        have hbefore : before = before' ++ [i] := by
          rw [hperf.block, hl', hperf.rest, List.append_cons] at hl
          exact (List.append_cancel_right hl).symm
        rw [hperf.block, hbefore] at hpassed
        refine hpassed.imp_left fun hmem => ?_
        exact (List.mem_append.1 hmem).resolve_right fun hm => hij (List.mem_singleton.1 hm).symm

end Stays

end Running

end LoopHoist
