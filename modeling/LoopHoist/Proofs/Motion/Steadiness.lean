import LoopHoist.Proofs.Machine.Stays
import LoopHoist.Proofs.Motion.Census
import LoopHoist.Proofs.Motion.Permissive

/-!
# What leaves a loop is invariant in it

The rule of the pass looks at where operands are defined, in a function that it is changing. What it
promises is about runs of the function before the pass: during one stay in a loop, all executions of
an instruction that leaves the loop write the same value (`Running.Steady`).

The proof goes by the rule (`Leaves.steady`). An operand that is given or defined outside the loop
keeps its register for the whole stay. One that is defined by an instruction that leaves the loop
lies on every way to its use, so its register holds the one value of that instruction. And a load
that may leave is from an object that nothing in the loop may write. So wherever the instruction is
executed, it is given the same data.
-/

namespace LoopHoist

variable {f : Function} {a : Analysis} {settings : Settings} {slots : StackSlots} {l : Loop}
  {n : LoopId} {s t u t' u' : Running} {m m' : Machine} {x j : InstId} {v dst : ValueId}
  {c : BlockId} {instr : Instruction} {addr : Operand}

/-! ## Steady instructions -/

/-- What a movable instruction writes is its result. -/
theorem Machine.exists_resultOf_of_perform (h : m.perform f instr = .ok m')
    (hmov : instr.category.movable = true) (hdef : instr.def? = some dst) :
    ∃ y, m.resultOf f instr = .ok y ∧ m'.reg? dst = some y := by
  have hres : ∃ y, m.resultOf f instr = .ok y := by
    cases instr with
    | compute d c =>
      obtain ⟨y, hy, -⟩ := exists_of_bind_eq_ok h
      exact ⟨y, hy⟩
    | load d ty addr access =>
      obtain ⟨b, hb, h⟩ := exists_of_bind_eq_ok h
      obtain ⟨p, hp, -⟩ := exists_of_bind_eq_ok h
      refine ⟨m.cell p, ?_⟩
      simp only [resultOf, hb, hp, bind, Except.bind]
      rfl
    | _ => cases hmov
  obtain ⟨y, hy⟩ := hres
  obtain rfl := Except.ok.inj ((perform_of_resultOf hy hdef).symm.trans h)
  exact ⟨y, hy, by simp⟩

/-- Whether all executions of an instruction write the same value, as long as a run stays in a
loop. -/
def Running.Steady (f : Function) (l : Loop) (s : Running) (x : InstId) : Prop :=
  ∃ instr dst y, f.inst? x = some instr ∧ instr.def? = some dst ∧
    ∀ t u, s.Stays f l t → t.Executes f x u → u.machine.reg? dst = some y

/-- An instruction is steady if any two executions write the same value. -/
theorem Running.steady_of_forall_eq (hx : f.inst? x = some instr) (hdef : instr.def? = some dst)
    (h : ∀ t u t' u', s.Stays f l t → t.Executes f x u → s.Stays f l t' → t'.Executes f x u' →
      ∃ y, u.machine.reg? dst = some y ∧ u'.machine.reg? dst = some y) : s.Steady f l x := by
  by_cases hex : ∃ t u, s.Stays f l t ∧ t.Executes f x u
  · obtain ⟨t, u, ht, hu⟩ := hex
    obtain ⟨y, hy, -⟩ := h t u t u ht hu ht hu
    refine ⟨instr, dst, y, hx, hdef, fun t' u' ht' hu' => ?_⟩
    obtain ⟨y', hy', hy''⟩ := h t u t' u' ht hu ht' hu'
    rw [hy'', ← hy', hy]
  · exact ⟨instr, dst, .int 0, hx, hdef, fun t u ht hu => absurd ⟨t, u, ht, hu⟩ hex⟩

/-- A stay of a run in a loop of a function, from its start `s` on. -/
structure Visit (f : Function) (a : Analysis) (n : LoopId) (l : Loop) (s : Running) : Prop where
  /-- The analyses are those of the function. -/
  analyzed : Analyzed f a
  /-- The parts of the function describe each other. -/
  coherent : f.Coherent
  /-- The function is well-formed. -/
  wellFormed : f.WellFormed
  /-- It is in single-assignment form. -/
  single : f.SingleAssignment
  /-- Nothing writes what is given. -/
  given : f.GivenUnwritten
  /-- The loop. -/
  loop : a.forest.loop? n = some l
  /-- The run comes into the loop. -/
  arrives : s.Arrives f l

namespace Visit

variable (hv : Visit f a n l s)
include hv

/-- What is given stays as it is. -/
theorem reg?_of_given (h : f.Given v) (ht : s.Stays f l t) :
    t.machine.reg? v = s.machine.reg? v := by
  refine ht.reg?_eq hv.wellFormed hv.arrives.placed fun b i instr _ hi hinst hdef => ?_
  exact (hv.given (i, instr) (Function.mem_placed.2 ⟨⟨b, hi⟩, hinst⟩) v hdef).1 h

/-- What is defined outside the loop stays as it is. -/
theorem reg?_of_outside (hj : f.def? v = some (.inst j)) (hc : f.owner? j = some c)
    (hout : l.contains c = false) (ht : s.Stays f l t) :
    t.machine.reg? v = s.machine.reg? v := by
  refine ht.reg?_eq hv.wellFormed hv.arrives.placed fun b i instr hin hi hinst hdef => ?_
  obtain ⟨instr', hinst', hdef'⟩ := hv.coherent.def_inst v j hj
  obtain rfl : i = j := hv.single.writesOnce b c i j instr instr' v hi
    ((hv.coherent.mem_iff j c).2 hc) hinst hinst' hdef hdef'
  obtain rfl := hv.coherent.eq_of_owner? hc hi
  rw [hout] at hin
  cases hin

/-- What a steady instruction of the loop defines is the same wherever it is available. -/
theorem exists_reg?_of_steady (hj : f.def? v = some (.inst j)) (hc : f.owner? j = some c)
    (hin : l.contains c = true) (hinst : f.inst? j = some instr)
    (hphi : ∀ d ty ins, instr ≠ .phi d ty ins) (hsteady : s.Steady f l j) :
    ∃ y, ∀ t before, s.Stays f l t → f.instsOf t.block = before ++ t.rest →
      f.Available t.block before v → t.machine.reg? v = some y := by
  obtain ⟨instr', dst, y, hinst', hdst, hsame⟩ := hsteady
  obtain rfl := Option.some.inj (hinst.symm.trans hinst')
  obtain ⟨instr', hinst', hdef⟩ := hv.coherent.def_inst v j hj
  obtain rfl := Option.some.inj (hinst.symm.trans hinst')
  obtain rfl := Option.some.inj (hdst.symm.trans hdef)
  refine ⟨y, fun t before ht hl havail => ?_⟩
  refine ht.reg?_of_passed hv.wellFormed hv.single.writesOnce hv.arrives
    ((hv.coherent.mem_iff j c).2 hc) hinst hdef hphi (fun c' hdom hmem => ?_) hsame before hl
    ((Function.available_iff_of_inst hj).1 havail)
  -- The header dominates the blocks of the loop.
  obtain rfl := hv.coherent.eq_of_owner? hc hmem
  have hbody := (hv.analyzed.contains_iff hv.loop).1 hin
  have hreach := hv.analyzed.tree.reachable_of_contains (hv.analyzed.isLoop hv.loop) hin
  exact hdom.antisymm hbody.dominates (hbody.dominates.reachable hreach)

/-- Where an instruction is executed, what it uses is available. -/
theorem available_of_executes (ht : s.Stays f l t) (hu : t.Executes f x u)
    (hx : f.inst? x = some instr) (hphi : ∀ d ty ins, instr ≠ .phi d ty ins)
    (hmem : v ∈ instr.usedValues) :
    ∃ before, f.instsOf t.block = before ++ t.rest ∧ f.Available t.block before v := by
  obtain ⟨-, before, hl⟩ := ht.placed hv.wellFormed hv.arrives.placed
  obtain ⟨rest, hrest⟩ := hu.next
  have hreach := hv.analyzed.tree.reachable_of_contains (hv.analyzed.isLoop hv.loop) ht.contains
  exact ⟨before, hl, hv.single.uses t.block before x rest instr hreach (hrest ▸ hl) hx hphi v hmem⟩

/-- What two executions use is the same in both, if it is given, defined outside the loop, or
defined by a steady instruction that leaves the loop. -/
theorem reg?_eq_of_executes (ht : s.Stays f l t) (hu : t.Executes f x u) (ht' : s.Stays f l t')
    (hu' : t'.Executes f x u') (hx : f.inst? x = some instr)
    (hphi : ∀ d ty ins, instr ≠ .phi d ty ins) (hmem : v ∈ instr.usedValues)
    (hknown : f.Given v ∨ ∃ j c, f.def? v = some (.inst j) ∧ f.owner? j = some c)
    (hleaves : ∀ j c, f.def? v = some (.inst j) → f.owner? j = some c → l.contains c = true →
      Leaves f slots settings l j ∧ s.Steady f l j) :
    t'.machine.reg? v = t.machine.reg? v := by
  rcases hknown with hgiven | ⟨j, c, hj, hc⟩
  · rw [hv.reg?_of_given hgiven ht, hv.reg?_of_given hgiven ht']
  · cases hin : l.contains c with
    | false => rw [hv.reg?_of_outside hj hc hin ht, hv.reg?_of_outside hj hc hin ht']
    | true =>
      obtain ⟨hleave, hsteady⟩ := hleaves j c hj hc hin
      obtain ⟨-, instr', -, -, hinst', hkind, -⟩ := leaves_iff.1 hleave
      obtain ⟨y, hy⟩ := hv.exists_reg?_of_steady hj hc hin hinst'
        (exists_def_of_movable hkind.movable).2.1 hsteady
      obtain ⟨before, hl, havail⟩ := hv.available_of_executes ht hu hx hphi hmem
      obtain ⟨before', hl', havail'⟩ := hv.available_of_executes ht' hu' hx hphi hmem
      rw [hy t before ht hl havail, hy t' before' ht' hl' havail']

/-- The value of an object that a movable instruction uses does not change during the stay: the
instruction that makes a slot does not leave the loop, so it is not in the loop. -/
theorem reg?_of_object {o : MemObject} (ho : f.IsObject o)
    (hknown : f.Given o.value ∨ ∃ j c, f.def? o.value = some (.inst j) ∧ f.owner? j = some c)
    (hleaves : ∀ j c, f.def? o.value = some (.inst j) → f.owner? j = some c →
      l.contains c = true → Leaves f slots settings l j) (ht : s.Stays f l t) :
    t.machine.reg? o.value = s.machine.reg? o.value := by
  rcases hknown with hgiven | ⟨j, c, hj, hc⟩
  · exact hv.reg?_of_given hgiven ht
  · cases hin : l.contains c with
    | false => exact hv.reg?_of_outside hj hc hin ht
    | true =>
      exfalso
      obtain ⟨-, instr, -, -, hinst, hkind, -⟩ := leaves_iff.1 (hleaves j c hj hc hin)
      obtain ⟨instr', hinst', hdef⟩ := hv.coherent.def_inst _ j hj
      obtain rfl := Option.some.inj (hinst.symm.trans hinst')
      cases o with
      | global w =>
        obtain ⟨name, hw⟩ := ho
        cases hw.symm.trans hj
      | stack w =>
        have hslot := hv.single.writesOnce.slot?_eq
          (Function.mem_placed.2 ⟨⟨c, (hv.coherent.mem_iff j c).2 hc⟩, hinst⟩) hdef ho
        have hmov := hkind.movable
        cases instr with
        | alloca d ty => cases hmov
        | _ => cases hslot

/-- What an object holds that the loop may not write stays during the stay. -/
theorem cell_of_object {o : MemObject} {p : Address}
    (hobject : f.object? (.ofFunction f) addr = some o)
    (hnot : (LoopMemory.ofLoop f (.ofFunction f) l).mayWrite (.ofFunction f) o = false)
    (hreg : ∀ t, s.Stays f l t → t.machine.reg? o.value = s.machine.reg? o.value)
    (ht : s.Stays f l t) (hp : t.machine.get f addr = .ok (.ptr p)) (ht' : s.Stays f l t') :
    t'.machine.cell p = t.machine.cell p := by
  obtain ⟨ho, rfl⟩ := Function.isObject_of_object? hobject
  have hf : f.DefinedOnce := ⟨hv.single.writesOnce, hv.given⟩
  -- The value designates the object from the start on.
  have hstart : s.machine.get f (.value o.value) = .ok (.ptr p) := by
    rw [← hp]
    refine Machine.get_congr (fun _ => rfl) fun w hw _ => ?_
    cases hw
    exact (hreg t ht).symm
  have hr : s.machine.Belongs f True p.region o :=
    Machine.Designates.belongs ⟨p, hstart, rfl⟩ hf hv.arrives.orderly ho
  have hcell : ∀ t, s.Stays f l t → t.machine.cell p = s.machine.cell p := fun t ht =>
    ht.cell_eq hv.coherent hv.wellFormed hf hv.arrives.placed hv.arrives.orderly hr hnot p.offset
  rw [hcell t ht, hcell t' ht']

end Visit

/-- What leaves a loop is steady during each stay in the loop. -/
theorem Leaves.steady (hv : Visit f a n l s) (h : Leaves f a.slots settings l x) :
    s.Steady f l x := by
  induction h with
  | @intro x b instr owner inside content kind known operands ih =>
    obtain ⟨hterm, hphi, dst, hdef⟩ := exists_def_of_movable kind.movable
    refine Running.steady_of_forall_eq content hdef fun t u t' u' ht hu ht' hu' => ?_
    have hreg : ∀ v ∈ instr.usedValues, t'.machine.reg? v = t.machine.reg? v := fun v hmem =>
      hv.reg?_eq_of_executes ht hu ht' hu' content hphi hmem (known v hmem) fun j c hj hc hin =>
        ⟨operands v hmem j c hj hc hin, ih v hmem j c hj hc hin⟩
    have hcell : ∀ d ty addr access p, instr = .load d ty addr access →
        t.machine.get f addr = .ok (.ptr p) → t'.machine.cell p = t.machine.cell p := by
      rintro d ty addr access p rfl hp
      rcases kind with hord | ⟨_, _, _, _, heq, -, -, hsafe⟩
      · cases hord
      · cases heq
        obtain ⟨o, hobject, hnot, -⟩ := LoopState.exists_object_of_loadIsSafe hsafe
        rw [hv.analyzed.slots] at hobject hnot
        obtain ⟨ho, rfl⟩ := Function.isObject_of_object? hobject
        have hmem : o.value ∈ (Instruction.load d ty (.value o.value) access).usedValues :=
          Instruction.mem_usedValues (o := .value o.value) (by simp [Instruction.operands]) rfl
        exact hv.cell_of_object hobject hnot
          (fun t ht => hv.reg?_of_object ho (known _ hmem) (operands _ hmem) ht) ht hp ht'
    -- With the same operands and the same cell to read the result is the same.
    have heq : t'.machine.resultOf f instr = t.machine.resultOf f instr :=
      Machine.resultOf_congr (fun o ho => Machine.get_congr (fun _ => rfl) fun v hov _ =>
        hreg v (Instruction.mem_usedValues ho hov)) hcell
    have hplaced : ∀ {t}, s.Stays f l t → t.Placed f := fun ht =>
      ht.placed hv.wellFormed hv.arrives.placed
    have hperf := hu.performs hv.wellFormed (hplaced ht) content hterm
    have hperf' := hu'.performs hv.wellFormed (hplaced ht') content hterm
    obtain ⟨y, hy, hu⟩ := Machine.exists_resultOf_of_perform hperf.machine kind.movable hdef
    obtain ⟨y', hy', hu'⟩ := Machine.exists_resultOf_of_perform hperf'.machine kind.movable hdef
    obtain rfl := Except.ok.inj (hy'.symm.trans (heq.trans hy))
    exact ⟨y', hu, hu'⟩

/-! ## What a run of the pass takes out -/

/-- Whether a run of the pass takes an instruction out of a loop: a relocation names both, or the
loop holds the block of the instruction before the run and not the one after it. -/
def HoistResult.TakesOut (r : HoistResult) (f : Function) (n : LoopId) (l : Loop) (x : InstId) :
    Prop :=
  (∃ q ∈ r.moves, q.inst = x ∧ q.loop = n) ∨ l.lost f r.function x = true

/-- What an active run takes out of a loop leaves it by the rule. -/
theorem Placed.leaves_of_takesOut {g : Function} {rs : List Relocation} {counters : Counters}
    (hplaced : Placed f a settings a.forest.postorder g)
    (hrel : Relocated f a settings a.forest.postorder rs) (ha : Analyzed f a)
    (hl : a.forest.loop? n = some l)
    (h : HoistResult.TakesOut ⟨g, .ok counters, rs.reverse⟩ f n l x) :
    Leaves f a.slots settings l x := by
  rcases h with ⟨q, hq, rfl, rfl⟩ | hlost
  · obtain ⟨-, l', p, hleave⟩ := (hrel.mem_iff q.inst q.loop).1
      (List.mem_map.2 ⟨q, List.mem_reverse.1 hq, rfl⟩)
    obtain rfl := Option.some.inj (hl.symm.trans hleave.loop)
    exact hleave.leaves
  · rw [Loop.lost, Bool.and_eq_true, Option.any_eq_true, Bool.not_eq_true'] at hlost
    obtain ⟨⟨b, hb, hin⟩, hout⟩ := hlost
    obtain ⟨c, hgc, -⟩ := hplaced x b hb
    rw [hgc, Option.any_some] at hout
    exact hplaced.leaves_of_moved ha hl hb hin hgc hout

/-- Hoisted instructions really are loop invariant. On a well-formed function in single-assignment
form, where no instruction writes a parameter or a global either, whatever a run of the pass takes
out of a loop is steady in every run of the function: from when the run comes into the loop until it
leaves it, all executions of the instruction write the same value. -/
theorem hoistInvariants_steady (f : Function) (hb : f.Built) (hv : f.validate = .ok ())
    (hs : f.SingleAssignment) (hg : f.GivenUnwritten) (settings : Settings) :
    ∃ a r counters, f.analyze = .ok a ∧ f.hoistInvariants settings = .ok r ∧
      r.result = .ok counters ∧ ∀ n l x, a.forest.loop? n = some l → r.TakesOut f n l x →
        ∀ module args (start s : Running), start.Starts f module args → s.ComesInto f l start →
          s.Steady f l x := by
  have hw := Function.violation?_eq_none_iff.1 (Function.validate_eq_ok_iff.1 hv)
  have hc := hb.coherent
  obtain ⟨a, hanalyze, ha⟩ := exists_analyze hw
  by_cases hactive : settings.isActive = true
  · obtain ⟨h, hh, htrace, hplaced, hrel⟩ := exists_processAll_relocated ha hc hw hs settings
    refine ⟨a, _, _, hanalyze, Function.hoistInvariants_eq hactive hw hanalyze hh
      (htrace.rearranged ha hc hw).wellFormed, rfl, ?_⟩
    intro n l x hl hout module args start s hstart hcomes
    have hvisit : Visit f a n l s :=
      ⟨ha, hc, hw, hs, hg, hl, hcomes.arrives hw hs.writesOnce ha hl hstart⟩
    exact (hplaced.leaves_of_takesOut hrel ha hl hout).steady hvisit
  · -- A pass that is not active takes nothing out.
    refine ⟨a, _, _, hanalyze, Function.hoistInvariants_of_skipped (by simp [hactive]), rfl, ?_⟩
    rintro n l x - (⟨q, hq, -⟩ | hlost)
    · cases hq
    · simp [Loop.lost] at hlost

/-! ## A level that rises between two stays -/

/-- The sum leaves the inner loop of the tide. -/
theorem exists_takesOut_tide {r : HoistResult} (ha : tide.analyze = .ok a)
    (hr : tide.hoistInvariants (Settings.withAliasPolicy {} .strict) = .ok r) :
    ∃ l, a.forest.loop? ⟨1⟩ = some l ∧ r.TakesOut tide ⟨1⟩ l ⟨3⟩ ∧ l.contains ⟨1⟩ = false ∧
      l.contains ⟨2⟩ = true := by
  have h : (tide.analyze.toOption.any fun a =>
      (tide.hoistInvariants (Settings.withAliasPolicy {} .strict)).toOption.any fun r =>
        (a.forest.loop? ⟨1⟩).any fun l =>
          l.lost tide r.function ⟨3⟩ && !l.contains ⟨1⟩ && l.contains ⟨2⟩) = true := by
    decide +kernel
  rw [ha, hr] at h
  simp only [Except.toOption, Option.any_some, Option.any_eq_true, Bool.and_eq_true,
    Bool.not_eq_true'] at h
  obtain ⟨l, hl, ⟨hlost, hout⟩, hin⟩ := h
  exact ⟨l, hl, .inr hlost, hout, hin⟩

/-- Two stays of the tide in its inner loop. In the first the sum is executed twice, before and
after the loop runs again, and in the second the level has risen. -/
theorem exists_two_stays (hout : l.contains ⟨1⟩ = false) (hin : l.contains ⟨2⟩ = true) :
    ∃ start s s' : Running, start.Starts tide { name := "sea" } [5] ∧
      s.ComesInto tide l start ∧ s'.ComesInto tide l start ∧
      (∃ t u t' u', s.Stays tide l t ∧ t.Executes tide ⟨3⟩ u ∧ u.Stays tide l t' ∧
        t'.Executes tide ⟨3⟩ u' ∧ u'.machine.reg? ⟨4⟩ = some (.int 5)) ∧
      ∃ t u, s'.Stays tide l t ∧ t.Executes tide ⟨3⟩ u ∧ u.machine.reg? ⟨4⟩ = some (.int 6) :=
  ⟨_, _, _, ⟨⟨0⟩, rfl, rfl⟩,
    ⟨hin, .inr ⟨_, _, .step rfl .refl, hout, rfl⟩⟩,
    ⟨hin, .inr ⟨_, _, .step rfl (.step rfl (.step rfl (.step rfl (.step rfl (.step rfl (.step rfl
      (.step rfl (.step rfl (.step rfl (.step rfl (.step rfl (.step rfl (.step rfl (.step rfl
      (.step rfl (.step rfl (.step rfl .refl))))))))))))))))), hout, rfl⟩⟩,
    ⟨_, _, _, _, .step (.start hin) rfl hin, ⟨rfl, _, rfl⟩,
      .step (.step (.step (.step (.step (.start hin) rfl hin) rfl hin) rfl hin) rfl hin) rfl hin,
      ⟨rfl, _, rfl⟩, rfl⟩,
    ⟨_, _, .step (.start hin) rfl hin, ⟨rfl, _, rfl⟩, rfl⟩⟩

/-- The sum leaves the inner loop of the tide. It writes five during the first stay, whenever it is
executed, and six during the second. -/
theorem hoistInvariants_steady_tide :
    tide.Built ∧ tide.validate = .ok () ∧ tide.SingleAssignment ∧ tide.GivenUnwritten ∧
    ∃ a r l, tide.analyze = .ok a ∧
      tide.hoistInvariants (Settings.withAliasPolicy {} .strict) = .ok r ∧
      a.forest.loop? ⟨1⟩ = some l ∧ r.TakesOut tide ⟨1⟩ l ⟨3⟩ ∧
      ∃ start s s' : Running, start.Starts tide { name := "sea" } [5] ∧
        s.ComesInto tide l start ∧ s'.ComesInto tide l start ∧
        s.Steady tide l ⟨3⟩ ∧ s'.Steady tide l ⟨3⟩ ∧
        (∃ t u t' u', s.Stays tide l t ∧ t.Executes tide ⟨3⟩ u ∧ u.Stays tide l t' ∧
          t'.Executes tide ⟨3⟩ u' ∧ u'.machine.reg? ⟨4⟩ = some (.int 5)) ∧
        ∃ t u, s'.Stays tide l t ∧ t.Executes tide ⟨3⟩ u ∧
          u.machine.reg? ⟨4⟩ = some (.int 6) := by
  have hg : tide.GivenUnwritten := by decide
  obtain ⟨a, r, -, ha, hr, -, hsteady⟩ := hoistInvariants_steady tide built_tide validate_tide
    singleAssignment_tide hg (Settings.withAliasPolicy {} .strict)
  obtain ⟨l, hl, htakes, hout, hin⟩ := exists_takesOut_tide ha hr
  obtain ⟨start, s, s', hstart, hs, hs', hfirst, hsecond⟩ := exists_two_stays hout hin
  exact ⟨built_tide, validate_tide, singleAssignment_tide, hg, a, r, l, ha, hr, hl, htakes,
    start, s, s', hstart, hs, hs', hsteady ⟨1⟩ l ⟨3⟩ hl htakes _ _ start s hstart hs,
    hsteady ⟨1⟩ l ⟨3⟩ hl htakes _ _ start s' hstart hs', hfirst, hsecond⟩

end LoopHoist
