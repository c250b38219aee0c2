import LoopHoist.Proofs.Machine.Purity
import LoopHoist.Proofs.Motion.Simulation

/-!
# The pass keeps what a run shows

A legal relocation is safe (`Legal.safe`): its operands and, for a load, the cell that it loads do
not change in the loop, by the rules for aliases. So a run before it and a run after it end alike
(`Departure.Safe.runWith_iff`), and by induction over the relocations of the pass so do the runs
of the function that enters the pass and of the one that leaves it.
-/

namespace LoopHoist

variable {f g g' : Function} {a : Analysis} {settings : Settings} {l : Loop} {r : Relocation}
  {src b : BlockId} {instr : Instruction} {kinds : ValueId → Kind} {i : InstId} {v : ValueId}
  {addr : Operand} {slots : StackSlots}

/-! ## Legal relocations -/

namespace Legal

variable (hr : Legal f a settings g r g' l src instr) (ha : Analyzed f a) (hg : f.Rearranged g)
  (hrun : g.Runnable kinds)
include hr ha

/-- A load that leaves a loop is safe in it. -/
theorem loadIsSafe {dst : ValueId} {ty : Ty} {access : Access}
    (hload : instr = .load dst ty addr access) :
    (LoopState.start f (.ofFunction f) settings l).loadIsSafe f addr = true := by
  rcases hr.hoistable with h | ⟨dst', ty', addr', access', heq, -, -, h⟩
  · rw [hload] at h
    cases h
  · rw [hload] at heq
    cases heq
    rw [← ha.slots]
    exact h

omit ha in
include hrun in
/-- Nothing in the loop writes an operand of the instruction. -/
theorem def?_ne_of_inside {i : InstId} {instr' : Instruction} (hb : l.contains b = true)
    (hi : i ∈ g.instsOf b) (hinst : g.inst? i = some instr') (hv : v ∈ instr.usedValues) :
    instr'.def? ≠ some v := fun hdef => by
  rcases hr.operands v hv with hgiven | ⟨j, c, hj, hjc, hout⟩
  · exact (hrun.given (i, instr') (Function.mem_placed.2 ⟨⟨b, hi⟩, hinst⟩) v hdef).1 hgiven
  · obtain ⟨instr'', hinst'', hdef'⟩ := hrun.coherent.def_inst v j hj
    have hjmem := (hrun.coherent.mem_iff j c).2 hjc
    obtain rfl := hrun.single.writesOnce b c i j instr' instr'' v hi hjmem hinst hinst'' hdef hdef'
    obtain rfl := hrun.coherent.eq_of_owner? hjc hi
    rw [hb] at hout
    cases hout

include hg hrun

/-- Nothing in the loop stores into the cell that the instruction loads. -/
theorem ne_of_store {m : Machine} {ty ty' : Ty} {src' into : Operand} {access access' : Access}
    {dst : ValueId} {p q : Address} (hm : m.Sound g kinds) (hb : l.contains b = true)
    (hi : i ∈ g.instsOf b) (hinst : g.inst? i = some (.store ty src' into access))
    (hinto : m.get g into = .ok (.ptr p)) (hload : instr = .load dst ty' addr access')
    (haddr : m.get g addr = .ok (.ptr q)) : p ≠ q := by
  have hstore : g.object? (.ofFunction f) into ∈
      (LoopMemory.ofLoop f (.ofFunction f) l).stores := by
    rw [← (hg.ofLoop_eq _ l).1]
    exact LoopMemory.mem_stores (List.contains_iff_mem.1 hb) hi hinst
  have hobject : g.object? (.ofFunction f) = f.object? (.ofFunction f) :=
    Function.object?_congr hg.def? fun _ => rfl
  rw [hobject] at hstore
  rintro rfl
  obtain ⟨v, rfl, ⟨⟨name, hname⟩, hstores⟩ | ⟨hpriv, ⟨j, hj⟩, hstores⟩⟩ :=
    LoopState.loadIsSafe_cases (hr.loadIsSafe ha hload)
  · -- A global: the store is to another global or to a slot.
    rw [Machine.get_global ((hg.def? v).trans hname)] at haddr
    obtain rfl : (⟨.global name, 0⟩ : Address) = p := by simpa using haddr
    obtain ⟨t, ht, hne⟩ := hstores _ hstore
    obtain ⟨w, rfl, ⟨⟨name', hname'⟩, rfl⟩ | ⟨⟨k, hk⟩, hslot, rfl⟩⟩ := Function.object?_eq_some ht
    · rw [Machine.get_global ((hg.def? w).trans hname')] at hinto
      obtain rfl : name' = name := by simpa using hinto
      have hw := hrun.coherent.def_global w name' ((hg.def? w).trans hname')
      have hv := hrun.coherent.def_global v name' ((hg.def? v).trans hname)
      exact hne (congrArg MemObject.global (Option.some.inj (hw.symm.trans hv)))
    · obtain ⟨n, hn⟩ := hm.orderly.start w _ (hg.slot_iff.2 hslot)
        (Machine.reg?_of_get ((hg.def? w).trans hk) hinto)
      simp at hn
  · -- A private slot: only its own value leads to it, and the store is to another.
    have hreg := Machine.reg?_of_get ((hg.def? v).trans hj) haddr
    obtain ⟨n, rfl⟩ := hm.orderly.start v _ (hg.slot_iff.2 hpriv.1) hreg
    rcases Machine.get_eq_ok hinto with ⟨c, -, hc⟩ | ⟨w, name, -, -, hc⟩ | ⟨w, rfl, hw⟩
    · cases c <;> cases hc
    · cases hc
    · have howned := hm.orderly.owned v n (hg.slot_iff.2 hpriv.1) ⟨_, hreg, rfl⟩
      obtain rfl := Holder.reg.inj
        (howned.secret trivial (hg.private_iff.2 hpriv) (.reg w) ⟨_, hw, rfl⟩)
      refine hstores ?_
      have hobj : f.object? (.ofFunction f) (.value w) = some (.stack w) := by
        unfold Function.object?
        simp only [Operand.value?, hj, StackSlots.isSlot_iff.2 hpriv.1, if_true]
      exact hobj ▸ hstore

/-- The instruction cannot trap when its operands have values of their kinds. -/
theorem exists_resultOf {m : Machine} (hm : m.Sound g kinds)
    (hget : ∀ o ∈ instr.operands, Reads (m.get g) o (o.kind kinds)) :
    ∃ a, m.resultOf g instr = .ok a := by
  have hplaced : (r.inst, instr) ∈ g.placed :=
    Function.mem_placed.2 ⟨⟨src, (hrun.coherent.mem_iff _ _).2 hr.owner⟩, hr.content⟩
  cases hinstr : instr with
  | compute dst c =>
    rw [hinstr] at hplaced hget
    have htotal : c.isTotal = true := by
      have hm := hr.hoistable.movable
      rw [hinstr, Instruction.category] at hm
      split at hm
      · assumption
      · cases hm
    have htakes : c.Takes (m.get g) :=
      Computation.KindCorrect.takes (hrun.kindCorrect.placed _ hplaced) hget
    exact Computation.exists_eval htotal (fun _ => rfl) htakes
  | load dst ty addr access =>
    -- The address is known to be one.
    obtain ⟨a, ha', -⟩ := hget addr (by simp [hinstr, Instruction.operands])
    obtain ⟨p, rfl⟩ : ∃ p, a = .ptr p := by
      obtain ⟨v, rfl, ⟨⟨name, hname⟩, -⟩ | ⟨hpriv, ⟨j, hj⟩, -⟩⟩ :=
        LoopState.loadIsSafe_cases (hr.loadIsSafe ha hinstr)
      · rw [Machine.get_global ((hg.def? v).trans hname)] at ha'
        exact ⟨_, (Except.ok.inj ha').symm⟩
      · exact hm.slots v _ (hg.slot_iff.2 hpriv.1)
          (Machine.reg?_of_get ((hg.def? v).trans hj) ha')
    refine ⟨m.cell p, ?_⟩
    simp only [Machine.resultOf, ha', Val.asAddress, bind, Except.bind]
    rfl
  | _ =>
    have hm := hr.hoistable.movable
    rw [hinstr] at hm
    cases hm

/-- A legal relocation is safe. -/
theorem safe {dst : ValueId} (hdst : instr.def? = some dst) :
    Departure.Safe ⟨r.inst, instr, dst, src, r.preheader, l.header⟩ kinds g g' := by
  obtain ⟨hgate, hreach⟩ := ha.isGate hr.loop hr.preheader
  have hinside : ∀ {b}, (Cfg.ofFunction g).InBody l.header b → l.contains b = true := fun {b} hb =>
    (ha.contains_iff hr.loop).2 (hg.graph ▸ hb)
  exact {
    runnable := hrun
    rearranged := hr.rearranged ha hg
    relocates := hr.exists_relocates ha hg
    content := hr.content
    result := hdst
    movable := hr.hoistable.movable
    gate := hg.graph.symm ▸ hgate
    inside := hg.graph.symm ▸ (ha.contains_iff hr.loop).1 hr.inside
    reachable := hg.graph.symm ▸ hreach
    available := fun zs t hzs v hv => hrun.single.available_operand hr ha hg hzs hv
    unwritten := fun b i instr' hb hi hinst v hv =>
      hr.def?_ne_of_inside hrun (hinside hb) hi hinst hv
    total := fun m hm hget => hr.exists_resultOf ha hg hrun hm hget
    undisturbed := fun m b i ty src' into access p hm hb hi hinst hinto dst ty' addr access' q
      hload haddr => hr.ne_of_store ha hg hrun hm (hinside hb) hi hinst hinto hload haddr }

/-- After a legal relocation the function can run as before. -/
theorem runnable : g'.Runnable kinds := by
  have hg' := hr.rearranged ha hg
  exact {
    coherent := hg'.coherent
    wellFormed := hg'.wellFormed
    single := hrun.single.of_legal hr ha hg
    given := hg'.givenUnwritten hrun.given
    kindCorrect := hg'.kindCorrect hrun.kindCorrect }

end Legal

/-! ## Runs of functions -/

/-- Runs of a function in which an instruction is moved safely start in step. -/
theorem Departure.Safe.start {d : Departure} (hd : d.Safe kinds g g') {e : BlockId}
    (he : g.entry = some e) (m : Machine) :
    (∃ h, Running.enter g none e m = .error h ∧ Running.enter g' none e m = .error h) ∨
      ∃ u u', Running.enter g none e m = .ok u ∧ Running.enter g' none e m = .ok u' ∧
        d.Matches g g' u u' := by
  obtain ⟨e', he', hh⟩ := hd.runnable.wellFormed.entry
  obtain rfl := Option.some.inj (he.symm.trans he')
  refine hd.enter hh (.refl _ m) ?_ (fun _ _ => rfl) fun hin => ?_
  · exact Machine.phiValues_congr (hd.rearranged.phisOf_eq e) fun _ _ _ _ _ _ _ _ hc => by cases hc
  · -- The entry is not in the loop, since the preheader would come before it.
    have hmem := hd.gate.dominates_body hin e [e] he .here
    exact absurd (List.mem_singleton.1 hmem ▸ hin) hd.gate.outside

/-- The first step of a run leads to a sound run. -/
theorem Running.Sound.start (hf : f.Runnable kinds) {e : BlockId} (he : f.entry = some e)
    (module : Module) {args : List Int64} (hargs : f.params.length ≤ args.length) {s : Running}
    (hs : Running.enter f none e (Machine.start module f args) = .ok s) : s.Sound f kinds := by
  obtain ⟨e', he', hh⟩ := hf.wellFormed.entry
  obtain rfl := Option.some.inj (he.symm.trans he')
  obtain ⟨rfl, henters⟩ := Running.enters_of_enter hf.wellFormed hh hs
  refine enters hf (Machine.sound_start hf module hargs) (Cfg.reachable_entry he) ?_ henters
  -- No other block dominates the entry.
  intro j instr v c _ _ hce hdom _
  exact absurd (List.mem_singleton.1 (hdom _ _ he .here)) hce

/-- A run starts by entering the entry. -/
theorem Function.runWith_eq {b : BlockId} (hb : f.entry = some b) (n : Nat) (module : Module)
    (args : List Int64) : f.runWith n module args =
      match Running.enter f none b (Machine.start module f args) with
      | .error h => h
      | .ok s => s.run f n := by
  unfold runWith
  cases hs : Running.enter f none b (Machine.start module f args) <;> simp only [hb, hs]

/-- Moving an instruction safely changes no end of a run. -/
theorem Departure.Safe.runWith_iff {d : Departure} (hd : d.Safe kinds g g') (module : Module)
    {args : List Int64} (hargs : g.params.length ≤ args.length) {e : Halt}
    (he : e ≠ .trapped .outOfFuel) :
    (∃ n, g.runWith n module args = e) ↔ ∃ n, g'.runWith n module args = e := by
  obtain ⟨b, hb, -⟩ := hd.runnable.wellFormed.entry
  have hstart : Machine.start module g' args = Machine.start module g args := by
    unfold Machine.start
    rw [hd.rearranged.params]
  simp only [Function.runWith_eq hb, Function.runWith_eq (hd.rearranged.entry.trans hb), hstart]
  rcases hd.start hb (Machine.start module g args) with ⟨h, hh, hh'⟩ | ⟨u, u', hu, hu', hm⟩
  · rw [hh, hh']
  · rw [hu, hu']
    have hs := Running.Sound.start hd.runnable hb module hargs hu
    constructor
    · rintro ⟨n, rfl⟩
      exact hd.inStep.exists_run ⟨hm, hs⟩ he
    · rintro ⟨n, rfl⟩
      exact hd.inStep.symm.exists_run ⟨hm, hs⟩ he

/-! ## The pass -/

/-- A run of the pass gives a function that can run, and whose runs end as before. -/
theorem Trace.runWith_iff {rs : List Relocation} (h : Trace f a settings rs g) (ha : Analyzed f a)
    (hf : f.Runnable kinds) : g.Runnable kinds ∧
      ∀ (module : Module) (args : List Int64) (e : Halt), f.params.length ≤ args.length →
        e ≠ .trapped .outOfFuel →
        ((∃ n, f.runWith n module args = e) ↔ ∃ n, g.runWith n module args = e) := by
  induction h with
  | start => exact ⟨hf, fun _ _ _ _ _ => Iff.rfl⟩
  | @step rs g r g' l src instr htrace hr ih =>
    obtain ⟨hrun, hiff⟩ := ih
    have hg := htrace.rearranged ha hf.coherent hf.wellFormed
    obtain ⟨dst, hdst⟩ := (exists_def_of_movable hr.hoistable.movable).2.2
    have hsafe := hr.safe ha hg hrun hdst
    refine ⟨hr.runnable ha hg hrun, fun module args e hargs he => ?_⟩
    exact (hiff module args e hargs he).trans
      (hsafe.runWith_iff module (hg.params.symm ▸ hargs) he)

/-- More fuel changes no run that did not use it up. -/
theorem Running.run_eq_of_le {s : Running} {n n' : Nat} (hn : s.run f n ≠ .trapped .outOfFuel)
    (hle : n ≤ n') : s.run f n' = s.run f n := by
  induction n generalizing s n' with
  | zero => exact absurd rfl hn
  | succ n ih =>
    obtain ⟨k, rfl⟩ := Nat.exists_eq_add_of_le' hle
    rw [← Nat.add_assoc, run]
    rw [run] at hn ⊢
    split
    · rfl
    · next s' hs =>
      rw [hs] at hn
      exact ih hn (Nat.le_add_left _ _)

/-- Runs of a function that do not use up their fuel end in one way. -/
theorem Function.runWith_unique {module : Module} {args : List Int64} {n n' : Nat}
    (hn : f.runWith n module args ≠ .trapped .outOfFuel)
    (hn' : f.runWith n' module args ≠ .trapped .outOfFuel) :
    f.runWith n module args = f.runWith n' module args := by
  unfold runWith at hn hn' ⊢
  cases hb : f.entry with
  | none => rfl
  | some b =>
    simp only [hb] at hn hn' ⊢
    cases hs : Running.enter f none b (Machine.start module f args) with
    | error h => rfl
    | ok s =>
      simp only [hs] at hn hn' ⊢
      rcases Nat.le_total n n' with hle | hle
      · exact (Running.run_eq_of_le hn hle).symm
      · exact Running.run_eq_of_le hn' hle

/-- The pass keeps what runs show. For a function in single-assignment form that has an assignment
of kinds and writes none of its parameters and globals, the pass succeeds, and on every module and
all arguments the function that it gives ends, with enough fuel, in exactly the ways in which the
function that entered it ends: with the same outcome or the same trap. So two runs of them that do
not run out of fuel end alike. -/
theorem hoistInvariants_preserves (f : Function) (hb : f.Built) (hv : f.validate = .ok ())
    (hs : f.SingleAssignment) (hn : f.GivenUnwritten) (hk : ∃ kinds, f.KindCorrect kinds)
    (settings : Settings) :
    ∃ r counters, f.hoistInvariants settings = .ok r ∧ r.result = .ok counters ∧
      ∀ (m : Module) (args : List Int64), f.params.length ≤ args.length →
        (∀ e, e ≠ .trapped .outOfFuel →
          ((∃ n, f.runWith n m args = e) ↔ ∃ n, r.function.runWith n m args = e)) ∧
        ∀ n n', f.runWith n m args ≠ .trapped .outOfFuel →
          r.function.runWith n' m args ≠ .trapped .outOfFuel →
          r.function.runWith n' m args = f.runWith n m args := by
  have hw := Function.violation?_eq_none_iff.1 (Function.validate_eq_ok_iff.1 hv)
  obtain ⟨kinds, hkinds⟩ := hk
  obtain ⟨a, r, counters, ha, hr, hres, htrace⟩ := exists_hoistInvariants hb.coherent hw settings
  obtain ⟨-, hiff⟩ := htrace.runWith_iff ha ⟨hb.coherent, hw, hs, hn, hkinds⟩
  refine ⟨r, counters, hr, hres, fun m args hargs => ⟨fun e he => hiff m args e hargs he, ?_⟩⟩
  intro n n' hf hg
  obtain ⟨n'', hn''⟩ := (hiff m args _ hargs hf).1 ⟨n, rfl⟩
  rw [← hn''] at hf ⊢
  exact Function.runWith_unique hg hf

/-- A loop that doubles a global into another one, as often as there is time. -/
def doubling : Function :=
  Function.edits { name := "doubling" }
    [.addParam .i64, .addGlobal "price", .addGlobal "total", .addBlock "entry", .addBlock "loop",
      .addBlock "exit", .addValue, .addValue,
      .append ⟨0⟩ (.jump ⟨1⟩),
      .append ⟨1⟩ (.load ⟨3⟩ .i64 (.value ⟨1⟩) {}),
      .append ⟨1⟩ (.compute ⟨4⟩ (.int .add .i64 (.value ⟨3⟩) (.value ⟨3⟩))),
      .append ⟨1⟩ (.store .i64 (.value ⟨4⟩) (.value ⟨2⟩) {}),
      .append ⟨1⟩ (.branch (.value ⟨0⟩) ⟨1⟩ ⟨2⟩), .append ⟨2⟩ (.ret none)]

/-- The doubling shows after the pass what it showed before, also where the load moves past the
store. -/
theorem hoistInvariants_preserves_doubling :
    doubling.validate = .ok () ∧ ∃ r, doubling.hoistInvariants { aliasPolicy := .strict } = .ok r ∧
      ∀ (m : Module) (n : Int64) (k k' : Nat), doubling.runWith k m [n] ≠ .trapped .outOfFuel →
        r.function.runWith k' m [n] ≠ .trapped .outOfFuel →
        r.function.runWith k' m [n] = doubling.runWith k m [n] := by
  have hv : doubling.validate = .ok () := Function.validate_eq_ok_iff.2 (by decide)
  have hk : doubling.KindCorrect fun v => if v.index = 1 ∨ v.index = 2 then .ptr else .int := by
    decide
  obtain ⟨r, counters, hr, -, hpres⟩ := hoistInvariants_preserves doubling
    ((Function.Built.new "doubling" [] none).edits _ (by decide)) hv
    (.of_local (by decide) (by decide) (by decide)) (by decide) ⟨_, hk⟩ { aliasPolicy := .strict }
  have hargs : doubling.params.length = 1 := by decide
  exact ⟨hv, r, hr, fun m n => (hpres m [n] (Nat.le_of_eq hargs)).2⟩

end LoopHoist
