import LoopHoist.Proofs.Machine.Soundness

/-!
# One relocation during a run

Two runs are compared, of a function and of the same function with one instruction moved from a loop
to the preheader. They go in step but for the moved instruction, which the one executes whenever it
comes by its old place and the other once before the loop. In between (`Departure.Matches`) the
machines agree but for the register of the result, with two things known of it:

* where the first run has passed the old place on every way, both machines hold the same result, so
  whoever uses the result sees no difference;
* in the loop, the second machine holds what the instruction would give now. Nothing in the loop
  writes its operands or, if it is a load, the cell that it loads (`Departure.Safe`).
-/

namespace LoopHoist

variable {f g g' : Function} {kinds : ValueId → Kind} {s s' u u' : Running} {m m' n : Machine}
  {i j : InstId} {b c : BlockId} {v : ValueId} {instr : Instruction} {a : Val}
  {before rest : List InstId}

/-- An instruction that is to leave a loop: what it is, what it writes, and its way. -/
structure Departure where
  /-- The instruction. -/
  inst : InstId
  /-- What it is. -/
  content : Instruction
  /-- The value that it writes. -/
  result : ValueId
  /-- The block that it leaves. -/
  source : BlockId
  /-- The block that it goes to. -/
  target : BlockId
  /-- The header of the loop. -/
  header : BlockId

namespace Departure

/-- What makes it safe to move the instruction in `g`, which gives `g'`. -/
structure Safe (d : Departure) (kinds : ValueId → Kind) (g g' : Function) : Prop where
  /-- The function can run. -/
  runnable : g.Runnable kinds
  /-- The other function is a rearrangement of it. -/
  rearranged : g.Rearranged g'
  /-- The instruction is moved, and nothing else. -/
  relocates : ∃ xs ys zs t, g.Relocates g' d.inst d.source d.target xs ys zs t
  /-- The instruction has the content. -/
  content : g.inst? d.inst = some d.content
  /-- The instruction has the result. -/
  result : d.content.def? = some d.result
  /-- Instructions of its class may be moved. -/
  movable : d.content.category.movable = true
  /-- It goes to the preheader. -/
  gate : (Cfg.ofFunction g).IsGate d.header d.target
  /-- It comes from the loop. -/
  inside : (Cfg.ofFunction g).InBody d.header d.source
  /-- The preheader is reachable. -/
  reachable : (Cfg.ofFunction g).Reachable d.target
  /-- Its operands are available at the end of the preheader. -/
  available : ∀ zs t, g.instsOf d.target = zs ++ [t] → ∀ v ∈ d.content.usedValues,
    g.Available d.target zs v
  /-- Nothing in the loop writes its operands. -/
  unwritten : ∀ b i instr, (Cfg.ofFunction g).InBody d.header b → i ∈ g.instsOf b →
    g.inst? i = some instr → ∀ v ∈ d.content.usedValues, instr.def? ≠ some v
  /-- It cannot trap. -/
  total : ∀ m : Machine, m.Sound g kinds →
    (∀ o ∈ d.content.operands, ∃ a, m.get g o = .ok a ∧ (o.kind kinds).Covers a.kind) →
    ∃ a, m.resultOf g d.content = .ok a
  /-- Nothing in the loop stores into the cell that it loads. -/
  undisturbed : ∀ (m : Machine) b i ty from' into access p, m.Sound g kinds →
    (Cfg.ofFunction g).InBody d.header b → i ∈ g.instsOf b →
    g.inst? i = some (.store ty from' into access) → m.get g into = .ok (.ptr p) →
    ∀ dst ty addr access q, d.content = .load dst ty addr access →
      m.get g addr = .ok (.ptr q) → p ≠ q

/-- Whether every way of the run to where it is has passed the old place of the instruction. -/
def Passed (d : Departure) (g : Function) (s : Running) : Prop :=
  if s.block = d.source then d.inst ∉ s.rest
  else (Cfg.ofFunction g).Dominates d.source s.block

/-- Whether the run is in the loop, or before it and behind the new place of the instruction. -/
def Armed (d : Departure) (g : Function) (s : Running) : Prop :=
  (Cfg.ofFunction g).InBody d.header s.block ∨ s.block = d.target ∧ d.inst ∉ s.rest

/-- How a run of `g` and a run of `g'` stand to each other. -/
structure Matches (d : Departure) (g g' : Function) (s s' : Running) : Prop where
  /-- The runs are in the same block. -/
  block : s'.block = s.block
  /-- They have the same instructions to go, the moved one apart. -/
  rest : s'.rest.erase d.inst = s.rest.erase d.inst
  /-- The instructions to come are the end of the block. -/
  place : ∃ before, g'.instsOf s'.block = before ++ s'.rest
  /-- The machines agree but for the result. -/
  machine : s.machine.AgreeOff d.result s'.machine
  /-- They agree on the result where the first run has passed the instruction. -/
  passed : d.Passed g s → s'.machine.reg? d.result = s.machine.reg? d.result
  /-- In the loop the second run has the result already. -/
  armed : d.Armed g s' → ∃ a, s'.machine.reg? d.result = some a ∧
    s.machine.resultOf g d.content = .ok a

namespace Safe

variable {d : Departure} (hd : d.Safe kinds g g')
include hd

/-- The instruction is in its old block and nowhere else. -/
theorem mem_iff : d.inst ∈ g.instsOf b ↔ b = d.source := by
  obtain ⟨xs, ys, zs, t, h⟩ := hd.relocates
  exact ⟨h.eq_source_of_mem hd.runnable.coherent, fun hb => hb ▸ h.mem_source⟩

/-- The instruction is in its new block and nowhere else. -/
theorem mem_iff' : d.inst ∈ g'.instsOf b ↔ b = d.target := by
  obtain ⟨xs, ys, zs, t, h⟩ := hd.relocates
  exact h.mem_iff_self hd.runnable.coherent

/-- The blocks list the same instructions, the moved one apart. -/
theorem erase_eq (b : BlockId) : (g'.instsOf b).erase d.inst = (g.instsOf b).erase d.inst := by
  obtain ⟨xs, ys, zs, t, h⟩ := hd.relocates
  have hnot : ∀ c, d.inst ∉ g.instsOf c → (g.instsOf c).erase d.inst = g.instsOf c :=
    fun c hc => List.erase_of_not_mem hc
  by_cases hs : b = d.source
  · subst hs
    have hnot' : d.inst ∉ g'.instsOf d.source := fun hm => h.ne (hd.mem_iff'.1 hm)
    have hxs : d.inst ∉ xs := fun hx => hnot' (by rw [h.source_after]; simp [hx])
    rw [List.erase_of_not_mem hnot', h.source, h.source_after, List.erase_append_right _ hxs,
      List.erase_cons_head]
  · rw [hnot b fun hm => hs (hd.mem_iff.1 hm)]
    by_cases ht : b = d.target
    · subst ht
      have hzs : d.inst ∉ zs := fun hz => hs (hd.mem_iff.1 (by rw [h.target]; simp [hz]))
      rw [h.target, h.target_after, List.erase_append_right _ hzs, List.erase_cons_head]
    · rw [← h.other b hs ht, List.erase_of_not_mem fun hm => ht (hd.mem_iff'.1 hm)]

/-- The instruction is placed. -/
theorem mem_placed : (d.inst, d.content) ∈ g.placed :=
  Function.mem_placed.2 ⟨⟨d.source, hd.mem_iff.2 rfl⟩, hd.content⟩

/-- No operand is the result. -/
theorem ne_result (hv : v ∈ d.content.usedValues) : v ≠ d.result := fun heq =>
  hd.unwritten d.source d.inst d.content hd.inside (hd.mem_iff.2 rfl) hd.content v hv
    (heq ▸ hd.result)

/-- No other instruction writes the result. -/
theorem def?_ne (hi : i ∈ g.instsOf b) (hinst : g.inst? i = some instr) (hne : i ≠ d.inst) :
    instr.def? ≠ some d.result := fun hdef =>
  hne (hd.runnable.single.writesOnce b d.source i d.inst instr d.content d.result hi
    (hd.mem_iff.2 rfl) hinst hd.content hdef hd.result)

/-- Where the result is available, the old place is passed. -/
theorem passed_of_available (hl : g.instsOf s.block = before ++ s.rest)
    (hv : g.Available s.block before d.result) : d.Passed g s := by
  obtain ⟨j, hj, hwhere⟩ := hv.resolve_left
    (hd.runnable.given _ hd.mem_placed d.result hd.result).1
  obtain ⟨instr, hinst, hdef⟩ := hd.runnable.coherent.def_inst d.result j hj
  have heq : ∀ {b}, j ∈ g.instsOf b → j = d.inst := fun {b} hmem =>
    Classical.byContradiction fun hne => hd.def?_ne hmem hinst hne hdef
  unfold Passed
  rcases hwhere with hmem | ⟨c, hcb, hdom, hmem⟩
  · have hin : j ∈ g.instsOf s.block := by rw [hl]; exact List.mem_append_left _ hmem
    obtain rfl := heq hin
    rw [if_pos (hd.mem_iff.1 hin)]
    have hnd := hd.runnable.coherent.nodup s.block
    rw [hl] at hnd
    exact fun hrest => (List.nodup_append.1 hnd).2.2 _ hmem _ hrest rfl
  · obtain rfl := heq hmem
    obtain rfl := hd.mem_iff.1 hmem
    rw [if_neg (Ne.symm hcb)]
    exact hdom

/-- An instruction of the loop leaves what the moved instruction gives as it is. -/
theorem resultOf_perform (hm : m.Sound g kinds) (hb : (Cfg.ofFunction g).InBody d.header b)
    (hi : i ∈ g.instsOf b) (hinst : g.inst? i = some instr) (h : m.perform g instr = .ok n) :
    n.resultOf g d.content = m.resultOf g d.content := by
  refine Machine.resultOf_congr (fun o ho => ?_) fun dst ty addr access q hload hq => ?_
  · refine Machine.get_congr (fun _ => rfl) fun v hv _ => Machine.reg?_perform h ?_
    exact hd.unwritten b i instr hb hi hinst v (Instruction.mem_usedValues ho hv)
  · rcases (Machine.perform_cases h).2 with ⟨-, -, -, -, -, -, hmem⟩ |
      ⟨ty', src, into, access', x, p, rfl, hp, -, rfl⟩ | ⟨-, -, hmem⟩
    · rw [Machine.cell_congr hmem]
    · rw [Machine.cell_setCell, if_neg]
      exact hd.undisturbed m b i ty' src into access' p hm hb hi hinst hp dst ty addr access q
        hload hq
    · rw [Machine.cell_congr hmem]

/-- The phis of the loop leave what the moved instruction gives as it is. -/
theorem resultOf_setAll {came : Option BlockId} {vals : List (ValueId × Val)}
    (hb : (Cfg.ofFunction g).InBody d.header b) (h : m.phiValues g came b = .ok vals) :
    (m.setAll vals).resultOf g d.content = m.resultOf g d.content := by
  refine Machine.resultOf_congr (fun o ho => ?_) fun _ _ _ _ q _ _ => ?_
  · refine Machine.get_congr (fun _ => rfl) fun v hv _ => Machine.reg?_setAll fun p hp heq => ?_
    obtain ⟨i, ty, ins, -, -, hi, hinst, -⟩ := (Machine.phiValues_eq_ok h).1 p hp
    refine hd.unwritten b i _ hb hi hinst v (Instruction.mem_usedValues ho hv) ?_
    exact congrArg some heq
  · rw [Machine.cell_congr (Machine.memory_setAll m vals)]

/-- Machines that agree but for the result give the moved instruction the same result. -/
theorem resultOf_agree (h : m.AgreeOff d.result m') :
    m'.resultOf g' d.content = m.resultOf g d.content := by
  refine Machine.resultOf_congr (fun o ho => ?_) fun _ _ _ _ q _ _ => ?_
  · refine Machine.get_congr hd.rearranged.def? fun v hv _ => h.regs v (hd.ne_result ?_)
    exact Instruction.mem_usedValues ho hv
  · rw [Machine.cell_congr h.memory]

/-- Behind its new place there is only the terminator. -/
theorem length_le_one (hl : g'.instsOf d.target = before ++ rest) (hx : d.inst ∉ rest) :
    rest.length ≤ 1 := by
  obtain ⟨xs, ys, zs, t, h⟩ := hd.relocates
  rw [h.target_after] at hl
  rcases List.append_eq_append_iff.1 hl with ⟨as, -, has⟩ | ⟨as, -, has⟩
  · cases as with
    | nil =>
      rw [List.nil_append] at has
      exact absurd (has ▸ List.mem_cons_self) hx
    | cons k as =>
      have hlen := congrArg List.length has
      simp only [List.cons_append, List.length_cons, List.length_append, List.length_nil] at hlen
      omega
  · exact absurd (by rw [has]; simp) hx

/-- Two machines that enter a block from matching places enter it matching. -/
theorem enter {came : Option BlockId} (hb : g.hasBlock b = true) (hm : m.AgreeOff d.result m')
    (hphis : m'.phiValues g' came b = m.phiValues g came b)
    (hpassed : b ≠ d.source → (Cfg.ofFunction g).Dominates d.source b →
      m'.reg? d.result = m.reg? d.result)
    (harmed : (Cfg.ofFunction g).InBody d.header b →
      ∃ a, m'.reg? d.result = some a ∧ m.resultOf g d.content = .ok a) :
    (∃ h, Running.enter g came b m = .error h ∧ Running.enter g' came b m' = .error h) ∨
      ∃ u u', Running.enter g came b m = .ok u ∧ Running.enter g' came b m' = .ok u' ∧
        d.Matches g g' u u' := by
  rw [Running.enter_eq hd.runnable.wellFormed hb,
    Running.enter_eq hd.rearranged.wellFormed ((hd.rearranged.hasBlock b).trans hb), hphis]
  cases hvals : m.phiValues g came b with
  | error t => exact .inl ⟨_, rfl, rfl⟩
  | ok vals =>
    -- No phi writes the result.
    have hresult : ∀ k : Machine, (k.setAll vals).reg? d.result = k.reg? d.result := fun k =>
      Machine.reg?_setAll fun p hp heq => by
        obtain ⟨i, ty, ins, -, -, hi, hinst, -⟩ := (Machine.phiValues_eq_ok hvals).1 p hp
        refine hd.def?_ne hi hinst (fun hid => ?_) (congrArg some heq)
        rw [hid, hd.content] at hinst
        exact (exists_def_of_movable hd.movable).2.1 _ _ _ (Option.some.inj hinst)
    refine .inr ⟨_, _, rfl, rfl, ⟨rfl, hd.erase_eq b, ⟨[], rfl⟩, hm.setAll vals, fun hp => ?_,
      fun hp => ?_⟩⟩
    · unfold Passed at hp
      dsimp only at hp ⊢
      rw [hresult, hresult]
      split at hp
      · next hs => exact absurd (hd.mem_iff.2 hs) hp
      · next hs => exact hpassed hs hp
    · rcases hp with hp | ⟨ht, hp⟩
      · obtain ⟨a, ha, hres⟩ := harmed hp
        exact ⟨a, (hresult m').trans ha, (hd.resultOf_setAll hp hvals).trans hres⟩
      · exact absurd (hd.mem_iff'.2 ht) hp

end Safe

namespace Matches

variable {d : Departure} (hd : d.Safe kinds g g') (hm : d.Matches g g' s s')
  (hs : s.Sound g kinds)
include hd hm

/-- What is available has the same value in both runs. -/
theorem get_eq (hl : g.instsOf s.block = before ++ s.rest) {o : Operand}
    (ho : ∀ v, o = .value v → g.Available s.block before v) :
    s'.machine.get g' o = s.machine.get g o := by
  refine Machine.get_congr hd.rearranged.def? fun v hv _ => ?_
  by_cases hr : v = d.result
  · subst hr
    exact hm.passed (hd.passed_of_available hl (ho _ hv))
  · exact hm.machine.regs v hr

/-- The operands of the next instruction have the same values in both runs, but for those of a
phi. -/
theorem operands_eq (hs : s.Sound g kinds) (hl : g.instsOf s.block = before ++ i :: rest)
    (hrest : s.rest = i :: rest) (hinst : g.inst? i = some instr)
    (hphi : ∀ dst ty ins, instr ≠ .phi dst ty ins) :
    ∀ o ∈ instr.operands, s'.machine.get g' o = s.machine.get g o := fun o ho =>
  hm.get_eq hd (hl.trans (by rw [hrest])) fun v hv =>
    hd.runnable.single.uses _ _ i _ instr hs.reachable hl hinst hphi v
      (Instruction.mem_usedValues ho hv)

omit hd in
/-- If neither run is at the moved instruction, they are at the same one. -/
theorem exists_rest (hrest : s.rest = i :: rest) (hi : i ≠ d.inst)
    (hx : ∀ r, s'.rest ≠ d.inst :: r) :
    ∃ rest', s'.rest = i :: rest' ∧ rest'.erase d.inst = rest.erase d.inst := by
  have h := hm.rest
  rw [hrest, List.erase_cons_tail (by simpa using hi)] at h
  cases hs' : s'.rest with
  | nil =>
    rw [hs'] at h
    cases h
  | cons j rest' =>
    have hj : j ≠ d.inst := fun hj => hx rest' (by rw [hs', hj])
    rw [hs', List.erase_cons_tail (by simpa using hj)] at h
    obtain ⟨rfl, htail⟩ := List.cons.inj h
    exact ⟨rest', rfl, htail⟩

/-- Away from the moved instruction, the runs do the same inside a block. -/
theorem step_inside (hl : g.instsOf s.block = before ++ s.rest) (hrest : s.rest = i :: j :: rest)
    (hs : s.Sound g kinds) (hi : i ≠ d.inst) (hx : ∀ r, s'.rest ≠ d.inst :: r) :
    (∃ h, s.step g = .error h ∧ s'.step g' = .error h) ∨
      ∃ u u', s.step g = .ok u ∧ s'.step g' = .ok u' ∧ d.Matches g g' u u' := by
  obtain ⟨rest', hrest', herase⟩ := hm.exists_rest hrest hi hx
  obtain ⟨before', hl'⟩ := hm.place
  rw [hrest] at hl
  rw [hrest'] at hl'
  have hmem : i ∈ g.instsOf s.block := by rw [hl]; simp
  obtain ⟨instr, hinst⟩ := hd.runnable.wellFormed.exists_inst? hmem
  have hinst' : g'.inst? i = some instr := (hd.rearranged.inst? i).trans hinst
  have hn : instr.isTerminator = false := by
    rw [Bool.eq_false_iff, Ne, hd.runnable.wellFormed.terminator _ _ _ _ _ hl hinst]
    simp
  -- Something follows in the second run as well.
  obtain ⟨j', r', rfl⟩ : ∃ j' r', rest' = j' :: r' := List.exists_cons_of_ne_nil fun hnil => by
    have := (hd.rearranged.wellFormed.terminator _ _ _ _ _ hl' hinst').2 hnil
    rw [hn] at this
    cases this
  rw [Running.step_inside hrest hinst hn, Running.step_inside hrest' hinst' hn]
  rcases hm.machine.perform (hm.operands_eq hd hs hl hrest hinst) with
    ⟨t, ht, ht'⟩ | ⟨n, n', hperf, hperf', hagree⟩
  · rw [ht, ht']
    exact .inl ⟨_, rfl, rfl⟩
  · rw [hperf, hperf']
    have hres := Machine.reg?_perform hperf (hd.def?_ne hmem hinst hi)
    have hres' := Machine.reg?_perform hperf' (hd.def?_ne hmem hinst hi)
    refine .inr ⟨_, _, rfl, rfl, ⟨hm.block, herase, ⟨before' ++ [i], by simp [hl']⟩, hagree,
      fun hp => ?_, fun hp => ?_⟩⟩
    · dsimp only
      rw [hres, hres']
      refine hm.passed ?_
      unfold Passed at hp ⊢
      rw [hrest]
      split
      · next hsrc =>
        rw [if_pos hsrc] at hp
        exact fun hmem => (List.mem_cons.1 hmem).elim (fun h => hi h.symm) hp
      · next hsrc =>
        rw [if_neg hsrc] at hp
        exact hp
    · have hin : (Cfg.ofFunction g).InBody d.header s.block := by
        rcases hp with hp | ⟨ht, hp⟩
        · exact hm.block ▸ hp
        · -- Behind the new place there is only the terminator.
          have hx' : d.inst ∉ i :: j' :: r' := fun hmem =>
            (List.mem_cons.1 hmem).elim (fun h => hi h.symm) hp
          have hlen := hd.length_le_one (ht ▸ hl') hx'
          simp at hlen
      obtain ⟨a, ha, hval⟩ := hm.armed (.inl (hm.block.symm ▸ hin))
      refine ⟨a, hres'.trans ha, ?_⟩
      exact (hd.resultOf_perform hs.machine hin hmem hinst hperf).trans hval

/-- The phis of the next block take the same values in both runs, if the end of the current block
is behind the old place where they read the result. -/
theorem phiValues_eq (hs : s.Sound g kinds) (hsucc : b ∈ (Cfg.ofFunction g).succ s.block)
    (hend : (s.block ≠ d.source → (Cfg.ofFunction g).Dominates d.source s.block) →
      s'.machine.reg? d.result = s.machine.reg? d.result) :
    s'.machine.phiValues g' (some s.block) b = s.machine.phiValues g (some s.block) b := by
  refine Machine.phiValues_congr (hd.rearranged.phisOf_eq b)
    fun k dst ty ins c o hk hphi hc ho => ?_
  obtain rfl := Option.some.inj hc
  refine Machine.get_congr hd.rearranged.def? fun v hv _ => ?_
  by_cases hr : v = d.result
  · have havail := hd.runnable.single.phis b k dst ty ins (hs.reachable.step hsucc) hk hphi
      (s.block, o) ho hs.reachable (Cfg.succ_ofFunction g s.block ▸ hsucc) v (by rw [hv]; rfl)
    rw [hr] at havail ⊢
    refine hend fun hne => ?_
    have hp := hd.passed_of_available (s := { s with rest := [] }) (by simp) havail
    unfold Passed at hp
    rwa [if_neg hne] at hp
  · exact hm.machine.regs v hr

/-- Away from the moved instruction, the runs do the same at the end of a block. -/
theorem step_terminator (hl : g.instsOf s.block = before ++ s.rest) (hrest : s.rest = [i])
    (hs : s.Sound g kinds) (hi : i ≠ d.inst) (hx : ∀ r, s'.rest ≠ d.inst :: r) :
    (∃ h, s.step g = .error h ∧ s'.step g' = .error h) ∨
      ∃ u u', s.step g = .ok u ∧ s'.step g' = .ok u' ∧ d.Matches g g' u u' := by
  obtain ⟨rest', hrest', herase⟩ := hm.exists_rest hrest hi hx
  obtain ⟨before', hl'⟩ := hm.place
  rw [hrest] at hl
  rw [hrest'] at hl'
  have hmem : i ∈ g.instsOf s.block := by rw [hl]; simp
  obtain ⟨instr, hinst⟩ := hd.runnable.wellFormed.exists_inst? hmem
  have hinst' : g'.inst? i = some instr := (hd.rearranged.inst? i).trans hinst
  have ht : instr.isTerminator = true :=
    (hd.runnable.wellFormed.terminator _ _ _ _ _ hl hinst).2 rfl
  obtain rfl : rest' = [] := (hd.rearranged.wellFormed.terminator _ _ _ _ _ hl' hinst').1 ht
  have hphi : ∀ dst ty ins, instr ≠ .phi dst ty ins := fun dst ty ins heq => by
    rw [heq] at ht
    cases ht
  rw [Running.step_terminator hrest hinst ht, Running.step_terminator hrest' hinst' ht,
    hm.machine.leave (hm.operands_eq hd hs hl hrest hinst hphi), hm.block]
  cases hleave : s.machine.leave g instr with
  | error h => exact .inl ⟨h, rfl, rfl⟩
  | ok b =>
    have hsucc : b ∈ (Cfg.ofFunction g).succ s.block := by
      rw [hd.runnable.wellFormed.succ_eq hl hinst]
      exact Machine.mem_successors_of_leave hleave
    have hsucc' : b ∈ g.successors s.block := Cfg.succ_ofFunction g s.block ▸ hsucc
    have hx' : d.inst ∉ [i] := fun hmem => hi (List.mem_singleton.1 hmem).symm
    -- At the end of the old block the old place is passed as well.
    have hend : (s.block ≠ d.source → (Cfg.ofFunction g).Dominates d.source s.block) →
        s'.machine.reg? d.result = s.machine.reg? d.result := fun hdom => by
      refine hm.passed ?_
      unfold Passed
      rw [hrest]
      split
      · exact hx'
      · next hne => exact hdom hne
    refine hd.enter (hd.runnable.wellFormed.hasBlock_of_mem_successors hsucc') hm.machine
      (hm.phiValues_eq hd hs hsucc hend) (fun hne hdom => hend fun _ => ?_)
      fun hin => hm.armed ?_
    · exact hdom.of_mem_succ (Ne.symm hne) hsucc
    · by_cases hblock : (Cfg.ofFunction g).InBody d.header s.block
      · exact .inl (hm.block.symm ▸ hblock)
      · refine .inr ⟨?_, hrest' ▸ hx'⟩
        exact hm.block.trans (hd.gate.eq_of_entering hblock hs.reachable hsucc hin).1

/-- Away from the moved instruction, the runs do the same. -/
theorem step (hs : s.Sound g kinds) (hx : ∀ r, s.rest ≠ d.inst :: r)
    (hx' : ∀ r, s'.rest ≠ d.inst :: r) :
    (∃ h, s.step g = .error h ∧ s'.step g' = .error h) ∨
      ∃ u u', s.step g = .ok u ∧ s'.step g' = .ok u' ∧ d.Matches g g' u u' := by
  obtain ⟨before, hl, -⟩ := hs.place
  obtain ⟨i, rest, hrest⟩ := List.exists_cons_of_ne_nil hs.rest
  have hi : i ≠ d.inst := fun hi => hx rest (by rw [hrest, hi])
  cases rest with
  | cons j rest => exact hm.step_inside hd hl hrest hs hi hx'
  | nil => exact hm.step_terminator hd hl hrest hs hi hx'

/-- Where the first run executes the moved instruction, the second one waits. -/
theorem step_source (hs : s.Sound g kinds) (hrest : s.rest = d.inst :: rest) :
    ∃ u, s.step g = .ok u ∧ d.Matches g g' u s' ∧ ∀ r, u.rest ≠ d.inst :: r := by
  obtain ⟨before, hl, -⟩ := hs.place
  rw [hrest] at hl
  have hmem : d.inst ∈ g.instsOf s.block := by rw [hl]; simp
  have hin : (Cfg.ofFunction g).InBody d.header s.block := by
    rw [hd.mem_iff.1 hmem]
    exact hd.inside
  have hn := (exists_def_of_movable hd.movable).1
  obtain ⟨j, r, rfl⟩ := List.exists_cons_of_ne_nil fun hnil => by
    have := (hd.runnable.wellFormed.terminator _ _ _ _ _ hl hd.content).2 hnil
    rw [hn] at this
    cases this
  -- A block lists an instruction once, so the two runs agree on all that is left after it.
  have hnot : d.inst ∉ j :: r := by
    have hnd := hd.runnable.coherent.nodup s.block
    rw [hl] at hnd
    exact (List.nodup_cons.1 (List.nodup_append.1 hnd).2.1).1
  obtain ⟨a, ha, hval⟩ := hm.armed (.inl (hm.block.symm ▸ hin))
  have hperf := Machine.perform_of_resultOf hval hd.result
  rw [Running.step_inside hrest hd.content hn, hperf]
  refine ⟨_, rfl, ⟨hm.block, ?_, hm.place, ⟨hm.machine.memory, hm.machine.calls,
    hm.machine.nextSlot, fun w hw => ?_⟩, fun _ => ?_, fun _ => ⟨a, ha, ?_⟩⟩,
    fun q heq => hnot ?_⟩
  · rw [hm.rest, hrest, List.erase_cons_head, List.erase_of_not_mem hnot]
  · simpa [Ne.symm hw] using hm.machine.regs w hw
  · simp [ha]
  · exact (hd.resultOf_perform hs.machine hin hmem hd.content hperf).trans hval
  · rw [show j :: r = d.inst :: q from heq]
    exact List.mem_cons_self

/-- Where the second run executes the moved instruction, the first one waits. -/
theorem step_target (hs : s.Sound g kinds) (hrest' : s'.rest = d.inst :: rest) :
    ∃ u', s'.step g' = .ok u' ∧ d.Matches g g' s u' ∧ ∀ r, u'.rest ≠ d.inst :: r := by
  obtain ⟨xs, ys, zs, t, h⟩ := hd.relocates
  obtain ⟨before', hl'⟩ := hm.place
  obtain ⟨before, hl, hfilled⟩ := hs.place
  rw [hrest'] at hl'
  obtain ⟨hblock', rfl, rfl⟩ := h.eq_of_split hd.runnable.coherent hl'
  have hblock : s.block = d.target := hm.block.symm.trans hblock'
  have hne := h.ne_last hd.runnable.coherent
  -- The first run is at the terminator of the preheader.
  have hrest : s.rest = [t] := by
    have hnot : d.inst ∉ s.rest := fun hmem => h.ne (hblock ▸ (hd.mem_iff.1 (by
      rw [hl]
      exact List.mem_append_right _ hmem)).symm)
    rw [← List.erase_of_not_mem hnot, ← hm.rest, hrest', List.erase_cons_head]
  rw [hrest] at hl
  obtain ⟨a, hval⟩ := hd.total s.machine hs.machine fun o ho => by
    cases o with
    | imm i => exact ⟨i.val, rfl, Kind.covers_refl _⟩
    | value v =>
      refine hs.machine.exists_get hd.runnable hfilled ?_
      rw [hblock] at hl ⊢
      exact hd.available before t hl v (Instruction.mem_usedValues ho rfl)
  have hval' := (hd.resultOf_agree hm.machine).trans hval
  have hn := (exists_def_of_movable hd.movable).1
  rw [Running.step_inside hrest' ((hd.rearranged.inst? d.inst).trans hd.content) hn,
    Machine.perform_of_resultOf hval' hd.result]
  refine ⟨_, rfl, ⟨hm.block, ?_, ⟨before' ++ [d.inst], by simp [hl']⟩,
    ⟨hm.machine.memory, hm.machine.calls, hm.machine.nextSlot, fun w hw => ?_⟩, fun hp => ?_,
    fun _ => ⟨a, ?_, hval⟩⟩, fun r heq => hne (List.cons.inj heq).1⟩
  · rw [hrest]
  · simpa [Ne.symm hw] using hm.machine.regs w hw
  · -- The old place does not dominate the preheader.
    unfold Passed at hp
    rw [hblock, if_neg h.ne.symm] at hp
    exact absurd hp (hd.gate.not_dominates hd.inside hd.reachable)
  · simp

end Matches

/-- Each run goes past the moved instruction if it is there, and then both take the same step. -/
theorem Safe.inStep {d : Departure} (hd : d.Safe kinds g g') :
    Running.InStep g g' fun s s' => d.Matches g g' s s' ∧ s.Sound g kinds := by
  rintro s s' ⟨hm, hs⟩
  obtain ⟨k, u', hu', hm', hx'⟩ : ∃ k u', Running.Reaches g' k s' u' ∧ d.Matches g g' s u' ∧
      ∀ r, u'.rest ≠ d.inst :: r := by
    by_cases hx : ∃ r, s'.rest = d.inst :: r
    · obtain ⟨r, hr⟩ := hx
      obtain ⟨u', hstep, hm', hnot⟩ := hm.step_target hd hs hr
      exact ⟨1, u', .step hstep .refl, hm', hnot⟩
    · exact ⟨0, s', .refl, hm, fun r hr => hx ⟨r, hr⟩⟩
  obtain ⟨j, u, hu, hm'', hsu, hx⟩ : ∃ j u, Running.Reaches g j s u ∧ d.Matches g g' u u' ∧
      u.Sound g kinds ∧ ∀ r, u.rest ≠ d.inst :: r := by
    by_cases hx : ∃ r, s.rest = d.inst :: r
    · obtain ⟨r, hr⟩ := hx
      obtain ⟨u, hstep, hm'', hnot⟩ := hm'.step_source hd hs hr
      exact ⟨1, u, .step hstep .refl, hm'', hs.step hd.runnable hstep, hnot⟩
    · exact ⟨0, s, .refl, hm', hs, fun r hr => hx ⟨r, hr⟩⟩
  refine ⟨j, k, u, u', hu, hu', (hm''.step hd hsu hx hx').imp_right ?_⟩
  exact fun ⟨w, w', hw, hw', hmw⟩ => ⟨w, w', hw, hw', hmw, hsu.step hd.runnable hw⟩

end Departure

end LoopHoist
