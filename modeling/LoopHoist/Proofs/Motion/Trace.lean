import LoopHoist.Proofs.Motion.Verdicts

/-!
# The relocations of a run

A run of the pass is a sequence of relocations, each of which takes an instruction of a loop to the
preheader of the loop when its kind allows it and its operands come from outside the loop at that
moment (`Legal`, `Trace`). Every step of the pass either leaves the function alone or makes one such
relocation (`Processing.tryHoist_cases`), and none fails, so the pass goes through
(`exists_processAll`) and what it gives is a rearrangement of the function that entered it
(`Trace.rearranged`).
-/

namespace LoopHoist

variable {f g g' : Function} {a : Analysis} {settings : Settings} {l : Loop} {n : LoopId}
  {p src b : BlockId} {r : Relocation} {i j x : InstId} {v : ValueId} {instr : Instruction}

/-- One relocation of the pass over `f`: it takes an instruction of `g` out of a block `src` of a
loop to the preheader of the loop. -/
structure Legal (f : Function) (a : Analysis) (settings : Settings) (g : Function) (r : Relocation)
    (g' : Function) (l : Loop) (src : BlockId) (instr : Instruction) : Prop where
  /-- The relocation names the loop. -/
  loop : a.forest.loop? r.loop = some l
  /-- The destination is the preheader of the loop. -/
  preheader : l.preheader = some r.preheader
  /-- The instruction is in the block that it leaves. -/
  owner : g.owner? r.inst = some src
  /-- That block is in the loop. -/
  inside : l.contains src = true
  /-- What the instruction is. -/
  content : g.inst? r.inst = some instr
  /-- Its kind allows it to leave the loop. -/
  hoistable : Hoistable f a.slots settings l instr
  /-- Its operands are given or come from instructions outside the loop. -/
  operands : ∀ v ∈ instr.usedValues, g.Given v ∨
    ∃ j c, g.def? v = some (.inst j) ∧ g.owner? j = some c ∧ l.contains c = false
  /-- It is moved. -/
  moved : g.move r.inst r.preheader = .ok g'

/-- A sequence of relocations of the pass over `f`, with the function that it gives. -/
inductive Trace (f : Function) (a : Analysis) (settings : Settings) :
    List Relocation → Function → Prop where
  /-- Nothing was moved yet. -/
  | start : Trace f a settings [] f
  /-- One more instruction was moved. -/
  | step {rs : List Relocation} {g : Function} {r : Relocation} {g' : Function} {l : Loop}
      {src : BlockId} {instr : Instruction} (h : Trace f a settings rs g)
      (hr : Legal f a settings g r g' l src instr) : Trace f a settings (rs ++ [r]) g'

/-- The preheader of a loop is outside the loop, and the only way into it. -/
theorem Analyzed.isGate (ha : Analyzed f a) (hl : a.forest.loop? n = some l)
    (hp : l.preheader = some p) :
    (Cfg.ofFunction f).IsGate l.header p ∧ (Cfg.ofFunction f).Reachable p :=
  ha.tree.isGate_of_preheader (ha.isLoop hl) hp

/-- A loop contains its body. -/
theorem Analyzed.contains_iff (ha : Analyzed f a) (hl : a.forest.loop? n = some l) :
    l.contains b = true ↔ (Cfg.ofFunction f).InBody l.header b :=
  ha.tree.contains_iff (ha.isLoop hl)

/-- The preheader of a loop is not in the loop. -/
theorem Analyzed.not_contains_preheader (ha : Analyzed f a) (hl : a.forest.loop? n = some l)
    (hp : l.preheader = some p) : l.contains p = false := by
  rw [Bool.eq_false_iff]
  exact fun h => (ha.isGate hl hp).1.outside ((ha.contains_iff hl).1 h)

/-- The preheader of a loop exists. -/
theorem Analyzed.hasBlock_preheader (ha : Analyzed f a) (hl : a.forest.loop? n = some l)
    (hp : l.preheader = some p) : f.hasBlock p = true := by
  rw [← Cfg.has_ofFunction]
  exact Cfg.has_of_reachable ha.tree.closed (ha.isGate hl hp).2

/-- A relocation of the pass takes the instruction out of the middle of its block and puts it before
the last instruction of the preheader. -/
theorem Legal.exists_relocates (hr : Legal f a settings g r g' l src instr) (ha : Analyzed f a)
    (hg : f.Rearranged g) : ∃ xs ys zs t, g.Relocates g' r.inst src r.preheader xs ys zs t := by
  have hn := (exists_def_of_movable hr.hoistable.movable).1
  have hne : src ≠ r.preheader := fun h => by
    have hout := ha.not_contains_preheader hr.loop hr.preheader
    rw [← h, hr.inside] at hout
    cases hout
  have hdest : g.hasBlock r.preheader = true := by
    rw [hg.hasBlock]
    exact ha.hasBlock_preheader hr.loop hr.preheader
  have heq : g' = g.relocate r.inst src r.preheader := Except.ok.inj (hr.moved.symm.trans
    (Function.move_eq_ok hg.coherent hg.wellFormed hr.owner hr.content hn hdest))
  rw [heq]
  exact Function.exists_relocates hg.coherent hg.wellFormed hr.owner hr.content hn hne hdest

/-- A relocation of the pass makes a rearrangement. -/
theorem Legal.rearranged (hr : Legal f a settings g r g' l src instr) (ha : Analyzed f a)
    (hg : f.Rearranged g) : g.Rearranged g' := by
  obtain ⟨xs, ys, zs, t, h⟩ := hr.exists_relocates ha hg
  exact h.rearranged hg.coherent hg.wellFormed hr.content hr.hoistable.movable

/-- A run of the pass makes a rearrangement. -/
theorem Trace.rearranged {rs : List Relocation} (h : Trace f a settings rs g) (ha : Analyzed f a)
    (hc : f.Coherent) (hw : f.WellFormed) : f.Rearranged g := by
  induction h with
  | start => exact .refl hc hw
  | step _ hr ih => exact ih.trans (hr.rearranged ha ih)

/-! ## One candidate -/

/-- A loop in processing: what holds of the function so far and of the state of the loop. -/
structure Processing (f : Function) (a : Analysis) (settings : Settings) (l : Loop) (p : BlockId)
    (st : Hoisting × LoopState) : Prop where
  /-- The function is what the relocations so far have made of it. -/
  trace : Trace f a settings st.1.moves.reverse st.1.function
  /-- The state is that of the loop. -/
  loop : st.2.loop = l
  /-- The state has the stack slots of the function. -/
  slots : st.2.slots = a.slots
  /-- The state has the settings of the run. -/
  settings_eq : st.2.settings = settings
  /-- The state has the stores of the loop. -/
  stores : st.2.memory.stores = (LoopMemory.ofLoop f a.slots l).stores
  /-- The state has the calls of the loop. -/
  calls : st.2.memory.calls = (LoopMemory.ofLoop f a.slots l).calls
  /-- What was hoisted is in the preheader. -/
  hoisted : ∀ j ∈ st.2.hoisted, st.1.function.owner? j = some p

/-- When the turn of an instruction has come: its kind allows it to leave the loop, and its operands
are invariant. -/
structure Accepted (f : Function) (a : Analysis) (settings : Settings) (l : Loop)
    (st : Hoisting × LoopState) (x : InstId) (instr : Instruction) : Prop where
  /-- What the instruction is. -/
  content : st.1.function.inst? x = some instr
  /-- Its kind allows it to leave the loop. -/
  hoistable : Hoistable f a.slots settings l instr
  /-- Its operands are invariant. -/
  invariant : ∀ v ∈ instr.usedValues, st.2.invariantValue st.1.function v = true

/-- An invariant value is given or comes from an instruction that was hoisted or is outside. -/
theorem LoopState.invariantValue_iff {s : LoopState} : s.invariantValue g v = true ↔
    g.Given v ∨ ∃ j, g.def? v = some (.inst j) ∧
      (j ∈ s.hoisted ∨ ∃ c, g.owner? j = some c ∧ s.loop.contains c = false) := by
  have hout : ∀ j, s.isOutside g j = true ↔ ∃ c, g.owner? j = some c ∧
      s.loop.contains c = false := fun j => by
    unfold isOutside
    cases g.owner? j <;> simp
  unfold invariantValue Function.Given
  cases hv : g.def? v with
  | none => simp
  | some origin => cases origin <;> simp [isHoisted, hout]

namespace Processing

variable {st : Hoisting × LoopState}

/-- A candidate stays where it is if it is not accepted, and else is moved legally. -/
theorem tryHoist_cases (h : Processing f a settings l p st) (ha : Analyzed f a) (hc : f.Coherent)
    (hw : f.WellFormed) (hl : a.forest.loop? n = some l) (hp : l.preheader = some p)
    (hx : st.1.function.owner? x = some src) (hin : l.contains src = true) :
    (Hoisting.tryHoist n p st x = .ok st ∧ ∀ instr, ¬ Accepted f a settings l st x instr) ∨
    ∃ instr kind h',
      Accepted f a settings l st x instr ∧ Hoisting.tryHoist n p st x = .ok (h', st.2.mark x) ∧
      h'.moves = { inst := x, kind, loop := n, preheader := p } :: st.1.moves ∧
      Legal f a settings st.1.function { inst := x, kind, loop := n, preheader := p } h'.function l
        src instr ∧
      Processing f a settings l p (h', st.2.mark x) := by
  have hg := h.trace.rearranged ha hc hw
  obtain ⟨instr, hinst⟩ := hg.wellFormed.exists_inst? ((hg.coherent.mem_iff x src).2 hx)
  have hverdict : st.2.verdict st.1.function x = .ok (st.2.verdictOf st.1.function instr) :=
    LoopState.verdict_eq_ok_iff.2 ⟨instr, hinst, rfl⟩
  -- The verdict is about the function as it is now; what it asks is the same of the untouched one.
  have hiff : (∃ kind, st.2.verdictOf st.1.function instr = .ok kind) ↔ _ :=
    LoopState.verdictOf_eq_ok_iff h.settings_eq h.slots h.stores h.calls hg.def?
  cases hv : st.2.verdictOf st.1.function instr with
  | error reason =>
    refine .inl ⟨by simp only [Hoisting.tryHoist, hverdict, hv], fun instr' hacc => ?_⟩
    obtain rfl := Option.some.inj (hinst.symm.trans hacc.content)
    obtain ⟨kind, hkind⟩ := hiff.2 ⟨hacc.hoistable, hacc.invariant⟩
    rw [hv] at hkind
    cases hkind
  | ok kind =>
    obtain ⟨hhoist, hinv⟩ := hiff.1 ⟨kind, hv⟩
    have hn := (exists_def_of_movable hhoist.movable).1
    have hdest : st.1.function.hasBlock p = true := by
      rw [hg.hasBlock]
      exact ha.hasBlock_preheader hl hp
    have hmove := Function.move_eq_ok hg.coherent hg.wellFormed hx hinst hn hdest
    have hlegal : Legal f a settings st.1.function { inst := x, kind, loop := n, preheader := p }
        (st.1.function.relocate x src p) l src instr :=
      { loop := hl
        preheader := hp
        owner := hx
        inside := hin
        content := hinst
        hoistable := hhoist
        operands := fun v hv => by
          refine (LoopState.invariantValue_iff.1 (hinv v hv)).imp_right ?_
          rintro ⟨j, hj, hhoisted | ⟨c, hjc, hout⟩⟩
          -- What this round has moved is in the preheader, which the loop does not contain.
          · exact ⟨j, p, hj, h.hoisted j hhoisted, ha.not_contains_preheader hl hp⟩
          · exact ⟨j, c, hj, hjc, h.loop ▸ hout⟩
        moved := hmove }
    let h' : Hoisting :=
      { function := st.1.function.relocate x src p
        counters := st.1.counters + .ofHoist kind
        moves := { inst := x, kind, loop := n, preheader := p } :: st.1.moves }
    refine .inr ⟨instr, kind, h', ⟨hinst, hhoist, hinv⟩,
      by simp only [Hoisting.tryHoist, hverdict, hv, hmove, h'], rfl, hlegal, ?_⟩
    refine ⟨?_, h.loop, h.slots, h.settings_eq, h.stores, h.calls, fun j hj => ?_⟩
    · simp only [h', List.reverse_cons]
      exact .step h.trace hlegal
    · rw [Function.owner?_relocate]
      split
      · next hjx => rw [hjx, hx, Option.map_some]
      · next hjx => exact h.hoisted j ((List.mem_cons.1 hj).resolve_left hjx)

end Processing

/-! ## All candidates of a loop -/

/-- A fold of steps of which none fails, as long as something holds of what is left and of the
state, does not fail, and it holds at the end. -/
theorem foldlM_ok {α β ε : Type} (step : β → α → Except ε β) (P : List α → β → Prop)
    (hstep : ∀ x xs s, P (x :: xs) s → ∃ s', step s x = .ok s' ∧ P xs s') (xs : List α) (s : β)
    (h : P xs s) : ∃ s', xs.foldlM step s = .ok s' ∧ P [] s' := by
  induction xs generalizing s with
  | nil => exact ⟨s, rfl, h⟩
  | cons x xs ih =>
    obtain ⟨s', hs', h'⟩ := hstep x xs s h
    obtain ⟨s'', hs'', h''⟩ := ih s' h'
    refine ⟨s'', ?_, h''⟩
    rw [List.foldlM_cons, hs']
    exact hs''

/-- The candidates of a loop are the instructions of its blocks. -/
theorem mem_candidates (ha : Analyzed f a) (hl : a.forest.loop? n = some l) (hg : f.Rearranged g) :
    x ∈ Hoisting.candidates g a.dominators.order l ↔
      ∃ c, g.owner? x = some c ∧ l.contains c = true := by
  simp only [Hoisting.candidates, List.mem_flatMap, List.mem_filter, hg.coherent.mem_iff]
  constructor
  · rintro ⟨c, ⟨-, hc⟩, hx⟩
    exact ⟨c, hx, hc⟩
  · rintro ⟨c, hx, hc⟩
    exact ⟨c, ⟨ha.tree.mem_order.2 (ha.tree.reachable_of_contains (ha.isLoop hl) hc), hc⟩, hx⟩

/-- No candidate is listed twice. -/
theorem candidates_nodup (ha : Analyzed f a) (hg : f.Rearranged g) :
    (Hoisting.candidates g a.dominators.order l).Nodup := by
  rw [Hoisting.candidates, List.nodup_flatMap]
  refine ⟨fun c _ => hg.coherent.nodup c, ?_⟩
  have horder : a.dominators.order.Nodup := by
    rw [ha.tree.order]
    exact Cfg.reversePostorder_nodup _
  refine (horder.filter _).imp fun {b c} hbc x hxb hxc => hbc ?_
  rw [hg.coherent.mem_iff] at hxb hxc
  exact Option.some.inj (hxb.symm.trans hxc)

/-- When the turn of a loop has come in a rearrangement, its body is found. -/
theorem startAt_eq_ok (ha : Analyzed f a) (hl : a.forest.loop? n = some l) (hg : f.Rearranged g) :
    LoopState.startAt g a.slots settings l = .ok (.start g a.slots settings l) := by
  have hbody := Function.bodyAt_eq_ok (f := g) fun b (hb : b ∈ l.blocks) => hg.wellFormed.resolves
    ((hg.hasBlock b).trans (ha.hasBlock hl (List.contains_iff_mem.2 hb)))
  rw [LoopState.startAt, hbody, ok_bind]
  rfl

/-- And so are its candidates. -/
theorem candidatesAt_eq_ok (ha : Analyzed f a) (hl : a.forest.loop? n = some l)
    (hg : f.Rearranged g) : Hoisting.candidatesAt g a.dominators.order l =
      .ok (Hoisting.candidates g a.dominators.order l) := by
  have hfound : ∀ b ∈ a.dominators.order.filter l.contains,
      g.blockAt b = .ok ⟨(g.block? b).elim "" Block.label, g.instsOf b⟩ := fun b hb => by
    obtain ⟨block, hblock⟩ := (hg.wellFormed.resolves
      ((hg.hasBlock b).trans (ha.hasBlock hl (List.mem_filter.1 hb).2))).exists_blockAt
    rw [hblock, Function.block?_of_blockAt hblock, Function.instsOf_of_blockAt hblock]
    rfl
  rw [Hoisting.candidatesAt, mapM_eq_ok hfound, ok_bind]
  simp only [pure, Except.pure, Hoisting.candidates, List.flatMap_map]

/-- The turn of a loop without a preheader counts it. -/
theorem processLoop_of_noPreheader {h : Hoisting} (ha : Analyzed f a)
    (hl : a.forest.loop? n = some l) (hg : f.Rearranged h.function) (hp : l.preheader = none) :
    Hoisting.processLoop a settings h n = .ok { h with
      counters := h.counters + .ofLoop (.ofLoop h.function a.slots l) + { noPreheader := 1 } } := by
  simp only [Hoisting.processLoop, LoopForest.loopAt, hl, Except.mapError, ok_bind,
    startAt_eq_ok ha hl hg, hp]
  rfl

/-- The turn of a loop with a preheader counts it and tries its candidates. -/
theorem processLoop_of_preheader {h : Hoisting} (ha : Analyzed f a)
    (hl : a.forest.loop? n = some l) (hg : f.Rearranged h.function) (hp : l.preheader = some p) :
    Hoisting.processLoop a settings h n =
      ((Hoisting.candidates h.function a.dominators.order l).foldlM (Hoisting.tryHoist n p)
        ({ h with counters := h.counters + .ofLoop (.ofLoop h.function a.slots l) },
          .start h.function a.slots settings l)).map (·.1) := by
  simp only [Hoisting.processLoop, LoopForest.loopAt, hl, Except.mapError, ok_bind,
    startAt_eq_ok ha hl hg, candidatesAt_eq_ok ha hl hg, hp]
  rfl

/-- The state of a loop whose turn has come. -/
theorem Processing.start {h : Hoisting} (htrace : Trace f a settings h.moves.reverse h.function)
    (hg : f.Rearranged h.function) (counters : Counters) : Processing f a settings l p
      ({ h with counters }, LoopState.start h.function a.slots settings l) where
  trace := htrace
  loop := rfl
  slots := rfl
  settings_eq := rfl
  stores := (hg.ofLoop_eq a.slots l).1
  calls := (hg.ofLoop_eq a.slots l).2
  hoisted _ hj := absurd hj List.not_mem_nil

/-- One loop is gone through without failure. -/
theorem exists_processLoop (ha : Analyzed f a) (hc : f.Coherent) (hw : f.WellFormed)
    (hl : a.forest.loop? n = some l) {h : Hoisting}
    (htrace : Trace f a settings h.moves.reverse h.function) :
    ∃ h', Hoisting.processLoop a settings h n = .ok h' ∧
      Trace f a settings h'.moves.reverse h'.function := by
  have hg := htrace.rearranged ha hc hw
  cases hp : l.preheader with
  | none => exact ⟨_, processLoop_of_noPreheader ha hl hg hp, htrace⟩
  | some p =>
    -- What is left to try is still in the loop, as each candidate is tried once.
    obtain ⟨st, hst, hproc, -⟩ := foldlM_ok (Hoisting.tryHoist n p)
      (fun xs st => Processing f a settings l p st ∧ xs.Nodup ∧
        ∀ x ∈ xs, ∃ c, st.1.function.owner? x = some c ∧ l.contains c = true)
      (fun x xs st ⟨hproc, hnd, hin⟩ => by
        obtain ⟨c, hx, hc'⟩ := hin x List.mem_cons_self
        obtain ⟨hnot, hnd'⟩ := List.nodup_cons.1 hnd
        rcases hproc.tryHoist_cases ha hc hw hl hp hx hc' with
          ⟨heq, -⟩ | ⟨instr, kind, h', -, heq, -, hlegal, hproc'⟩
        · exact ⟨st, heq, hproc, hnd', fun y hy => hin y (List.mem_cons_of_mem _ hy)⟩
        · refine ⟨_, heq, hproc', hnd', fun y hy => ?_⟩
          obtain ⟨d, hy', hd⟩ := hin y (List.mem_cons_of_mem _ hy)
          obtain ⟨_, _, _, _, hrel⟩ := hlegal.exists_relocates ha (hproc.trace.rearranged ha hc hw)
          have hyx : y ≠ x := fun hyx => hnot (hyx ▸ hy)
          exact ⟨d, by simpa [hrel.eq, hyx] using hy', hd⟩)
      _ _ ⟨.start htrace hg (h.counters + .ofLoop (.ofLoop h.function a.slots l)),
        candidates_nodup ha hg, fun x hx => (mem_candidates ha hl hg).1 hx⟩
    exact ⟨st.1, by rw [processLoop_of_preheader ha hl hg hp, hst]; rfl, hproc.trace⟩

/-- The pass goes through any loops without failure, by legal relocations. -/
theorem exists_processLoops (ha : Analyzed f a) (hc : f.Coherent) (hw : f.WellFormed)
    (settings : Settings) {ns : List LoopId} (hns : ∀ n ∈ ns, ∃ l, a.forest.loop? n = some l) :
    ∃ h, ns.foldlM (Hoisting.processLoop a settings) { function := f } = .ok h ∧
      Trace f a settings h.moves.reverse h.function := by
  obtain ⟨h, hh, htrace, -⟩ := foldlM_ok (Hoisting.processLoop a settings)
    (fun ns h => Trace f a settings h.moves.reverse h.function ∧
      ∀ n ∈ ns, ∃ l, a.forest.loop? n = some l)
    (fun n ns h ⟨htrace, hns⟩ => by
      obtain ⟨l, hl⟩ := hns n List.mem_cons_self
      obtain ⟨h', hh', htrace'⟩ := exists_processLoop ha hc hw hl htrace
      exact ⟨h', hh', htrace', fun m hm => hns m (List.mem_cons_of_mem _ hm)⟩)
    ns { function := f } ⟨.start, hns⟩
  exact ⟨h, hh, htrace⟩

/-- The pass goes through all loops without failure, by legal relocations. -/
theorem exists_processAll (ha : Analyzed f a) (hc : f.Coherent) (hw : f.WellFormed)
    (settings : Settings) : ∃ h, Hoisting.processAll a settings f = .ok h ∧
      Trace f a settings h.moves.reverse h.function := by
  exact exists_processLoops ha hc hw settings fun n hn => ha.mem_postorder.1 hn

/-! ## The whole run -/

/-- An active pass over a well-formed function gives what going through the loops makes of it, if
that is well-formed. -/
theorem Function.hoistInvariants_eq {h : Hoisting} (hactive : settings.isActive = true)
    (hw : f.WellFormed) (ha : f.analyze = .ok a) (hh : Hoisting.processAll a settings f = .ok h)
    (hg : h.function.WellFormed) : f.hoistInvariants settings =
      .ok { function := h.function, result := .ok h.counters, moves := h.moves.reverse } := by
  have hdecl : f.isDeclaration = false := by
    obtain ⟨e, -, he⟩ := hw.entry
    have := of_decide_eq_true he
    simp only [Function.isDeclaration, beq_eq_false_iff_ne]
    omega
  have hcheck : (if settings.verify then h.function.violation? else none) = none := by
    split
    · exact Function.violation?_eq_none_iff.2 hg
    · rfl
  unfold Function.hoistInvariants
  simp only [hactive, hdecl, Function.violation?_eq_none_iff.2 hw, ha, hh, Function.commit, hcheck]
  rfl

/-- A declaration, and any function if the pass is not active, is given back as it is, with all
counters zero. -/
theorem Function.hoistInvariants_of_skipped (h : (f.isDeclaration || !settings.isActive) = true) :
    f.hoistInvariants settings = .ok { function := f, result := .ok {} } := by
  unfold Function.hoistInvariants
  rw [if_pos h]

/-- A run of the pass over a coherent well-formed function succeeds, and what it gives is made by
legal relocations, which the result lists in order. -/
theorem exists_analyzed_run (hc : f.Coherent) (hw : f.WellFormed) (settings : Settings) :
    ∃ a r counters, f.analyze = .ok a ∧ Analyzed f a ∧ f.hoistInvariants settings = .ok r ∧
      r.result = .ok counters ∧ Trace f a settings r.moves r.function := by
  obtain ⟨a, hanalyze, ha⟩ := exists_analyze hw
  by_cases hactive : settings.isActive = true
  · obtain ⟨h, hh, htrace⟩ := exists_processAll ha hc hw settings
    have hg := htrace.rearranged ha hc hw
    exact ⟨a, _, _, hanalyze, ha,
      Function.hoistInvariants_eq hactive hw hanalyze hh hg.wellFormed, rfl, htrace⟩
  · exact ⟨a, _, _, hanalyze, ha, Function.hoistInvariants_of_skipped (by simp [hactive]), rfl,
      .start⟩

/-- The same, for what does not ask how the analyses are made. -/
theorem exists_hoistInvariants (hc : f.Coherent) (hw : f.WellFormed) (settings : Settings) :
    ∃ a r counters, Analyzed f a ∧ f.hoistInvariants settings = .ok r ∧ r.result = .ok counters ∧
      Trace f a settings r.moves r.function := by
  obtain ⟨a, r, counters, -, h⟩ := exists_analyzed_run hc hw settings
  exact ⟨a, r, counters, h⟩

end LoopHoist
