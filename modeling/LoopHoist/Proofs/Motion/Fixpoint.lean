import LoopHoist.Proofs.Motion.Placement
import LoopHoist.Proofs.Motion.Stability

/-!
# A second run

One run takes out of the loops all that its rule ever will. After it no instruction leaves any loop
that has a preheader (`Placed.not_leaves`), so a second run moves nothing.

The reason is that leaving a loop is easier for smaller loops: what leaves a loop leaves every loop
inside it that holds it (`Leaves.of_larger`). Suppose that after the run an instruction leaves a
loop. Its operands that were in the loop before and are outside now went out with a loop at least as
large, so they leave this loop by the rule, and so does the instruction, already before the run
(`Placed.leaves`). But then the run took it to the preheader of a loop at least as large, out of
this one.
-/

namespace LoopHoist

variable {f g : Function} {a : Analysis} {settings : Settings} {s t : StackSlots} {l m : Loop}
  {n k : LoopId} {p b c : BlockId} {x j : InstId} {instr : Instruction} {addr : Operand}
  {o : MemObject}

/-! ## Memory -/

/-- What a loop does to memory, a larger loop does too. -/
structure LoopMemory.Within (u w : LoopMemory) : Prop where
  /-- The larger loop has the stores. -/
  stores : u.stores ⊆ w.stores
  /-- If the smaller loop calls, so does the larger one. -/
  hasCall : u.hasCall = true → w.hasCall = true

/-- The memory behaviour of a loop is within that of a loop that contains its blocks. -/
theorem LoopMemory.within_ofLoop (hlm : ∀ b, l.contains b = true → m.contains b = true) :
    (LoopMemory.ofLoop f s l).Within (.ofLoop f s m) := by
  have hbody : f.bodyOf l ⊆ f.bodyOf m := by
    intro q hq
    obtain ⟨b, hb, hq⟩ := Function.mem_bodyOf_iff.1 hq
    exact Function.mem_bodyOf_iff.2 ⟨b, hlm b hb, hq⟩
  have hmap := List.map_subset (·.2) hbody
  constructor
  · apply List.map_subset
    exact List.filterMap_subset _ hmap
  · simp only [LoopMemory.hasCall, LoopMemory.ofLoop, LoopMemory.ofBody, decide_eq_true_eq, List.countP_pos_iff]
    rintro ⟨instr, hinstr, hcall⟩
    exact ⟨instr, hmap hinstr, hcall⟩

namespace LoopMemory.Within

variable {u w : LoopMemory} (h : u.Within w)
include h

/-- What a larger loop may not write, a smaller one may not write either. -/
theorem mayWrite_eq_false (hw : w.mayWrite s o = false) : u.mayWrite s o = false := by
  unfold mayWrite at hw ⊢
  rw [Bool.or_eq_false_iff, Bool.and_eq_false_iff, List.any_eq_false] at hw ⊢
  refine ⟨hw.1.imp_right fun hcall => ?_, fun target htarget => hw.2 target (h.stores htarget)⟩
  rw [Bool.eq_false_iff] at hcall ⊢
  exact fun hu => hcall (h.hasCall hu)

/-- A larger loop without stores has smaller ones without. -/
theorem hasStore_eq_false (hw : w.hasStore = false) : u.hasStore = false := by
  unfold hasStore at hw ⊢
  rw [Bool.not_eq_false', List.isEmpty_iff] at hw ⊢
  have hsub := h.stores
  rw [hw] at hsub
  exact List.subset_nil.1 hsub

/-- A larger loop without calls has smaller ones without. -/
theorem hasCall_eq_false (hw : w.hasCall = false) : u.hasCall = false := by
  rw [Bool.eq_false_iff] at hw ⊢
  exact fun hu => hw (h.hasCall hu)

end LoopMemory.Within

/-- What may leave a loop may leave the loops inside it. -/
theorem Hoistable.of_larger (hlm : ∀ b, l.contains b = true → m.contains b = true)
    (h : Hoistable f s settings m instr) : Hoistable f s settings l instr := by
  rcases h with hord | ⟨dst, ty, addr, access, rfl, hset, hvol, hsafe⟩
  · exact .inl hord
  · refine .inr ⟨dst, ty, addr, access, rfl, hset, hvol, ?_⟩
    have hwithin : (LoopMemory.ofLoop f s l).Within (.ofLoop f s m) :=
      LoopMemory.within_ofLoop hlm
    unfold LoopState.loadIsSafe LoopState.start at hsafe ⊢
    dsimp only at hsafe ⊢
    -- Each kind of object asks only for what the larger loop does not do.
    split at hsafe
    · cases hsafe
    · simp only [Bool.and_eq_true, Bool.not_eq_true'] at hsafe ⊢
      exact ⟨hwithin.hasStore_eq_false hsafe.1, hwithin.hasCall_eq_false hsafe.2⟩
    · cases hsafe
    · rw [Bool.not_eq_true'] at hsafe ⊢
      exact hwithin.mayWrite_eq_false hsafe
    · simp only [Bool.and_eq_true, Bool.not_eq_true'] at hsafe ⊢
      exact ⟨hsafe.1, hwithin.mayWrite_eq_false hsafe.2⟩

/-! ## The rule in smaller loops and after a run -/

/-- What leaves a loop leaves a loop inside it that holds it, if its kind allows that, under other
settings too. -/
theorem Leaves.of_larger {settings' : Settings}
    (hlm : ∀ b, l.contains b = true → m.contains b = true)
    (hkind : ∀ instr, Hoistable f s settings m instr → Hoistable f t settings' l instr)
    (h : Leaves f s settings m x) (hb : f.owner? x = some b) (hin : l.contains b = true) :
    Leaves f t settings' l x := by
  -- The operands in the smaller loop are in the larger one, and so leave it by the rule.
  induction h generalizing b with
  | intro _ _ content kind known _ ih =>
    refine .intro hb hin content (hkind _ kind) known fun v hv j c hj hc hcin => ?_
    exact ih v hv j c hj hc (hlm c hcin) hc hcin

namespace Placed

variable (hplaced : Placed f a settings a.forest.postorder g) (ha : Analyzed f a)
include hplaced ha

/-- What is in a loop after the run was in it before. -/
theorem contains_of_contains (hl : a.forest.loop? n = some l) (hb : f.owner? x = some b)
    (hgc : g.owner? x = some c) (hin : l.contains c = true) : l.contains b = true := by
  rcases hplaced.owner_cases hb hgc with ⟨k, -, m, hleave, hbin, -⟩ | ⟨rfl, -⟩
  · -- It is in the preheader of a loop inside this one.
    exact ha.contains_of_contains_preheader hleave.loop hleave.preheader hbin hl hin
  · exact hin

/-- What the run took out of a loop leaves the loop by the rule: it went out with that loop or with
a larger one. -/
theorem leaves_of_moved (hl : a.forest.loop? n = some l) (hb : f.owner? x = some b)
    (hin : l.contains b = true) (hgc : g.owner? x = some c) (hout : l.contains c = false) :
    Leaves f a.slots settings l x := by
  rcases hplaced.owner_cases hb hgc with ⟨k, -, m, hleave, hbin, -⟩ | ⟨rfl, -⟩
  · rcases ha.comparable hleave.loop hl hbin hin with rfl | hkn | hnk
    · obtain rfl := Option.some.inj (hl.symm.trans hleave.loop)
      exact hleave.leaves
    · -- The preheader of a loop inside this one would be in this one.
      have := (ha.contains_preheader_iff hleave.loop hleave.preheader hl).2 hkn
      rw [hout] at this
      cases this
    · have hlm : ∀ b, l.contains b = true → m.contains b = true := fun b =>
        ha.contains_of_inside hl hleave.loop hnk
      exact hleave.leaves.of_larger hlm (fun _ => Hoistable.of_larger hlm) hb hin
  · rw [hin] at hout
    cases hout

/-- What leaves a loop by the rule after the run does so before it. -/
theorem leaves (hg : f.Rearranged g) (hc : f.Coherent) (hl : a.forest.loop? n = some l)
    (h : Leaves g a.slots settings l x) : Leaves f a.slots settings l x := by
  have howner : ∀ {x c}, g.owner? x = some c → ∃ b, f.owner? x = some b := fun {x c} hx => by
    obtain ⟨b, hb⟩ := (hg.placed x).1 ⟨c, (hg.coherent.mem_iff x c).2 hx⟩
    exact ⟨b, (hc.mem_iff x b).1 hb⟩
  induction h with
  | @intro x c instr owner inside content kind known operands ih =>
    obtain ⟨b, hb⟩ := howner owner
    refine .intro hb (hplaced.contains_of_contains ha hl hb owner inside)
      (by rw [← hg.inst?]; exact content) (hg.hoistable_iff.1 kind) (fun v hv => ?_)
      fun v hv j d hj hd hdin => ?_
    · refine (known v hv).imp hg.given_iff.1 ?_
      rintro ⟨j, c, hj, hjc⟩
      obtain ⟨d, hd⟩ := howner hjc
      exact ⟨j, d, by rw [← hg.def?]; exact hj, hd⟩
    · -- An operand that was in the loop is still there and leaves it, or was moved out of it.
      obtain ⟨e, hje, -⟩ := hplaced j d hd
      cases hein : l.contains e with
      | true => exact ih v hv j e (by rw [hg.def?]; exact hj) hje hein
      | false => exact hplaced.leaves_of_moved ha hl hd hdin hje hein

/-- What leaves a loop for its preheader is outside the loop after the run. -/
theorem not_contains_of_leavesFor (h : LeavesFor f a settings x n l p)
    (hgc : g.owner? x = some c) : l.contains c = false := by
  rw [Bool.eq_false_iff]
  intro hin
  have hn := ha.mem_postorder.2 ⟨l, h.loop⟩
  obtain ⟨b, hb, -⟩ := h.leaves.exists_owner
  rcases hplaced.owner_cases hb hgc with ⟨k, -, m, hleave, -, houter⟩ | ⟨-, hno⟩
  · -- It is in the preheader of the outermost loop that it leaves, which is not inside this one.
    have hkn := (ha.contains_preheader_iff hleave.loop hleave.preheader h.loop).1 hin
    have hlt := ha.sizeOf_lt_of_inside hkn
    rcases houter n hn l p h with rfl | hnk
    · exact Nat.lt_irrefl _ hlt
    · exact Nat.lt_asymm hlt (ha.sizeOf_lt_of_inside hnk)
  · exact hno n hn l p h

/-- After the run nothing leaves a loop with a preheader. -/
theorem not_leaves (hg : f.Rearranged g) (hc : f.Coherent) (hl : a.forest.loop? n = some l)
    (hp : l.preheader = some p) : ¬ Leaves g a.slots settings l x := by
  intro h
  obtain ⟨c, hgc, hin⟩ := h.exists_owner
  have hout := hplaced.not_contains_of_leavesFor ha ⟨hl, hp, hplaced.leaves ha hg hc hl h⟩ hgc
  rw [hin] at hout
  cases hout

end Placed

/-! ## Two runs -/

/-- A run after which every instruction is where it was has made no relocation, as each takes its
instruction to another block and none takes it back. -/
theorem Trace.eq_of_owner {rs : List Relocation} (h : Trace f a settings rs g) (ha : Analyzed f a)
    (hc : f.Coherent) (hw : f.WellFormed)
    (hsame : ∀ x b, f.owner? x = some b → g.owner? x = some b) : rs = [] ∧ g = f := by
  have hnone : ∀ r, r ∉ rs := by
    intro r hr
    obtain ⟨l, instr, -, hinst, -⟩ := h.exists_hoistable ha hc hw r hr
    obtain ⟨b, hb⟩ : ∃ b, f.owner? r.inst = some b := by
      rw [← Option.isSome_iff_exists, Function.isSome_owner?_iff, hinst]
      rfl
    -- It was relocated, so it was lifted to a block that is not its old one.
    obtain ⟨c, hgc, hcase⟩ := h.owner_cases ha hc hw hb
    obtain rfl := Option.some.inj ((hsame r.inst b hb).symm.trans hgc)
    rcases hcase with ⟨-, hno⟩ | ⟨q, -, m, hlift⟩
    · exact hno r hr rfl
    · exact (hlift.dominates ha).1 rfl
  cases h with
  | start => exact ⟨rfl, rfl⟩
  | @step rs _ r _ _ _ _ _ _ =>
    exact absurd (List.mem_append_right rs List.mem_cons_self) (hnone r)

/-- When the loops have been gone through once, nothing leaves them any more, and going through them
again moves nothing. -/
theorem exists_processAll_again {h : Hoisting} (ha : Analyzed f a)
    (hc : f.Coherent) (hw : f.WellFormed) (hs : f.SingleAssignment)
    (hh : Hoisting.processAll a settings f = .ok h) :
    ∃ a' h', Current f a h.function a' ∧ Analyzed h.function a' ∧
      h.function.Coherent ∧ h.function.WellFormed ∧
      (∀ x n l p, ¬ LeavesFor h.function a' settings x n l p) ∧
      Hoisting.processAll a' settings h.function = .ok h' ∧ h'.function = h.function ∧
      h'.moves = [] := by
  obtain ⟨h₁, hh₁, htrace, hplaced⟩ := exists_processAll_placed ha hc hw hs settings
  obtain rfl : h = h₁ := Except.ok.inj (hh.symm.trans hh₁)
  have hg := htrace.rearranged ha hc hw
  have hcurrent := hg.current ha
  obtain ⟨a', hanalyze', ha'⟩ := exists_analyze hg.wellFormed
  obtain rfl := Except.ok.inj (hcurrent.analyze.symm.trans hanalyze')
  -- With the analyses of the first run nothing leaves, and those of the second say the same.
  have hno : ∀ x n l p, ¬ LeavesFor h.function { a with slots := .ofFunction h.function } settings
      x n l p := by
    intro x n l p hleave
    obtain ⟨d, hd, hdin⟩ := hleave.leaves.exists_owner
    have hleaves : Leaves h.function a.slots settings l x := hleave.leaves.of_larger
      (fun _ hb => hb) (fun _ => hcurrent.slots.hoistable_iff.1) hd hdin
    exact hplaced.not_leaves ha hg hc hleave.loop hleave.preheader hleaves
  obtain ⟨h', hh', htrace', hplaced'⟩ := exists_processAll_placed ha' hg.coherent hg.wellFormed
    (htrace.singleAssignment ha hc hw hs) settings
  have hsame : ∀ x b, h.function.owner? x = some b → h'.function.owner? x = some b := by
    intro x b hb
    obtain ⟨c, hc', ⟨n, -, l, hleave, -⟩ | ⟨-, hbc⟩⟩ := hplaced' x b hb
    · exact absurd hleave (hno x n l c)
    · rw [hc', ← hbc, hb]
  -- By its rule the second run then leaves every instruction in its block.
  obtain ⟨hnil, heq⟩ := htrace'.eq_of_owner ha' hg.coherent hg.wellFormed hsame
  exact ⟨_, h', hcurrent, ha', hg.coherent, hg.wellFormed, hno, hh', heq,
    List.reverse_eq_nil_iff.1 hnil⟩

/-- One run reaches the fixpoint. On a well-formed function in single-assignment form a second run
with the same settings succeeds as the first one does, gives the same function back, counts no
instruction as moved, and as many loops, with and without preheader, as the first one. And after an
active pass no instruction leaves a loop by the rule of the pass any more. -/
theorem hoistInvariants_again (f : Function) (hb : f.Built) (hv : f.validate = .ok ())
    (hs : f.SingleAssignment) (settings : Settings) :
    ∃ r counters r' counters', f.hoistInvariants settings = .ok r ∧ r.result = .ok counters ∧
      r.function.hoistInvariants settings = .ok r' ∧ r'.result = .ok counters' ∧
      r'.function = r.function ∧ r'.moves = [] ∧
      counters'.basicHoisted = 0 ∧ counters'.loadsHoisted = 0 ∧
      counters'.numLoops = counters.numLoops ∧ counters'.noPreheader = counters.noPreheader ∧
      (settings.isActive = true → ∃ a, r.function.analyze = .ok a ∧
        ∀ x n l p, ¬ LeavesFor r.function a settings x n l p) := by
  have hw := Function.violation?_eq_none_iff.1 (Function.validate_eq_ok_iff.1 hv)
  have hc := hb.coherent
  by_cases hactive : settings.isActive = true
  · obtain ⟨a, hanalyze, ha⟩ := exists_analyze hw
    obtain ⟨h, hh, htrace⟩ := exists_processAll ha hc hw settings
    obtain ⟨a', h', hcurrent, ha', hc', hw', hno, hh', heq, hnil⟩ :=
      exists_processAll_again ha hc hw hs hh
    have hrun := Function.hoistInvariants_eq hactive hw hanalyze hh hw'
    have hrun' := Function.hoistInvariants_eq hactive hw' hcurrent.analyze hh'
      (by rw [heq]; exact hw')
    -- Both runs go through the same loops, and the second one has no relocations to count.
    have hcount := tally_processAll ha hc hw hh
    have hcount' := tally_processAll ha' hc' hw' hh'
    rw [hcurrent.forest, hnil] at hcount'
    exact ⟨_, _, _, _, hrun, rfl, hrun', rfl, heq, by rw [hnil]; rfl, by rw [hcount']; rfl,
      by rw [hcount']; rfl, by rw [hcount, hcount']; rfl, by rw [hcount, hcount']; rfl,
      fun _ => ⟨a', hcurrent.analyze, hno⟩⟩
  · -- A pass that is not active gives every function back.
    have hrun : f.hoistInvariants settings = .ok { function := f, result := .ok {} } :=
      Function.hoistInvariants_of_skipped (by simp [hactive])
    exact ⟨_, {}, _, {}, hrun, rfl, hrun, rfl, rfl, rfl, rfl, rfl, rfl, rfl,
      fun htrue => absurd htrue hactive⟩

/-- A second run over the cascade moves nothing, though the first one moves an instruction twice. -/
theorem hoistInvariants_again_cascade :
    ∃ r r', cascade.hoistInvariants {} = .ok r ∧ r.moves.length = 4 ∧
      r.function.hoistInvariants {} = .ok r' ∧ r'.function = r.function ∧ r'.moves = [] := by
  obtain ⟨r, -, r', -, hr, -, hr', -, heq, hnil, -⟩ := hoistInvariants_again cascade
    built_cascade validate_cascade singleAssignment_cascade {}
  have hmoves : (cascade.hoistInvariants {}).map (fun r => r.moves.length) = .ok 4 := by
    decide +kernel
  rw [hr] at hmoves
  exact ⟨r, r', hr, Except.ok.inj hmoves, hr', heq, hnil⟩

end LoopHoist
