import LoopHoist.Proofs.Memory.SafeLoads
import LoopHoist.Proofs.Motion.Census

/-!
# Settings that permit more

Two settings let more loads move: the one that lets them move at all, and the alias policy. Under
settings that permit more, what could leave a loop still can (`Hoistable.loosen`), so what leaves it
by the rule of the pass still does (`LeavesFor.loosen`). The two runs soon differ, as a load that
moves makes other operands invariant; but where each puts an instruction is said by the rule alone.
A loop has lost what leaves it or a loop around it (`Placed.lost_iff_around`), so under settings
that permit more every loop loses what it lost, and no less is counted
(`hoistInvariants_permissive`).
-/

namespace LoopHoist

variable {f g : Function} {a : Analysis} {s t : Settings} {slots : StackSlots} {l m : Loop}
  {n : LoopId} {p : BlockId} {x : InstId} {instr : Instruction} {addr : Operand}

/-- Whether settings differ from others in one thing, and permit more: loads move at all, or under
the wider alias policy. -/
inductive Settings.Loosens : Settings → Settings → Prop where
  /-- Loads may move, and else they stay. -/
  | loads (s : Settings) (h : s.hoistLoads = true) : Loosens s.withoutLoads s
  /-- The alias policy is the wider one, and else the narrower one. -/
  | aliasPolicy (s : Settings) (h : s.aliasPolicy = .strict) :
    Loosens (s.withAliasPolicy .globalsOnly) s

/-- Neither setting matters to whether the pass is active. -/
theorem Settings.Loosens.isActive_eq (h : s.Loosens t) : t.isActive = s.isActive := by
  cases h <;> rfl

/-- What is safe under the narrower alias policy is safe under the wider one. -/
theorem LoopState.loadIsSafe_of_globalsOnly (hstrict : s.aliasPolicy = .strict)
    (h : (start f slots (s.withAliasPolicy .globalsOnly) l).loadIsSafe f addr = true) :
    (start f slots s l).loadIsSafe f addr = true := by
  unfold loadIsSafe start Settings.withAliasPolicy at h
  unfold loadIsSafe start
  dsimp only at h ⊢
  rw [hstrict]
  -- The narrower policy wants a global, and neither stores nor calls in the loop.
  cases hobject : f.object? slots addr with
  | none =>
    rw [hobject] at h
    cases h
  | some o =>
    rw [hobject] at h
    cases o with
    | global v =>
      simp only [Bool.and_eq_true, Bool.not_eq_true'] at h ⊢
      exact LoopMemory.mayWrite_eq_false_of_quiet h.1 h.2 (.global v)
    | stack v => cases h

/-- What may leave a loop may leave it under settings that permit more. -/
theorem Hoistable.loosen (hst : s.Loosens t) (h : Hoistable f slots s l instr) :
    Hoistable f slots t l instr := by
  rcases h with hord | ⟨dst, ty, addr, access, rfl, hset, hvol, hsafe⟩
  · exact .inl hord
  · cases hst with
    | loads => cases hset
    | aliasPolicy _ hstrict =>
      exact .inr ⟨dst, ty, addr, access, rfl, hset, hvol,
        LoopState.loadIsSafe_of_globalsOnly hstrict hsafe⟩

/-- What leaves a loop leaves it under settings that permit more. -/
theorem LeavesFor.loosen (hst : s.Loosens t) (h : LeavesFor f a s x n l p) :
    LeavesFor f a t x n l p := by
  obtain ⟨b, hb, hin⟩ := h.leaves.exists_owner
  exact ⟨h.loop, h.preheader,
    h.leaves.of_larger (fun _ hb => hb) (fun _ => Hoistable.loosen hst) hb hin⟩

/-- A loop has lost what was in it and leaves it, or a loop around it, for a preheader. -/
theorem Placed.lost_iff_around (hplaced : Placed f a s a.forest.postorder g) (ha : Analyzed f a)
    (hl : a.forest.loop? n = some l) : l.lost f g x = true ↔
      (∃ b, f.owner? x = some b ∧ l.contains b = true) ∧
        ∃ k m p, LeavesFor f a s x k m p ∧ (k = n ∨ a.forest.Inside n k) := by
  rw [Loop.lost, Bool.and_eq_true, Option.any_eq_true, Bool.not_eq_true']
  refine and_congr_right ?_
  rintro ⟨b, hb, hin⟩
  obtain ⟨c, hgc, -⟩ := hplaced x b hb
  rw [hgc, Option.any_some]
  constructor
  · intro hout
    rcases hplaced.owner_cases hb hgc with ⟨k, -, m, hleave, hbin, -⟩ | ⟨rfl, -⟩
    · refine ⟨k, m, c, hleave, ?_⟩
      rcases ha.comparable hleave.loop hl hbin hin with heq | hkn | hnk
      · exact .inl heq
      · -- The preheader of a loop inside this one would be in this one.
        have := (ha.contains_preheader_iff hleave.loop hleave.preheader hl).2 hkn
        rw [hout] at this
        cases this
      · exact .inr hnk
    · rw [hin] at hout
      cases hout
  · rintro ⟨k, m, p, hleave, hnk⟩
    have hout := hplaced.not_contains_of_leavesFor ha hleave hgc
    rw [Bool.eq_false_iff] at hout ⊢
    rcases hnk with rfl | hnk
    · obtain rfl := Option.some.inj (hl.symm.trans hleave.loop)
      exact hout
    · exact fun hc => hout (ha.contains_of_inside hl hleave.loop hnk hc)

/-- Where every loop has lost at least what it lost before, there are at least as many losses. -/
theorem losses_mono {ls : List Loop} {g' : Function}
    (h : ∀ l ∈ ls, ∀ x, l.lost f g x = true → l.lost f g' x = true) (c : Category) :
    losses ls f g c ≤ losses ls f g' c := by
  refine List.sum_le_sum fun x _ => List.countP_mono_left fun l hl => ?_
  rw [Bool.and_eq_true, Bool.and_eq_true]
  exact fun hlost => ⟨hlost.1, h l hl x hlost.2⟩

/-- Settings that permit more never hoist less. On a well-formed function in single-assignment form,
let loads move where they stayed or widen the alias policy, and the pass is still active; then every
loop, with a preheader or without, loses at least the instructions that it lost. So there are at
least as many relocations of either kind, and the counters show it as long as handles can name all
blocks and instructions. -/
theorem hoistInvariants_permissive (f : Function) (hb : f.Built) (hv : f.validate = .ok ())
    (hs : f.SingleAssignment) (s t : Settings) (hst : s.Loosens t) (hactive : s.isActive = true) :
    ∃ a r u c d, f.analyze = .ok a ∧ f.hoistInvariants s = .ok r ∧ f.hoistInvariants t = .ok u ∧
      r.result = .ok c ∧ u.result = .ok d ∧
      (∀ l ∈ a.forest.loops, ∀ x, l.lost f r.function x = true → l.lost f u.function x = true) ∧
      (∀ kind, r.moves.countP (fun r => r.kind == kind) ≤ u.moves.countP fun r => r.kind == kind) ∧
      (f.size ≤ handleCount → f.insts.size ≤ handleCount →
        c.basicHoisted ≤ d.basicHoisted ∧ c.loadsHoisted ≤ d.loadsHoisted) := by
  have hw := Function.violation?_eq_none_iff.1 (Function.validate_eq_ok_iff.1 hv)
  have hc := hb.coherent
  obtain ⟨a, r, hanalyze, ha, hr, hplaced, hres, hcount⟩ := exists_census hc hw hs hactive
  obtain ⟨a', u, hanalyze', -, hu, hplaced', hres', hcount'⟩ :=
    exists_census hc hw hs (hst.isActive_eq.trans hactive)
  obtain rfl := Except.ok.inj (hanalyze.symm.trans hanalyze')
  -- A loop loses what leaves it or a loop around it, and what leaves still does when more may.
  have hlost : ∀ l ∈ a.forest.loops, ∀ x,
      l.lost f r.function x = true → l.lost f u.function x = true := by
    intro l hl x hx
    rw [ha.forest] at hl
    obtain ⟨n, hl⟩ := Cfg.mem_loops.1 hl
    rw [← ha.forest] at hl
    obtain ⟨hin, k, m, p, hleave, hnk⟩ := (hplaced.lost_iff_around ha hl).1 hx
    exact (hplaced'.lost_iff_around ha hl).2 ⟨hin, k, m, p, hleave.loosen hst, hnk⟩
  have hmono := losses_mono hlost
  refine ⟨a, r, u, _, _, hanalyze, hr, hu, hres, hres', hlost, fun kind => ?_,
    fun hblocks hinsts => ?_⟩
  · rw [hcount, hcount']
    exact hmono kind.category
  · have hfits := ha.census_fits hc hw r.function hblocks hinsts
    have hfits' := ha.census_fits hc hw u.function hblocks hinsts
    rw [UInt64.le_iff_toNat_le, UInt64.le_iff_toNat_le, hfits.ordinary, hfits'.ordinary,
      hfits.loads, hfits'.loads]
    exact ⟨hmono .ordinary, hmono .load⟩

/-- Two nested loops. The inner one runs twice each time. It reads a level that the outer one
raises, and adds a parameter to it. -/
def tide : Function :=
  Function.edits { name := "tide" }
    [.addParam .i64, .addGlobal "level", .addGlobal "round", .addValue, .addValue, .addValue,
      .addValue, .addValue, .addValue, .addBlock "entry", .addBlock "outer", .addBlock "inner",
      .addBlock "rise", .addBlock "exit",
      .append ⟨0⟩ (.jump ⟨1⟩), .append ⟨1⟩ (.jump ⟨2⟩),
      .append ⟨2⟩ (.load ⟨3⟩ .i64 (.value ⟨1⟩) {}),
      .append ⟨2⟩ (.compute ⟨4⟩ (.int .add .i64 (.value ⟨3⟩) (.value ⟨0⟩))),
      .append ⟨2⟩ (.load ⟨5⟩ .i64 (.value ⟨2⟩) {}),
      .append ⟨2⟩ (.compute ⟨6⟩ (.int .xor .i64 (.value ⟨5⟩) (.imm (.i64 1)))),
      .append ⟨2⟩ (.store .i64 (.value ⟨6⟩) (.value ⟨2⟩) {}),
      .append ⟨2⟩ (.branch (.value ⟨6⟩) ⟨2⟩ ⟨3⟩),
      .append ⟨3⟩ (.load ⟨7⟩ .i64 (.value ⟨1⟩) {}),
      .append ⟨3⟩ (.compute ⟨8⟩ (.int .add .i64 (.value ⟨7⟩) (.imm (.i64 1)))),
      .append ⟨3⟩ (.store .i64 (.value ⟨8⟩) (.value ⟨1⟩) {}),
      .append ⟨3⟩ (.branch (.value ⟨8⟩) ⟨1⟩ ⟨4⟩), .append ⟨4⟩ (.ret none)]

/-- The tide is made by edits. -/
theorem built_tide : tide.Built :=
  (Function.Built.new "tide" [] none).edits _ (by decide)

/-- The tide passes the check. -/
theorem validate_tide : tide.validate = .ok () :=
  Function.validate_eq_ok_iff.2 (by decide)

/-- The tide is in single-assignment form. -/
theorem singleAssignment_tide : tide.SingleAssignment :=
  .of_local (by decide) (by decide) (by decide)

/-- When loads may move, the load and the sum of the cascade leave its inner loop too, which they do
not under settings that keep loads where they are. When the alias policy is the wider one, the level
and the sum of the tide leave its inner loop, which they do not under the narrower one, as that loop
stores. -/
theorem hoistInvariants_permissive_cascade :
    (∃ a r u, cascade.analyze = .ok a ∧
      cascade.hoistInvariants (Settings.withoutLoads {}) = .ok r ∧
      cascade.hoistInvariants {} = .ok u ∧ r.moves.length = 2 ∧ u.moves.length = 4 ∧
      ∀ l ∈ a.forest.loops, ∀ x,
        l.lost cascade r.function x = true → l.lost cascade u.function x = true) ∧
    ∃ a r u, tide.analyze = .ok a ∧ tide.hoistInvariants {} = .ok r ∧
      tide.hoistInvariants (Settings.withAliasPolicy {} .strict) = .ok u ∧
      r.moves.length = 0 ∧ u.moves.length = 2 ∧
      ∀ l ∈ a.forest.loops, ∀ x,
        l.lost tide r.function x = true → l.lost tide u.function x = true := by
  constructor
  · obtain ⟨a, r, u, -, -, ha, hr, hu, -, -, hlost, -⟩ := hoistInvariants_permissive cascade
      built_cascade validate_cascade singleAssignment_cascade (Settings.withoutLoads {}) {}
      (.loads {} rfl) (by decide)
    have hfew : (cascade.hoistInvariants (Settings.withoutLoads {})).map (·.moves.length) =
        .ok 2 := by
      decide +kernel
    have hmany : (cascade.hoistInvariants {}).map (·.moves.length) = .ok 4 := by decide +kernel
    rw [hr] at hfew
    rw [hu] at hmany
    exact ⟨a, r, u, ha, hr, hu, Except.ok.inj hfew, Except.ok.inj hmany, hlost⟩
  · obtain ⟨a, r, u, -, -, ha, hr, hu, -, -, hlost, -⟩ := hoistInvariants_permissive tide
      built_tide validate_tide singleAssignment_tide {} (Settings.withAliasPolicy {} .strict)
      (.aliasPolicy (Settings.withAliasPolicy {} .strict) rfl) (by decide)
    have hfew : (tide.hoistInvariants {}).map (·.moves.length) = .ok 0 := by decide +kernel
    have hmany : (tide.hoistInvariants (Settings.withAliasPolicy {} .strict)).map
        (·.moves.length) = .ok 2 := by
      decide +kernel
    rw [hr] at hfew
    rw [hu] at hmany
    exact ⟨a, r, u, ha, hr, hu, Except.ok.inj hfew, Except.ok.inj hmany, hlost⟩

end LoopHoist
