import LoopHoist.Proofs.Motion.SingleAssignment

/-!
# How a run ends

A run is rejected only at its start, by the check of the function that comes in, and then nothing
has moved (`HoistOutcome`). Behind the check nothing can fail: every block, instruction and loop
that is looked up exists, the dominators settle, every relocation finds its instruction and a
terminator to put it in front of, and what comes out passes the check again. So the way back to the
old function and the final check, which `Function.commit` has, are never needed, and the setting
that asks for the final check makes no difference (`processAll_withVerify`).

A function without blocks and a function that meets an inactive pass are not looked at. They are
given back as they are, whether they would pass the check or not.
-/

namespace LoopHoist

variable {f g : Function} {a : Analysis} {settings : Settings} {n : LoopId} {p : BlockId}
  {x : InstId} {verify : Bool}

/-! ## The setting of the final check -/

/-- The settings with the final check on or off. -/
def Settings.withVerify (s : Settings) (verify : Bool) : Settings := { s with verify }

/-- The state of a loop in a run with the final check on or off. -/
def LoopState.withVerify (s : LoopState) (verify : Bool) : LoopState :=
  { s with settings := s.settings.withVerify verify }

/-- A fold whose steps commute with a change of the state commutes with it. -/
theorem foldlM_commutes {α β ε : Type} {step : β → α → Except ε β} {change : β → β}
    (hstep : ∀ s x, step (change s) x = (step s x).map change) (xs : List α) (s : β) :
    xs.foldlM step (change s) = (xs.foldlM step s).map change := by
  induction xs generalizing s with
  | nil => rfl
  | cons x xs ih =>
    rw [List.foldlM_cons, List.foldlM_cons, hstep]
    cases step s x with
    | error e => rfl
    | ok t => exact ih t

/-- No verdict asks for the final check. -/
theorem LoopState.verdict_withVerify (s : LoopState) (g : Function) (x : InstId) :
    (s.withVerify verify).verdict g x = s.verdict g x := by
  have hverdict : (s.withVerify verify).verdictOf g = s.verdictOf g := by
    funext instr
    cases instr <;> rfl
  unfold LoopState.verdict
  rw [hverdict]

/-- One candidate is tried alike with the final check on or off. -/
theorem tryHoist_withVerify (n : LoopId) (p : BlockId) (verify : Bool)
    (st : Hoisting × LoopState) (x : InstId) :
    Hoisting.tryHoist n p (st.1, st.2.withVerify verify) x =
      (Hoisting.tryHoist n p st x).map fun st => (st.1, st.2.withVerify verify) := by
  unfold Hoisting.tryHoist
  rw [LoopState.verdict_withVerify]
  cases st.2.verdict st.1.function x with
  | error e => rfl
  | ok verdict =>
    cases verdict with
    | error reason => rfl
    | ok kind =>
      dsimp only
      cases st.1.function.move x p with
      | error e => rfl
      | ok g => rfl

/-- The state of a loop is found alike with the final check on or off. -/
theorem LoopState.startAt_withVerify (f : Function) (slots : StackSlots) (settings : Settings)
    (verify : Bool) (l : Loop) : startAt f slots (settings.withVerify verify) l =
      (startAt f slots settings l).map fun s => s.withVerify verify := by
  unfold startAt
  cases f.bodyAt l.blocks <;> rfl

/-- One loop is gone through alike with the final check on or off. -/
theorem processLoop_withVerify (a : Analysis) (settings : Settings) (verify : Bool) (h : Hoisting)
    (n : LoopId) : Hoisting.processLoop a (settings.withVerify verify) h n =
      Hoisting.processLoop a settings h n := by
  unfold Hoisting.processLoop
  rw [show LoopState.startAt h.function a.slots (settings.withVerify verify) = _ from
    funext (LoopState.startAt_withVerify h.function a.slots settings verify)]
  cases a.forest.loopAt n with
  | error e => rfl
  | ok l =>
    simp only [Except.mapError, ok_bind]
    cases LoopState.startAt h.function a.slots settings l with
    | error e => rfl
    | ok state =>
      simp only [Except.map, ok_bind]
      cases l.preheader with
      | none => rfl
      | some p =>
        cases Hoisting.candidatesAt h.function a.dominators.order l with
        | error e => rfl
        | ok candidates =>
          let counted : Hoisting := { h with counters := h.counters + .ofLoop state.memory }
          -- The two folds start in states that differ by the setting alone, and stay so.
          have hfold : candidates.foldlM (Hoisting.tryHoist n p)
              (counted, state.withVerify verify) =
                (candidates.foldlM (Hoisting.tryHoist n p) (counted, state)).map fun st =>
                  (st.1, st.2.withVerify verify) :=
            foldlM_commutes (tryHoist_withVerify n p verify) candidates (counted, state)
          show (candidates.foldlM (Hoisting.tryHoist n p) (counted, state.withVerify verify) >>=
              fun st => pure st.1) =
            candidates.foldlM (Hoisting.tryHoist n p) (counted, state) >>= fun st => pure st.1
          rw [hfold]
          cases candidates.foldlM (Hoisting.tryHoist n p) (counted, state) with
          | error e => rfl
          | ok st => rfl

/-- All loops are gone through alike with the final check on or off. -/
theorem processAll_withVerify (a : Analysis) (settings : Settings) (verify : Bool) (f : Function) :
    Hoisting.processAll a (settings.withVerify verify) f = Hoisting.processAll a settings f := by
  have hloop : Hoisting.processLoop a (settings.withVerify verify) =
      Hoisting.processLoop a settings := by
    funext h n
    exact processLoop_withVerify a settings verify h n
  unfold Hoisting.processAll
  rw [hloop]

/-! ## All functions -/

/-- Whether the pass looks at a function: it is active and the function has a block. -/
def LookedAt (f : Function) (settings : Settings) : Prop :=
  settings.isActive = true ∧ f.isDeclaration = false

/-- What the pass does not look at is what its first test sorts out. -/
theorem not_lookedAt_iff :
    ¬ LookedAt f settings ↔ (f.isDeclaration || !settings.isActive) = true := by
  unfold LookedAt
  cases f.isDeclaration <;> cases settings.isActive <;> simp

/-- How a run over `f` ends. -/
structure HoistOutcome (f : Function) (settings : Settings) (r : HoistResult) : Prop where
  /-- The run is rejected exactly if the pass looks at the function and the check finds something
  broken, which is then the error. -/
  rejected : ∀ v, r.result = .error v ↔ LookedAt f settings ∧ f.validate = .error v
  /-- A rejected function is given back as it was. -/
  unchanged : ∀ v, r.result = .error v → r.function = f ∧ r.moves = []
  /-- So is a function that the pass does not look at, with all counters zero. -/
  skipped : ¬ LookedAt f settings → r.function = f ∧ r.moves = [] ∧ r.result = .ok {}
  /-- On any other function the analysis and going through the loops do not fail, at no look-up and
  at no relocation, and give the result, which passes the check. -/
  done : LookedAt f settings → f.validate = .ok () →
    ∃ a h, f.analyze = .ok a ∧ Hoisting.processAll a settings f = .ok h ∧
      r.function = h.function ∧ r.moves = h.moves.reverse ∧ r.result = .ok h.counters ∧
      f.relocateAll r.moves = .ok r.function ∧ r.function.validate = .ok ()

/-- What the pass does not look at ends as it is. -/
theorem HoistOutcome.of_skipped (h : ¬ LookedAt f settings) :
    HoistOutcome f settings { function := f, result := .ok {} } where
  rejected v := by
    constructor
    · intro heq
      cases heq
    · exact fun hlook => absurd hlook.1 h
  unchanged v hv := by cases hv
  skipped _ := ⟨rfl, rfl, rfl⟩
  done hlook := absurd hlook h

/-- A function that is looked at and does not pass the check is rejected. -/
theorem HoistOutcome.of_violation {v : Violation} (h : LookedAt f settings)
    (hv : f.validate = .error v) :
    HoistOutcome f settings { function := f, result := .error v } where
  rejected w := by
    rw [hv]
    constructor
    · intro heq
      cases heq
      exact ⟨h, rfl⟩
    · rintro ⟨-, heq⟩
      cases heq
      rfl
  unchanged _ _ := ⟨rfl, rfl⟩
  skipped hskip := absurd h hskip
  done _ hok := by
    rw [hv] at hok
    cases hok

/-- A function that is looked at and passes the check is gone through to the end. -/
theorem HoistOutcome.of_processAll {h : Hoisting} (hlook : LookedAt f settings)
    (hv : f.validate = .ok ()) (hanalyze : f.analyze = .ok a)
    (hh : Hoisting.processAll a settings f = .ok h)
    (hmoves : f.relocateAll h.moves.reverse = .ok h.function)
    (hv' : h.function.validate = .ok ()) :
    HoistOutcome f settings
      { function := h.function, result := .ok h.counters, moves := h.moves.reverse } where
  rejected v := by
    rw [hv]
    constructor
    · intro heq
      cases heq
    · rintro ⟨-, heq⟩
      cases heq
  unchanged v hv := by cases hv
  skipped hskip := absurd hlook hskip
  done _ _ := ⟨a, h, hanalyze, hh, rfl, rfl, rfl, hmoves, hv'⟩

/-- Every run over a function that edits have made ends in such a way. -/
theorem exists_hoistOutcome (hb : f.Built) (settings : Settings) :
    ∃ r, f.hoistInvariants settings = .ok r ∧ HoistOutcome f settings r := by
  by_cases hlook : LookedAt f settings
  · obtain ⟨hactive, hdecl⟩ := id hlook
    cases hv : f.violation? with
    | some v =>
      -- The run ends before anything is analysed.
      have hvalid : f.validate = .error v := by
        unfold Function.validate
        rw [hv]
      have hrun : f.hoistInvariants settings = .ok { function := f, result := .error v } := by
        unfold Function.hoistInvariants
        simp [hactive, hdecl, hv]
      exact ⟨_, hrun, .of_violation hlook hvalid⟩
    | none =>
      -- Behind the check there is an analysis, a run over all loops, and a well-formed result.
      have hw := Function.violation?_eq_none_iff.1 hv
      obtain ⟨a, hanalyze, ha⟩ := exists_analyze hw
      obtain ⟨h, hh, htrace⟩ := exists_processAll ha hb.coherent hw settings
      have hw' := (htrace.rearranged ha hb.coherent hw).wellFormed
      exact ⟨_, Function.hoistInvariants_eq hactive hw hanalyze hh hw', .of_processAll hlook
        (Function.validate_eq_ok_iff.2 hv) hanalyze hh htrace.relocateAll_eq
        (Function.validate_eq_ok_iff.2 (Function.violation?_eq_none_iff.2 hw'))⟩
  · exact ⟨_, Function.hoistInvariants_of_skipped (not_lookedAt_iff.1 hlook), .of_skipped hlook⟩

/-- With the final check on or off, a run ends alike: the way of ending determines the result. -/
theorem HoistOutcome.eq_withVerify {r r' : HoistResult} (h : HoistOutcome f settings r)
    (h' : HoistOutcome f (settings.withVerify verify) r') : r' = r := by
  have hext : r'.function = r.function → r'.result = r.result → r'.moves = r.moves → r' = r := by
    intro hfun hres hmoves
    cases r
    cases r'
    simp_all only
  by_cases hlook : LookedAt f settings
  · cases hv : f.validate with
    | error v =>
      have hres := (h.rejected v).2 ⟨hlook, hv⟩
      have hres' := (h'.rejected v).2 ⟨hlook, hv⟩
      obtain ⟨hfun, hmoves⟩ := h.unchanged v hres
      obtain ⟨hfun', hmoves'⟩ := h'.unchanged v hres'
      exact hext (hfun'.trans hfun.symm) (hres'.trans hres.symm) (hmoves'.trans hmoves.symm)
    | ok u =>
      -- Both runs go through the same loops, and none of these asks for the setting.
      obtain ⟨a, g, ha, hg, hfun, hmoves, hres, -⟩ := h.done hlook hv
      obtain ⟨a', g', ha', hg', hfun', hmoves', hres', -⟩ := h'.done hlook hv
      obtain rfl := Except.ok.inj (ha.symm.trans ha')
      rw [processAll_withVerify] at hg'
      obtain rfl := Except.ok.inj (hg.symm.trans hg')
      exact hext (hfun'.trans hfun.symm) (hres'.trans hres.symm) (hmoves'.trans hmoves.symm)
  · obtain ⟨hfun, hmoves, hres⟩ := h.skipped hlook
    obtain ⟨hfun', hmoves', hres'⟩ := h'.skipped hlook
    exact hext (hfun'.trans hfun.symm) (hres'.trans hres.symm) (hmoves'.trans hmoves.symm)

/-- A run of the pass never faults and never stops half-way. Whatever function edits have made, and
under all settings, it ends: it is rejected exactly if the pass is active, the function has a block
and does not pass the check, with the error of the check and the function as it was; a function that
the pass does not look at is given back as it was; and on any other function no look-up faults, no
relocation fails, and the result passes the check again. With the final check on or off, all is the
same. -/
theorem hoistInvariants_outcome (f : Function) (hb : f.Built) (settings : Settings) :
    ∃ r, f.hoistInvariants settings = .ok r ∧ HoistOutcome f settings r ∧
      ∀ verify, f.hoistInvariants (settings.withVerify verify) = .ok r := by
  obtain ⟨r, hr, hend⟩ := exists_hoistOutcome hb settings
  refine ⟨r, hr, hend, fun verify => ?_⟩
  obtain ⟨r', hr', hend'⟩ := exists_hoistOutcome hb (settings.withVerify verify)
  rw [hr', hend.eq_withVerify hend']

/-- A loop in which a square can be computed beforehand, not finished: its block has no
terminator. -/
def unfinished : Function :=
  Function.edits { name := "unfinished" }
    [.addParam .i64, .addBlock "entry", .addBlock "loop", .addValue, .append ⟨0⟩ (.jump ⟨1⟩),
      .append ⟨1⟩ (.compute ⟨1⟩ (.int .mul .i64 (.value ⟨0⟩) (.value ⟨0⟩)))]

/-- The pass rejects the unfinished loop with the error of the check, and gives it back as it was.
-/
theorem hoistInvariants_outcome_unfinished :
    ∃ r, unfinished.hoistInvariants {} = .ok r ∧ HoistOutcome unfinished {} r ∧
      r.result = .error (.missingTerminator ⟨1⟩ "loop") ∧ r.function = unfinished := by
  obtain ⟨r, hr, hend, -⟩ := hoistInvariants_outcome unfinished
    ((Function.Built.new "unfinished" [] none).edits _ (by decide)) {}
  have hres : r.result = .error (.missingTerminator ⟨1⟩ "loop") :=
    (hend.rejected _).2 ⟨⟨by decide, by decide⟩, by decide⟩
  exact ⟨r, hr, hend, hres, (hend.unchanged _ hres).1⟩

/-- A function without blocks, and so without an entry. -/
def declaration : Function := { name := "declaration" }

/-- The pass succeeds on a declaration, but what it gives back does not pass the check: it was not
looked at. -/
theorem not_validate_hoistInvariants_declaration :
    declaration.Built ∧ ∃ r, declaration.hoistInvariants {} = .ok r ∧ r.result = .ok {} ∧
      r.function.validate = .error (.missingEntryBlock "declaration") :=
  ⟨Function.Built.new "declaration" [] none, _, rfl, rfl, rfl⟩

end LoopHoist
