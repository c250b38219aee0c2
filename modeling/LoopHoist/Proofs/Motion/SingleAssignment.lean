import LoopHoist.Proofs.Motion.Trace

/-!
# Single assignment

In a function in single-assignment form every value has at most one defining instruction, and
wherever a value is used it is available: given, or defined earlier in the same block or in a block
that strictly dominates it. A phi uses its operands at the end of the blocks that they come from.

One relocation of the pass keeps this form (`SingleAssignment.of_legal`). The moved instruction goes
up in the order of dominance, from a block of the loop to the preheader, so it stays before its uses
(`Relocates.available`). Its operands are defined outside the loop and dominate
it, so they dominate the preheader too (`SingleAssignment.available_operand`).
-/

namespace LoopHoist

namespace Function

variable {f g g' : Function} {a : Analysis} {settings : Settings} {l : Loop} {r : Relocation}
  {b dest src : BlockId} {i j t : InstId} {v : ValueId} {instr : Instruction}
  {before before' xs ys zs : List InstId}

/-- Whether a value is there at a place in a block, behind the instructions `before`: it is given,
or it comes from one of them or from an instruction of a strictly dominating block. -/
def Available (f : Function) (b : BlockId) (before : List InstId) (v : ValueId) : Prop :=
  f.Given v ∨ ∃ j, f.def? v = some (.inst j) ∧
    (j ∈ before ∨ ∃ c, c ≠ b ∧ (Cfg.ofFunction f).Dominates c b ∧ j ∈ f.instsOf c)

/-- Whether no value is written by two instructions. -/
def WritesOnce (f : Function) : Prop :=
  ∀ b c i j instr instr' v, i ∈ f.instsOf b → j ∈ f.instsOf c → f.inst? i = some instr →
    f.inst? j = some instr' → instr.def? = some v → instr'.def? = some v → i = j

/-- No value is written by two instructions exactly when no two placed ones have the same result. -/
theorem writesOnce_iff : f.WritesOnce ↔
    ∀ p ∈ f.placed, ∀ q ∈ f.placed, p.2.def? = q.2.def? → p.2.def? = none ∨ p.1 = q.1 := by
  constructor
  · rintro h ⟨i, instr⟩ hp ⟨j, instr'⟩ hq heq
    obtain ⟨⟨b, hi⟩, hinst⟩ := mem_placed.1 hp
    obtain ⟨⟨c, hj⟩, hinst'⟩ := mem_placed.1 hq
    rcases Option.eq_none_or_eq_some instr.def? with hnone | ⟨v, hv⟩
    · exact .inl hnone
    · exact .inr (h b c i j instr instr' v hi hj hinst hinst' hv (heq.symm.trans hv))
  · intro h b c i j instr instr' v hi hj hinst hinst' hv hv'
    have := h (i, instr) (mem_placed.2 ⟨⟨b, hi⟩, hinst⟩) (j, instr')
      (mem_placed.2 ⟨⟨c, hj⟩, hinst'⟩) (hv.trans hv'.symm)
    exact this.resolve_left fun hnone => by cases hv.symm.trans hnone

instance (f : Function) : Decidable f.WritesOnce := decidable_of_iff' _ writesOnce_iff

/-- Whether a function is in single-assignment form, its unreachable blocks apart. -/
structure SingleAssignment (f : Function) : Prop where
  /-- No value is written by two instructions. -/
  writesOnce : f.WritesOnce
  /-- What an instruction other than a phi uses is available before it. -/
  uses : ∀ b xs i ys instr, (Cfg.ofFunction f).Reachable b → f.instsOf b = xs ++ i :: ys →
    f.inst? i = some instr → (∀ dst ty ins, instr ≠ .phi dst ty ins) →
    ∀ v ∈ instr.usedValues, f.Available b xs v
  /-- What a phi takes from a reachable predecessor is available at the end of it. -/
  phis : ∀ b i dst ty ins, (Cfg.ofFunction f).Reachable b → i ∈ f.instsOf b →
    f.inst? i = some (.phi dst ty ins) → ∀ q ∈ ins, (Cfg.ofFunction f).Reachable q.1 →
    b ∈ f.successors q.1 → ∀ v, q.2.value? = some v → f.Available q.1 (f.instsOf q.1) v

/-- A value that comes from an instruction is available where that instruction was before. -/
theorem available_iff_of_inst (hj : f.def? v = some (.inst j)) : f.Available b before v ↔
    j ∈ before ∨ ∃ c, c ≠ b ∧ (Cfg.ofFunction f).Dominates c b ∧ j ∈ f.instsOf c := by
  unfold Available Given
  rw [hj]
  simp

/-- A relocation to a block that strictly dominates the old one leaves every value available where
it was, behind the same instructions but for the relocated one. -/
theorem Relocates.available (h : f.Relocates g i src dest xs ys zs t) (hc : f.Coherent)
    (hdom : (Cfg.ofFunction f).Dominates dest src)
    (hnot : ¬ (Cfg.ofFunction f).Dominates src dest) (hb : before ⊆ f.instsOf b)
    (hbefore : ∀ k, k ≠ i → k ∈ before → k ∈ before') (hv : f.Available b before v) :
    g.Available b before' v := by
  unfold Available Given
  rw [h.ofFunction_eq]
  simp only [h.def?_eq]
  refine hv.imp_right fun ⟨j, hj, hwhere⟩ => ⟨j, hj, ?_⟩
  by_cases hji : j = i
  · -- The moved instruction was in a block that dominates, and now is in one further up.
    subst hji
    have hsrc : (Cfg.ofFunction f).Dominates src b := by
      rcases hwhere with hj | ⟨c, -, hcb, hj⟩
      · rw [h.eq_source_of_mem hc (hb hj)]
        exact Cfg.dominates_refl _ _
      · rw [← h.eq_source_of_mem hc hj]
        exact hcb
    exact .inr ⟨dest, fun hd => hnot (hd ▸ hsrc), hdom.trans hsrc, h.mem_target_after⟩
  · refine hwhere.imp (hbefore j hji) ?_
    exact fun ⟨c, hcb, hdom', hj⟩ => ⟨c, hcb, hdom', (h.mem_iff_of_ne hji).2 hj⟩

namespace SingleAssignment

/-- The operands of an instruction that the pass moves are available at the end of the preheader. -/
theorem available_operand (hs : g.SingleAssignment) (hr : Legal f a settings g r g' l src instr)
    (ha : Analyzed f a) (hg : f.Rearranged g) (hzs : g.instsOf r.preheader = zs ++ [t])
    (hv : v ∈ instr.usedValues) : g.Available r.preheader zs v := by
  obtain ⟨hgate, -⟩ := ha.isGate hr.loop hr.preheader
  have hsrc : (Cfg.ofFunction f).InBody l.header src := (ha.contains_iff hr.loop).1 hr.inside
  have hreach := ha.tree.reachable_of_contains (ha.isLoop hr.loop) hr.inside
  rcases hr.operands v hv with hgiven | ⟨j, c, hj, hjc, hout⟩
  · exact .inl hgiven
  · have hout' : ¬ (Cfg.ofFunction f).InBody l.header c := fun hin => by
      rw [← ha.contains_iff hr.loop, hout] at hin
      cases hin
    -- Before the move the operand was available in a block of the loop, so its block dominates.
    have hdom : (Cfg.ofFunction f).Dominates c src := by
      obtain ⟨us, vs, hus⟩ := List.append_of_mem ((hg.coherent.mem_iff _ _).2 hr.owner)
      have havail := hs.uses src us r.inst vs instr (hg.graph ▸ hreach) hus hr.content
        (exists_def_of_movable hr.hoistable.movable).2.1 v hv
      rcases (available_iff_of_inst hj).1 havail with hmem | ⟨c', -, hc', hmem⟩
      · have hjs : j ∈ g.instsOf src := by rw [hus]; simp [hmem]
        obtain rfl := hg.coherent.eq_of_owner? hjc hjs
        exact absurd hsrc hout'
      · obtain rfl := hg.coherent.eq_of_owner? hjc hmem
        exact hg.graph ▸ hc'
    have hcp := hgate.dominates_of_outside hout' hsrc hreach hdom
    rw [available_iff_of_inst hj]
    by_cases hne : c = r.preheader
    · -- The terminator of the preheader defines nothing.
      have hmem := (hg.coherent.mem_iff j c).2 hjc
      rw [hne, hzs, List.mem_append, List.mem_singleton] at hmem
      refine .inl (hmem.resolve_right fun hjt => ?_)
      obtain ⟨instr', hinst', hdef'⟩ := hg.coherent.def_inst v j hj
      have hterm := (hg.wellFormed.terminator r.preheader zs j [] instr' (hjt ▸ hzs) hinst').2 rfl
      cases hdef'.symm.trans (Instruction.def?_eq_none hterm)
    · exact .inr ⟨c, hne, hg.graph ▸ hcp, (hg.coherent.mem_iff j c).2 hjc⟩

/-- One relocation of the pass keeps the single-assignment form. -/
theorem of_legal (hs : g.SingleAssignment) (hr : Legal f a settings g r g' l src instr)
    (ha : Analyzed f a) (hg : f.Rearranged g) : g'.SingleAssignment := by
  obtain ⟨xs, ys, zs, t, h⟩ := hr.exists_relocates ha hg
  obtain ⟨hgate, hreach⟩ := ha.isGate hr.loop hr.preheader
  have hsrc : (Cfg.ofFunction f).InBody l.header src := (ha.contains_iff hr.loop).1 hr.inside
  have havail : ∀ {b before before' v}, before ⊆ g.instsOf b →
      (∀ k, k ≠ r.inst → k ∈ before → k ∈ before') → g.Available b before v →
      g'.Available b before' v :=
    h.available hg.coherent (hg.graph ▸ hgate.dominates_body hsrc)
      (hg.graph ▸ hgate.not_dominates hsrc hreach)
  refine ⟨fun b c i j iI jI v hi hj hiI hjI hiv hjv => ?_, ?_, ?_⟩
  · rw [h.inst?_eq] at hiI hjI
    obtain ⟨b', hi'⟩ := h.exists_mem_iff.1 ⟨b, hi⟩
    obtain ⟨c', hj'⟩ := h.exists_mem_iff.1 ⟨c, hj⟩
    exact hs.writesOnce b' c' i j iI jI v hi' hj' hiI hjI hiv hjv
  · intro b us i vs iI hb hl hiI hphi v hv
    rw [h.ofFunction_eq] at hb
    rw [h.inst?_eq] at hiI
    by_cases hi : i = r.inst
    · -- The moved instruction itself, in front of the terminator of the preheader.
      subst hi
      obtain ⟨rfl, rfl, rfl⟩ := h.eq_of_split hg.coherent hl
      obtain rfl := Option.some.inj (hr.content.symm.trans hiI)
      refine havail (fun k hk => ?_) (fun k _ hk => hk)
        (hs.available_operand hr ha hg h.target hv)
      rw [h.target]
      exact List.mem_append_left _ hk
    · obtain ⟨us', vs', hl', hmem⟩ := h.exists_split hi hl
      refine havail (fun k hk => ?_) (fun k hk hk' => (hmem k hk).1 hk')
        (hs.uses b us' i vs' iI hb hl' hiI hphi v hv)
      rw [hl']
      exact List.mem_append_left _ hk
  · intro b i dst ty ins hb hi hiI q hq hqr hqb v hv
    rw [h.ofFunction_eq] at hb hqr
    rw [h.inst?_eq] at hiI
    rw [h.successors_eq] at hqb
    have hne : i ≠ r.inst := fun hir => by
      rw [hir, hr.content] at hiI
      exact (exists_def_of_movable hr.hoistable.movable).2.1 dst ty ins (Option.some.inj hiI)
    exact havail (List.Subset.refl _) (fun k hk hk' => (h.mem_iff_of_ne hk).2 hk')
      (hs.phis b i dst ty ins hb ((h.mem_iff_of_ne hne).1 hi) hiI q hq hqr hqb v hv)

/-- A function without phis is in single-assignment form if no value is written twice and each
block uses only given values and its own earlier results. -/
theorem of_local
    (hsingle : ∀ p ∈ f.placed, ∀ q ∈ f.placed, p.2.def? = q.2.def? → p.2.def? = none ∨ p.1 = q.1)
    (hphi : ∀ p ∈ f.placed, (p.2 matches .phi ..) = false)
    (huses : ∀ b ∈ f.blockIds, ∀ n < (f.instsOf b).length,
      ∀ instr ∈ (f.instsOf b)[n]?.bind f.inst?, ∀ v ∈ instr.usedValues,
      f.Given v ∨ ∃ j ∈ (f.instsOf b).take n, f.def? v = some (.inst j)) :
    f.SingleAssignment := by
  refine ⟨writesOnce_iff.2 hsingle, fun b xs i ys instr _ hl hinst _ v hv => ?_,
    fun b i dst ty ins _ hi hinst => ?_⟩
  · have hb : b ∈ f.blockIds := mem_blockIds.2 (hasBlock_of_mem_instsOf (i := i) (by rw [hl]; simp))
    have hat : (f.instsOf b)[xs.length]?.bind f.inst? = some instr := by
      rw [hl, List.getElem?_append_right (Nat.le_refl _), Nat.sub_self]
      exact hinst
    rcases huses b hb xs.length (by rw [hl]; simp) instr hat v hv with hgiven | ⟨j, hj, hdef⟩
    · exact .inl hgiven
    · rw [hl, List.take_left] at hj
      exact .inr ⟨j, hdef, .inl hj⟩
  · have := hphi (i, .phi dst ty ins) (mem_placed.2 ⟨⟨b, hi⟩, hinst⟩)
    cases this

end SingleAssignment

end Function

/-! ## Whole runs -/

/-- Any part of a run of the pass from its start keeps the single-assignment form. -/
theorem Trace.singleAssignment {f g : Function} {a : Analysis} {settings : Settings}
    {rs : List Relocation} (h : Trace f a settings rs g) (ha : Analyzed f a) (hc : f.Coherent)
    (hw : f.WellFormed) (hs : f.SingleAssignment) : g.SingleAssignment := by
  induction h with
  | start => exact hs
  | step htrace hr ih => exact ih.of_legal hr ha (htrace.rearranged ha hc hw)

/-- The function that the relocations of a list make of another one, if they can be made. -/
def Function.relocateAll (f : Function) (rs : List Relocation) : Except Failure Function :=
  rs.foldlM (fun g r => g.move r.inst r.preheader) f

/-- The relocations of a run make what the run gives. -/
theorem Trace.relocateAll_eq {f g : Function} {a : Analysis} {settings : Settings}
    {rs : List Relocation} (h : Trace f a settings rs g) : f.relocateAll rs = .ok g := by
  unfold Function.relocateAll
  induction h with
  | start => rfl
  | @step rs g r g' l src instr _ hr ih =>
    rw [List.foldlM_append, ih]
    show [r].foldlM (fun g r => g.move r.inst r.preheader) g = .ok g'
    rw [List.foldlM_cons, hr.moved]
    rfl

/-- Any part of a run from its start is a run. -/
theorem Trace.exists_take {f g : Function} {a : Analysis} {settings : Settings}
    {rs : List Relocation} (h : Trace f a settings rs g) (k : Nat) :
    ∃ g', Trace f a settings (rs.take k) g' := by
  induction h with
  | start => exact ⟨f, by rw [List.take_nil]; exact .start⟩
  | @step rs g r g' l src instr htrace hr ih =>
    by_cases hk : k ≤ rs.length
    · rw [List.take_append_of_le_length hk]
      exact ih
    · refine ⟨g', ?_⟩
      rw [List.take_of_length_le (by simp; omega)]
      exact .step htrace hr

/-- The pass keeps the single-assignment form: it holds of the function that a run gives and of the
function after each of the relocations that the run makes. -/
theorem singleAssignment_hoistInvariants (f : Function) (hb : f.Built)
    (hv : f.validate = .ok ()) (hs : f.SingleAssignment) (settings : Settings) :
    ∃ r, f.hoistInvariants settings = .ok r ∧ f.relocateAll r.moves = .ok r.function ∧
      r.function.SingleAssignment ∧
      ∀ k, ∃ g, f.relocateAll (r.moves.take k) = .ok g ∧ g.SingleAssignment := by
  have hw := Function.violation?_eq_none_iff.1 (Function.validate_eq_ok_iff.1 hv)
  obtain ⟨a, r, counters, ha, hr, -, htrace⟩ := exists_hoistInvariants hb.coherent hw settings
  refine ⟨r, hr, htrace.relocateAll_eq, htrace.singleAssignment ha hb.coherent hw hs, fun k => ?_⟩
  obtain ⟨g, hg⟩ := htrace.exists_take k
  exact ⟨g, hg.relocateAll_eq, hg.singleAssignment ha hb.coherent hw hs⟩

/-- A loop in which the square of a parameter and its double can be computed beforehand. -/
def squares : Function :=
  Function.edits { name := "squares" }
    [.addParam .i64, .addBlock "entry", .addBlock "loop", .addBlock "exit", .addValue, .addValue,
      .append ⟨0⟩ (.jump ⟨1⟩),
      .append ⟨1⟩ (.compute ⟨1⟩ (.int .mul .i64 (.value ⟨0⟩) (.value ⟨0⟩))),
      .append ⟨1⟩ (.compute ⟨2⟩ (.int .add .i64 (.value ⟨1⟩) (.value ⟨1⟩))),
      .append ⟨1⟩ (.branch (.value ⟨0⟩) ⟨1⟩ ⟨2⟩), .append ⟨2⟩ (.ret none)]

/-- The squares are made by edits. -/
theorem built_squares : squares.Built :=
  (Function.Built.new "squares" [] none).edits _ (by decide)

/-- The squares pass the check. -/
theorem validate_squares : squares.validate = .ok () :=
  Function.validate_eq_ok_iff.2 (by decide)

/-- The squares are in single-assignment form. -/
theorem singleAssignment_squares : squares.SingleAssignment :=
  .of_local (by decide) (by decide) (by decide)

/-- The squares stay in single-assignment form. -/
theorem singleAssignment_hoistInvariants_squares :
    ∃ r, squares.hoistInvariants {} = .ok r ∧ r.function.SingleAssignment := by
  obtain ⟨r, hr, -, hs, -⟩ := singleAssignment_hoistInvariants squares built_squares
    validate_squares singleAssignment_squares {}
  exact ⟨r, hr, hs⟩

end LoopHoist
