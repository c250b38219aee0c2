import LoopHoist.Proofs.Flow.Renumbering
import LoopHoist.Proofs.Memory.SafeLoads
import LoopHoist.Proofs.Motion.Reordering

/-!
# The pass over a renumbered function

What the pass does to a function does not depend on the numbers of its blocks. The analyses of a
renumbered function are those of the function under the new numbers, but the loops come in another
order (`Analysis.Renumbers`). A turn takes no notice of numbers: the candidates of a loop are listed
in reverse postorder, and what a verdict asks for is the same (`alike_renumber`), so a loop gives up
the same and the turn makes the renumbered function (`turn_renumber`). And the order of the loops
does not matter as long as inner loops come first, which they do under all numbers
(`hoistInvariants_renumber`).
-/

namespace LoopHoist

variable {f g : Function} {a a' : Analysis} {settings : Settings} {l l' : Loop} {n : LoopId}
  {σ : Equiv.Perm BlockId} {b : BlockId} {v : ValueId}

/-! ## The analyses -/

/-- The same slots are made and are private. -/
theorem Function.Permutes.slots_renumber (hσ : f.Permutes σ) :
    ((f.renumber σ).Slot v ↔ f.Slot v) ∧ ((f.renumber σ).Private v ↔ f.Private v) := by
  have hslot : (f.renumber σ).Slot v ↔ f.Slot v := by
    unfold Slot
    simp only [hσ.mem_placed_renumber]
    constructor
    · rintro ⟨_, ⟨q, hq, rfl⟩, hv⟩
      exact ⟨q, hq, (q.2.mapBlocks_memory σ).1 ▸ hv⟩
    · rintro ⟨q, hq, hv⟩
      exact ⟨_, ⟨q, hq, rfl⟩, (q.2.mapBlocks_memory σ).1.trans hv⟩
  refine ⟨hslot, and_congr hslot ?_⟩
  simp only [hσ.mem_placed_renumber]
  constructor
  · intro hno q hq
    rw [← (q.2.mapBlocks_memory σ).2.1]
    exact hno _ ⟨q, hq, rfl⟩
  · rintro hno _ ⟨q, hq, rfl⟩
    rw [(q.2.mapBlocks_memory σ).2.1]
    exact hno q hq

/-- Whether analyses are other ones under new numbers, in what a turn asks of them. -/
structure Analysis.Renumbers (σ : Equiv.Perm BlockId) (a a' : Analysis) : Prop where
  /-- The reverse postorder is the old one. -/
  order : a'.dominators.order = a.dominators.order.map σ
  /-- The same values hold addresses of slots. -/
  isSlot : ∀ v, a'.slots.isSlot v = a.slots.isSlot v
  /-- The same slots are private. -/
  isPrivate : ∀ v, a'.slots.isPrivate v = a.slots.isPrivate v

/-- The analyses of a renumbered function are those of the function under the new numbers. -/
theorem Analyzed.renumbers (ha : Analyzed f a) (ha' : Analyzed (f.renumber σ) a')
    (hσ : f.Permutes σ) : a.Renumbers σ a' where
  order := by
    rw [ha'.tree.order, ha.tree.order, (Cfg.renumbers_ofFunction hσ).reversePostorder_eq]
  isSlot v := by
    rw [ha'.slots, ha.slots, Bool.eq_iff_iff, StackSlots.isSlot_iff, StackSlots.isSlot_iff]
    exact hσ.slots_renumber.1
  isPrivate v := by
    rw [ha'.slots, ha.slots, Bool.eq_iff_iff, StackSlots.isPrivate_iff, StackSlots.isPrivate_iff]
    exact hσ.slots_renumber.2

/-- Whether a loop is another one under new numbers, in what a turn asks of it. -/
structure Loop.Renumbers (σ : Equiv.Perm BlockId) (l l' : Loop) : Prop where
  /-- The header is the old one. -/
  header : l'.header = σ l.header
  /-- The blocks are the old ones. -/
  contains : ∀ b, l'.contains (σ b) = l.contains b
  /-- The preheader is the old one. -/
  preheader : l'.preheader = l.preheader.map σ

/-- Loops of the two forests with the same header are the same under the new numbers. -/
theorem Analyzed.loop_renumbers {n' : LoopId} (ha : Analyzed f a)
    (ha' : Analyzed (f.renumber σ) a') (hσ : f.Permutes σ) (hl : a.forest.loop? n = some l)
    (hl' : a'.forest.loop? n' = some l') (hh : l'.header = σ l.header) : l.Renumbers σ l' := by
  have hr := Cfg.renumbers_ofFunction hσ
  obtain ⟨t, hlatch⟩ := ha.tree.exists_isLatch (ha.isLoop hl)
  have heq := (ha.isLoop hl).eq
  have heq' := (ha'.isLoop hl').eq
  rw [hh] at heq'
  refine ⟨hh, fun b => ?_, ?_⟩
  · rw [heq, heq']
    exact hr.contains_loopAt ha.tree ha'.tree hlatch
  · rw [heq, heq']
    exact hr.preheader_loopAt ha.tree ha'.tree hlatch

/-- Each loop of the renumbered function is one of the function under the new numbers. -/
theorem Analyzed.exists_loop_renumbers {n' : LoopId} (ha : Analyzed f a)
    (ha' : Analyzed (f.renumber σ) a') (hσ : f.Permutes σ)
    (hl' : a'.forest.loop? n' = some l') :
    ∃ n l, a.forest.loop? n = some l ∧ l.Renumbers σ l' := by
  have hr := Cfg.renumbers_ofFunction hσ
  obtain ⟨t, hlatch⟩ := ha'.tree.exists_isLatch (ha'.isLoop hl')
  obtain ⟨h, hh⟩ := σ.surjective l'.header
  obtain ⟨t, rfl⟩ := σ.surjective t
  rw [← hh] at hlatch
  obtain ⟨n, l, hl, rfl⟩ := ha.tree.exists_loop? (hr.isLatch_iff.1 hlatch)
  rw [← ha.forest] at hl
  exact ⟨n, l, hl, ha.loop_renumbers ha' hσ hl hl' hh.symm⟩

/-- Each loop of the function is one of the renumbered function. -/
theorem Analyzed.exists_renumbered_loop (ha : Analyzed f a) (ha' : Analyzed (f.renumber σ) a')
    (hσ : f.Permutes σ) (hl : a.forest.loop? n = some l) :
    ∃ n' l', a'.forest.loop? n' = some l' ∧ l.Renumbers σ l' := by
  have hr := Cfg.renumbers_ofFunction hσ
  obtain ⟨t, hlatch⟩ := ha.tree.exists_isLatch (ha.isLoop hl)
  obtain ⟨n', l', hl', hh⟩ := ha'.tree.exists_loop? (hr.isLatch_iff.2 hlatch)
  rw [← ha'.forest] at hl'
  exact ⟨n', l', hl', ha.loop_renumbers ha' hσ hl hl' hh⟩

/-! ## One turn -/

section

variable (ha : a.Renumbers σ a') (hl : l.Renumbers σ l') (hσ : g.Permutes σ)
include ha hl hσ

omit ha in
/-- The body of a loop holds the same instructions, but for the blocks that they name. -/
theorem mem_bodyOf_renumber {p : InstId × Instruction} :
    p ∈ (g.renumber σ).bodyOf l' ↔ ∃ q ∈ g.bodyOf l, (q.1, q.2.mapBlocks σ) = p := by
  simp only [Function.mem_bodyOf_iff]
  constructor
  · rintro ⟨b, hb, hp⟩
    obtain ⟨b, rfl⟩ := σ.surjective b
    rw [hl.contains] at hb
    rw [hσ.placedIn_renumber] at hp
    obtain ⟨q, hq, rfl⟩ := List.mem_map.1 hp
    exact ⟨q, ⟨b, hb, hq⟩, rfl⟩
  · rintro ⟨q, ⟨b, hb, hq⟩, rfl⟩
    refine ⟨σ b, (hl.contains b).trans hb, ?_⟩
    rw [hσ.placedIn_renumber]
    exact List.mem_map.2 ⟨q, hq, rfl⟩

omit ha in
/-- It holds the same classes of instructions. -/
theorem holds_renumber (c : Category) : (g.renumber σ).holds l' c = g.holds l c := by
  unfold Function.holds
  rw [Bool.eq_iff_iff, List.any_eq_true, List.any_eq_true]
  simp only [mem_bodyOf_renumber hl hσ]
  constructor
  · rintro ⟨_, ⟨q, hq, rfl⟩, hc⟩
    exact ⟨q, hq, (q.2.mapBlocks_same σ).2.2.2 ▸ hc⟩
  · rintro ⟨q, hq, hc⟩
    refine ⟨_, ⟨q, hq, rfl⟩, ?_⟩
    rw [(q.2.mapBlocks_same σ).2.2.2]
    exact hc

/-- The loop stores to the same objects. -/
theorem mem_stores_renumber {t : Option MemObject} :
    t ∈ (LoopMemory.ofLoop (g.renumber σ) a'.slots l').stores ↔
      t ∈ (LoopMemory.ofLoop g a.slots l).stores := by
  have hobject : (g.renumber σ).object? a'.slots = g.object? a.slots :=
    Function.object?_congr (g.def?_renumber σ) ha.isSlot
  have hmem : ∀ (k : Function) (s : StackSlots) (m : Loop),
      t ∈ (LoopMemory.ofLoop k s m).stores ↔
        ∃ q ∈ k.bodyOf m, ∃ addr, q.2.storeAddr? = some addr ∧ k.object? s addr = t :=
    fun k s m => by
      simp only [LoopMemory.ofLoop, LoopMemory.ofBody, List.mem_map, List.mem_filterMap]
      constructor
      · rintro ⟨addr, ⟨_, ⟨q, hq, rfl⟩, haddr⟩, ht⟩
        exact ⟨q, hq, addr, haddr, ht⟩
      · rintro ⟨q, hq, addr, haddr, ht⟩
        exact ⟨addr, ⟨_, ⟨q, hq, rfl⟩, haddr⟩, ht⟩
  rw [hmem, hmem, hobject]
  simp only [mem_bodyOf_renumber hl hσ]
  constructor
  · rintro ⟨_, ⟨q, hq, rfl⟩, addr, haddr, ht⟩
    exact ⟨q, hq, addr, (q.2.mapBlocks_memory σ).2.2 ▸ haddr, ht⟩
  · rintro ⟨q, hq, addr, haddr, ht⟩
    exact ⟨_, ⟨q, hq, rfl⟩, addr, (q.2.mapBlocks_memory σ).2.2.trans haddr, ht⟩

/-- The loop judges as it does in the function. -/
theorem alike_renumber : (LoopState.start g a.slots settings l).Alike g
    (.start (g.renumber σ) a'.slots settings l') (g.renumber σ) where
  settings := rfl
  isSlot := ha.isSlot
  isPrivate := ha.isPrivate
  stores _ := mem_stores_renumber ha hl hσ
  hasCall := by
    show (LoopMemory.ofLoop (g.renumber σ) a'.slots l').hasCall =
      (LoopMemory.ofLoop g a.slots l).hasCall
    rw [(LoopMemory.ofLoop_holds _ _ l').2.2, (LoopMemory.ofLoop_holds _ _ l).2.2,
      holds_renumber hl hσ]
  def? := g.def?_renumber σ
  content i := ⟨σ, g.inst?_renumber σ i⟩
  outside j := by
    show LoopState.isOutside _ _ j = LoopState.isOutside _ _ j
    unfold LoopState.isOutside
    rw [Function.owner?_renumber]
    cases g.owner? j with
    | none => rfl
    | some b =>
      show (!l'.contains (σ b)) = !l.contains b
      rw [hl.contains]

/-- The candidates come in the same order. -/
theorem candidates_renumber :
    Hoisting.candidates (g.renumber σ) a'.dominators.order l' =
      Hoisting.candidates g a.dominators.order l := by
  unfold Hoisting.candidates
  rw [ha.order, List.filter_map, List.flatMap_map]
  have hfilter : (l'.contains ∘ σ : BlockId → Bool) = l.contains := funext hl.contains
  rw [hfilter]
  exact List.flatMap_congr fun b _ => hσ.instsOf_renumber b

/-- The loop gives up the same. -/
theorem harvest_renumber :
    harvest a' settings (g.renumber σ) l' = harvest a settings g l := by
  unfold harvest
  rw [hl.preheader, candidates_renumber ha hl hσ, (alike_renumber ha hl hσ).accept_eq]
  cases l.preheader <;> rfl

/-- It counts the same. -/
theorem gained_renumber :
    Counters.gained a' settings (g.renumber σ) l' = .gained a settings g l := by
  have hone : Counters.ofTurn (.ofLoop (g.renumber σ) a'.slots l') l' =
      .ofTurn (.ofLoop g a.slots l) l := by
    unfold Counters.ofTurn Counters.ofLoop
    obtain ⟨hload, hstore, hcall⟩ := LoopMemory.ofLoop_holds g a.slots l
    obtain ⟨hload', hstore', hcall'⟩ := LoopMemory.ofLoop_holds (g.renumber σ) a'.slots l'
    rw [hload, hstore, hcall, hload', hstore', hcall', hl.preheader]
    simp only [holds_renumber hl hσ, Option.isNone_map]
  unfold Counters.gained
  rw [harvest_renumber ha hl hσ, hone]

end

/-- Lifting commutes with renumbering. -/
theorem Function.Permutes.liftAll_renumber (hσ : g.Permutes σ) (p : BlockId) (xs : List InstId) :
    (g.renumber σ).liftAll (σ p) xs = (g.liftAll p xs).renumber σ := by
  induction xs generalizing g with
  | nil => rfl
  | cons x xs ih =>
    have hone : (g.renumber σ).lift (σ p) x = (g.lift p x).renumber σ := by
      unfold lift
      rw [owner?_renumber]
      cases g.owner? x with
      | none => rfl
      | some src => exact hσ.relocate_renumber x src p
    show ((g.renumber σ).lift (σ p) x).liftAll (σ p) xs = _
    rw [hone]
    exact ih (hσ.of_hasBlock_eq (g.lift_same p x).2.2)

/-- The turn of a loop makes the renumbered function of what it makes of the function, and counts
the same. -/
theorem turn_renumber (ha : a.Renumbers σ a') (hl : l.Renumbers σ l') (hσ : g.Permutes σ)
    (c : Counters) : turn a' settings (g.renumber σ, c) l' =
      ((turn a settings (g, c) l).1.renumber σ, (turn a settings (g, c) l).2) := by
  have hfunction : (g.renumber σ).afterTurn a' settings l' =
      (g.afterTurn a settings l).renumber σ := by
    unfold Function.afterTurn
    rw [hl.preheader, harvest_renumber ha hl hσ]
    cases l.preheader with
    | none => rfl
    | some p => exact hσ.liftAll_renumber p _
  unfold turn
  rw [hfunction, gained_renumber ha hl hσ]

/-! ## All loops -/

/-- So do the turns of some loops. -/
theorem foldl_turn_renumber {ls ls' : List Loop} (ha : a.Renumbers σ a')
    (hls : List.Forall₂ (Loop.Renumbers σ) ls ls') (hσ : g.Permutes σ) (c : Counters) :
    ls'.foldl (turn a' settings) (g.renumber σ, c) =
      ((ls.foldl (turn a settings) (g, c)).1.renumber σ,
        (ls.foldl (turn a settings) (g, c)).2) := by
  induction hls generalizing g c with
  | nil => rfl
  | cons hl _ ih =>
    rw [List.foldl_cons, List.foldl_cons, turn_renumber ha hl hσ]
    exact ih (hσ.of_hasBlock_eq (g.afterTurn_same a settings _).2.2) _

/-- The loops of a renumbered function, in the order of the pass, are those of the function under
the new numbers, in some order that has inner loops first. -/
theorem Analyzed.exists_perm_renumbers (ha : Analyzed f a) (ha' : Analyzed (f.renumber σ) a')
    (hσ : f.Permutes σ) : ∃ ls, ls.Perm (a.forest.postorder.filterMap a.forest.loop?) ∧
      ls.Pairwise Loop.Before ∧
      List.Forall₂ (Loop.Renumbers σ) ls (a'.forest.postorder.filterMap a'.forest.loop?) := by
  have hold : ∀ l' ∈ a'.forest.postorder.filterMap a'.forest.loop?,
      ∃ l, (∃ n, a.forest.loop? n = some l) ∧ l.Renumbers σ l' := by
    intro l' hl'
    obtain ⟨n', hl'⟩ := ha'.mem_filterMap_postorder.1 hl'
    obtain ⟨n, l, hl, hr⟩ := ha.exists_loop_renumbers ha' hσ hl'
    exact ⟨l, ⟨n, hl⟩, hr⟩
  choose! old hforest hren using hold
  let ls := (a'.forest.postorder.filterMap a'.forest.loop?).map old
  have hlsForest : ∀ l ∈ ls, ∃ n, a.forest.loop? n = some l := by
    intro l hl
    obtain ⟨l', hl', rfl⟩ := List.mem_map.1 hl
    exact hforest l' hl'
  have hbefore : ls.Pairwise Loop.Before := by
    rw [List.pairwise_map]
    refine (ha'.pairwise_before ha'.postorder_pairwise).imp_of_mem fun {l' m'} hl' hm' hlm => ?_
    rw [Loop.Before, ← (hren l' hl').contains, ← (hren m' hm').header]
    exact hlm
  refine ⟨ls, ?_, hbefore, ?_⟩
  · rw [List.perm_ext_iff_of_nodup (ha.nodup_of_before hbefore hlsForest)
      (ha.nodup_of_before (ha.pairwise_before ha.postorder_pairwise)
        fun l hl => ha.mem_filterMap_postorder.1 hl)]
    intro l
    rw [ha.mem_filterMap_postorder]
    refine ⟨hlsForest l, ?_⟩
    rintro ⟨n, hl⟩
    -- Its loop under the new numbers has it as its old loop, as both have one header.
    obtain ⟨n', l', hl', hr⟩ := ha.exists_renumbered_loop ha' hσ hl
    have hmem := ha'.mem_filterMap_postorder.2 ⟨n', hl'⟩
    obtain ⟨k, hk⟩ := hforest l' hmem
    have hheader : l.header = (old l').header :=
      σ.injective (hr.header.symm.trans (hren l' hmem).header)
    have hkn : n = k := by
      rw [ha.forest] at hl hk
      exact Cfg.eq_of_header_eq hl hk hheader
    rw [← hkn, hl] at hk
    exact List.mem_map.2 ⟨l', hmem, (Option.some.inj hk).symm⟩
  · rw [List.forall₂_map_left_iff, List.forall₂_same]
    exact hren

/-- Going through the loops of a renumbered function makes the renumbered function of what going
through those of the function makes of it, and counts the same. -/
theorem exists_processAll_renumber (ha : Analyzed f a) (ha' : Analyzed (f.renumber σ) a')
    (hσ : f.Permutes σ) (hc : f.Coherent) (hw : f.WellFormed) (settings : Settings) :
    ∃ h h', Hoisting.processAll a settings f = .ok h ∧ f.Rearranged h.function ∧
      Hoisting.processAll a' settings (f.renumber σ) = .ok h' ∧
      (f.renumber σ).Rearranged h'.function ∧
      h'.function = h.function.renumber σ ∧ h'.counters = h.counters := by
  obtain ⟨h, hh, heq, hg⟩ := exists_foldl_turn (h := { function := f }) settings ha
    (fun n hn => ha.mem_postorder.1 hn) (.refl hc hw)
  obtain ⟨h', hh', heq', hg'⟩ := exists_foldl_turn (h := { function := f.renumber σ })
    settings ha' (fun n hn => ha'.mem_postorder.1 hn)
    (.refl (hσ.coherent hc) (hσ.wellFormed hw))
  obtain ⟨ls, hperm, hbefore, hren⟩ := ha.exists_perm_renumbers ha' hσ
  have hsame := foldl_turn_perm settings ha hperm hbefore
    (ha.pairwise_before ha.postorder_pairwise)
    (fun l hl => ha.mem_filterMap_postorder.1 (hperm.subset hl)) (.refl hc hw) {}
  have hpair : (h'.function, h'.counters) = (h.function.renumber σ, h.counters) :=
    calc (h'.function, h'.counters)
        = ((ls.foldl (turn a settings) (f, {})).1.renumber σ,
            (ls.foldl (turn a settings) (f, {})).2) :=
          heq'.trans (foldl_turn_renumber (ha.renumbers ha' hσ) hren hσ {})
      _ = (h.function.renumber σ, h.counters) := by
          rw [hsame, ← heq]
  exact ⟨h, h', hh, hg, hh', hg', congrArg Prod.fst hpair, congrArg Prod.snd hpair⟩

/-- The numbers of the blocks do not matter. On a well-formed function and under all settings, the
pass succeeds on the function and on the function under any other numbers of its blocks; it returns
the same counters, and makes the same function under the new numbers, every block with the same
instructions in the same order. Nor does the order of the loops matter: in whatever order that has
inner loops first they are gone through, the function and the counters are the same. -/
theorem hoistInvariants_renumber (f : Function) (hb : f.Built) (hv : f.validate = .ok ())
    (settings : Settings) (σ : Equiv.Perm BlockId) (hσ : f.Permutes σ) :
    ∃ a r u c, f.analyze = .ok a ∧ f.hoistInvariants settings = .ok r ∧
      (f.renumber σ).hoistInvariants settings = .ok u ∧ r.result = .ok c ∧ u.result = .ok c ∧
      u.function = r.function.renumber σ ∧
      (settings.isActive = true → ∀ ns : List LoopId, ns.Perm a.forest.postorder →
        ns.Pairwise (Cfg.Later a.forest) → ∃ h,
          ns.foldlM (Hoisting.processLoop a settings) { function := f } = .ok h ∧
          h.function = r.function ∧ h.counters = c) := by
  have hw := Function.violation?_eq_none_iff.1 (Function.validate_eq_ok_iff.1 hv)
  have hc := hb.coherent
  obtain ⟨a, hanalyze, ha⟩ := exists_analyze hw
  by_cases hactive : settings.isActive = true
  · obtain ⟨a', hanalyze', ha'⟩ := exists_analyze (hσ.wellFormed hw)
    obtain ⟨h, h', hh, hg, hh', hg', hfun, hcount⟩ :=
      exists_processAll_renumber ha ha' hσ hc hw settings
    refine ⟨a, _, _, h.counters, hanalyze,
      Function.hoistInvariants_eq hactive hw hanalyze hh hg.wellFormed,
      Function.hoistInvariants_eq hactive (hσ.wellFormed hw) hanalyze' hh' hg'.wellFormed, rfl,
      congrArg Except.ok hcount, hfun, fun _ ns hns hlater => ?_⟩
    obtain ⟨h₁, h₂, hh₁, hh₂, hfun₂, hcount₂⟩ :=
      exists_foldlM_of_perm ha hc hw settings hns hlater
    obtain rfl := Except.ok.inj (hh.symm.trans hh₁)
    exact ⟨h₂, hh₂, hfun₂, hcount₂⟩
  · -- A pass that is not active gives every function back.
    have hskip : ∀ k : Function,
        k.hoistInvariants settings = .ok { function := k, result := .ok {} } :=
      fun k => Function.hoistInvariants_of_skipped (by simp [hactive])
    exact ⟨a, _, _, {}, hanalyze, hskip f, hskip (f.renumber σ), rfl, rfl, rfl,
      fun htrue => absurd htrue hactive⟩

/-- With the headers of its two loops exchanged, what is hoisted in the cascade goes to the same
blocks under their new numbers. -/
theorem hoistInvariants_renumber_cascade :
    ∃ r u, cascade.hoistInvariants {} = .ok r ∧
      (cascade.renumber (Equiv.swap ⟨1⟩ ⟨3⟩)).hoistInvariants {} = .ok u ∧
      u.function = r.function.renumber (Equiv.swap ⟨1⟩ ⟨3⟩) ∧ u.function.layout =
        [[⟨3⟩, ⟨0⟩], [⟨4⟩, ⟨7⟩], [⟨5⟩, ⟨6⟩, ⟨2⟩], [⟨1⟩], [⟨8⟩, ⟨9⟩], [⟨10⟩]] := by
  obtain ⟨-, r, u, -, -, hr, hu, -, -, hfun, -⟩ := hoistInvariants_renumber cascade built_cascade
    validate_cascade {} (Equiv.swap ⟨1⟩ ⟨3⟩) (Function.permutes_swap (by decide) (by decide))
  have hlayout : ((cascade.renumber (Equiv.swap ⟨1⟩ ⟨3⟩)).hoistInvariants {}).map
      (fun u => u.function.layout) =
        .ok [[⟨3⟩, ⟨0⟩], [⟨4⟩, ⟨7⟩], [⟨5⟩, ⟨6⟩, ⟨2⟩], [⟨1⟩], [⟨8⟩, ⟨9⟩], [⟨10⟩]] := by
    decide +kernel
  rw [hu] at hlayout
  exact ⟨r, u, hr, hu, hfun, Except.ok.inj hlayout⟩

end LoopHoist
