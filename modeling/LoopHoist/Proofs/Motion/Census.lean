import Mathlib.Algebra.Group.Action.Defs
import Mathlib.Algebra.Order.BigOperators.Group.List
import Mathlib.Algebra.Order.Ring.Nat
import LoopHoist.Proofs.Motion.Fixpoint
import LoopHoist.Proofs.Motion.Rounds

/-!
# What the counters say

The counters of a run can be read off the function before it and the function after it. What they
say of loops is what the loops hold before the run. What they say of hoisted instructions is told by
the blocks: an instruction is counted once for each loop with a preheader that held it before and
does not hold it after (`Loop.lost`), even where it went past loops without a preheader on its way
(`hoistInvariants_census`).

A loop gives up exactly the instructions that leave it by the rule of the pass
(`LoopRound.mem_harvest_iff`), so the relocations of a run are the pairs of an instruction and a
loop that it leaves, each once (`Relocated`). These pairs are counted once by relocations and once
by instructions and loops (`Relocated.countP_eq`).
-/

namespace LoopHoist

variable {f g : Function} {a : Analysis} {settings : Settings} {l : Loop} {n : LoopId}
  {p b c : BlockId} {x : InstId} {ns : List LoopId} {rs : List Relocation}

/-! ## What a loop loses -/

/-- Whether a loop contains the block of an instruction in `f` and not the one in `g`. -/
def Loop.lost (l : Loop) (f g : Function) (x : InstId) : Bool :=
  (f.owner? x).any l.contains && !(g.owner? x).any l.contains

/-- The placed instructions of a class. -/
def Function.ofClass (f : Function) (c : Category) : List InstId :=
  (f.placed.filter fun q => q.2.category == c).map (·.1)

/-- The number of loops with a preheader that lost an instruction, summed over the instructions of a
class. -/
def losses (ls : List Loop) (f g : Function) (c : Category) : Nat :=
  ((f.ofClass c).map fun x => ls.countP fun l => l.preheader.isSome && l.lost f g x).sum

/-- The loops of a forest with a preheader that lost an instruction. -/
def LoopForest.losers (fs : LoopForest) (f g : Function) (x : InstId) : List LoopId :=
  fs.postorder.filter fun n => (fs.loop? n).any fun l => l.preheader.isSome && l.lost f g x

/-- A loop with a preheader has lost what leaves it by the rule, and nothing else. -/
theorem Placed.lost_iff (hplaced : Placed f a settings a.forest.postorder g) (ha : Analyzed f a)
    (hl : a.forest.loop? n = some l) :
    (l.preheader.isSome && l.lost f g x) = true ↔ ∃ p, LeavesFor f a settings x n l p := by
  rw [Bool.and_eq_true, Option.isSome_iff_exists, Loop.lost, Bool.and_eq_true, Option.any_eq_true,
    Bool.not_eq_true']
  constructor
  · rintro ⟨⟨p, hp⟩, ⟨b, hb, hin⟩, hout⟩
    obtain ⟨c, hgc, -⟩ := hplaced x b hb
    rw [hgc, Option.any_some] at hout
    exact ⟨p, hl, hp, hplaced.leaves_of_moved ha hl hb hin hgc hout⟩
  · rintro ⟨p, h⟩
    obtain ⟨b, hb, hin⟩ := h.leaves.exists_owner
    obtain ⟨c, hgc, -⟩ := hplaced x b hb
    refine ⟨⟨p, h.preheader⟩, ⟨b, hb, hin⟩, ?_⟩
    rw [hgc, Option.any_some]
    exact hplaced.not_contains_of_leavesFor ha h hgc

/-! ## What a loop gives up -/

/-- In its turn a loop gives up what the rule takes out of it. -/
theorem LoopRound.mem_harvest_iff (hr : LoopRound f a settings n l p g) {h : Hoisting}
    (hfun : h.function = g) (htrace : Trace f a settings h.moves.reverse h.function) :
    x ∈ (harvest a settings g l).map (·.1) ↔ Leaves f a.slots settings l x := by
  obtain ⟨h', hh', -, hmoved, hkept⟩ := hr.exists_processLoop hfun htrace
  obtain ⟨h'', hh'', hturn, -⟩ := exists_turn_eq settings hr.analyzed hr.loop
    (hfun ▸ hr.rearranged)
  obtain rfl : h' = h'' := Except.ok.inj (hh'.symm.trans hh'')
  -- The turn gives what is harvested, and nothing else, to the preheader.
  have howner : h'.function.owner? x = if x ∈ (harvest a settings g l).map (·.1) then
      (g.owner? x).map fun _ => p else g.owner? x := by
    rw [hturn.function, hfun, Function.afterTurn, hr.preheader]
    exact g.owner?_liftAll p _ x
  have hout := hr.analyzed.not_contains_preheader hr.loop hr.preheader
  constructor
  · intro hx
    obtain ⟨c, hxc, hin⟩ := (mem_candidates hr.analyzed hr.loop hr.rearranged).1
      ((harvest_sublist a settings g l).subset hx)
    by_contra hno
    rw [hkept x hno, if_pos hx, hxc, Option.map_some] at howner
    obtain rfl := Option.some.inj howner
    rw [hin] at hout
    cases hout
  · intro hx
    by_contra hno
    rw [hmoved x hx, if_neg hno] at howner
    -- It was in the loop when the turn began, and so not in the preheader.
    obtain ⟨b, hb, hin⟩ := hx.exists_owner
    rw [(hr.contains_iff x b p hb howner.symm).2 hin] at hout
    cases hout

/-- So it gives up what leaves it for its preheader, when everything is placed by the loops before
it. -/
theorem Placed.mem_harvest_iff {h : Hoisting} (hplaced : Placed f a settings ns h.function)
    (ha : Analyzed f a) (hc : f.Coherent) (hw : f.WellFormed) (hs : f.SingleAssignment)
    (hl : a.forest.loop? n = some l) (hns : ∀ k ∈ ns, Cfg.Later a.forest k n)
    (htrace : Trace f a settings h.moves.reverse h.function) :
    x ∈ (harvest a settings h.function l).map (·.1) ↔ ∃ p, LeavesFor f a settings x n l p := by
  cases hp : l.preheader with
  | none =>
    -- Without a preheader the loop gives up nothing.
    rw [harvest, hp]
    constructor
    · exact fun hx => absurd hx List.not_mem_nil
    · rintro ⟨p, hx⟩
      have := hx.preheader
      rw [hp] at this
      cases this
  | some p =>
    rw [(LoopRound.of_placed ha hc hw hs hl hp hns htrace hplaced).mem_harvest_iff rfl htrace]
    constructor
    · exact fun hx => ⟨p, hl, hp, hx⟩
    · rintro ⟨_, hx⟩
      exact hx.leaves

/-- What has been relocated when the loops of a list are done. -/
structure Relocated (f : Function) (a : Analysis) (settings : Settings) (ns : List LoopId)
    (rs : List Relocation) : Prop where
  /-- No instruction was taken out of a loop twice. -/
  nodup : (rs.map fun r => (r.inst, r.loop)).Nodup
  /-- An instruction was taken out of the loops that it leaves for a preheader. -/
  mem_iff : ∀ x n, (x, n) ∈ rs.map (fun r => (r.inst, r.loop)) ↔
    n ∈ ns ∧ ∃ l p, LeavesFor f a settings x n l p
  /-- It was taken as what it is. -/
  kind : ∀ r ∈ rs, ∃ instr, f.inst? r.inst = some instr ∧ instr.category = r.kind.category

/-- Before the first loop nothing has been relocated. -/
theorem Relocated.start : Relocated f a settings [] [] where
  nodup := List.nodup_nil
  mem_iff _ _ := ⟨fun hx => absurd hx List.not_mem_nil, fun hx => absurd hx.1 List.not_mem_nil⟩
  kind _ hr := absurd hr List.not_mem_nil

/-- One more loop is done: what it gives up leaves it for its preheader. -/
theorem Relocated.append {h h' : Hoisting} (hrel : Relocated f a settings ns h.moves)
    (hg : f.Rearranged h.function) (ha : Analyzed f a) (hturn : TurnEq a settings n l h h')
    (hn : n ∉ ns) (hl : a.forest.loop? n = some l)
    (hharvest : ∀ x, x ∈ (harvest a settings h.function l).map (·.1) ↔
      ∃ p, LeavesFor f a settings x n l p) :
    Relocated f a settings (ns ++ [n]) h'.moves := by
  -- The log grows at its head, so this round stands in front, its last relocation first.
  have hpairs : h'.moves.map (fun r => (r.inst, r.loop)) =
      (((harvest a settings h.function l).map (·.1)).map fun x => (x, n)).reverse ++
        h.moves.map fun r => (r.inst, r.loop) := by
    rw [hturn.moves, List.map_append, List.map_reverse, List.map_map, List.map_map]
    rfl
  refine ⟨?_, fun x k => ?_, fun r hr => ?_⟩
  · rw [hpairs, List.nodup_append]
    refine ⟨List.nodup_reverse.2 (((candidates_nodup ha hg).sublist
      (harvest_sublist a settings h.function l)).map fun x y hxy => (Prod.mk.inj hxy).1),
      hrel.nodup, ?_⟩
    rintro ⟨x, k⟩ hnew q hold rfl
    obtain ⟨y, -, heq⟩ := List.mem_map.1 (List.mem_reverse.1 hnew)
    obtain rfl := (Prod.mk.inj heq).2
    exact hn ((hrel.mem_iff x n).1 hold).1
  -- A pair is of this round if it names `n`, and of an earlier one otherwise.
  · rw [hpairs, List.mem_append, List.mem_reverse, hrel.mem_iff, List.mem_append,
      List.mem_singleton]
    have hnew : (x, k) ∈ ((harvest a settings h.function l).map (·.1)).map (fun x => (x, n)) ↔
        k = n ∧ ∃ p, LeavesFor f a settings x n l p := by
      rw [← hharvest, List.mem_map]
      constructor
      · rintro ⟨y, hy, heq⟩
        obtain ⟨rfl, rfl⟩ := Prod.mk.inj heq
        exact ⟨rfl, hy⟩
      · rintro ⟨rfl, hx⟩
        exact ⟨x, hx, rfl⟩
    rw [hnew]
    constructor
    · rintro (⟨rfl, p, hx⟩ | ⟨hk, hx⟩)
      · exact ⟨.inr rfl, l, p, hx⟩
      · exact ⟨.inl hk, hx⟩
    · rintro ⟨hk | rfl, hx⟩
      · exact .inr ⟨hk, hx⟩
      · obtain ⟨m, p, hx⟩ := hx
        obtain rfl := Option.some.inj (hl.symm.trans hx.loop)
        exact .inl ⟨rfl, p, hx⟩
  · rw [hturn.moves, List.mem_append, List.mem_reverse, List.mem_map] at hr
    rcases hr with ⟨q, hq, rfl⟩ | hr
    · obtain ⟨instr, hinst, hcat⟩ := category_of_mem_harvest hq
      exact ⟨instr, by rw [← hg.inst?]; exact hinst, hcat⟩
    · exact hrel.kind r hr

/-- When all loops are done, the relocations of the run are what leaves them. -/
theorem exists_processAll_relocated (ha : Analyzed f a) (hc : f.Coherent) (hw : f.WellFormed)
    (hs : f.SingleAssignment) (settings : Settings) :
    ∃ h, Hoisting.processAll a settings f = .ok h ∧
      Trace f a settings h.moves.reverse h.function ∧
      Placed f a settings a.forest.postorder h.function ∧
      Relocated f a settings a.forest.postorder h.moves := by
  refine exists_processAll_keeps (P := fun ns h => Relocated f a settings ns h.moves) ha hc hw hs
    settings .start ?_
  intro ns n l h h' hl hns htrace hplaced hrel hn
  have hg := htrace.rearranged ha hc hw
  obtain ⟨h'', hh'', hturn, -⟩ := exists_turn_eq settings ha hl hg
  obtain rfl := Except.ok.inj (hn.symm.trans hh'')
  exact hrel.append hg ha hturn (fun hmem => (hns n hmem).1 rfl) hl fun x =>
    hplaced.mem_harvest_iff ha hc hw hs hl hns htrace

/-! ## Counting -/

/-- The pass goes through the loops of the forest, each once. -/
theorem Analyzed.perm_loops (ha : Analyzed f a) :
    (a.forest.postorder.filterMap a.forest.loop?).Perm a.forest.loops := by
  rw [List.perm_ext_iff_of_nodup]
  · intro l
    rw [ha.mem_filterMap_postorder, ha.forest, Cfg.mem_loops]
  · refine ha.nodup_postorder.filterMap fun n k l hn hk => ?_
    rw [Option.mem_def, ha.forest] at hn hk
    exact Cfg.eq_of_header_eq hn hk rfl
  · rw [ha.forest]
    exact Cfg.loops_nodup _ _

/-- No instruction of a class is listed twice. -/
theorem Function.Coherent.nodup_ofClass (hc : f.Coherent) (c : Category) : (f.ofClass c).Nodup :=
  hc.nodup_handles.sublist (List.filter_sublist.map _)

/-- The loops that lost an instruction are those that it leaves for a preheader. -/
theorem Placed.mem_losers (hplaced : Placed f a settings a.forest.postorder g)
    (ha : Analyzed f a) : n ∈ a.forest.losers f g x ↔
      n ∈ a.forest.postorder ∧ ∃ l p, LeavesFor f a settings x n l p := by
  rw [LoopForest.losers, List.mem_filter, Option.any_eq_true]
  refine and_congr_right fun _ => ?_
  constructor
  · rintro ⟨l, hl, hlost⟩
    exact ⟨l, (hplaced.lost_iff ha hl).1 hlost⟩
  · rintro ⟨l, p, h⟩
    exact ⟨l, h.loop, (hplaced.lost_iff ha h.loop).2 ⟨p, h⟩⟩

/-- There are as many of them as the list of all loops has. -/
theorem Analyzed.length_losers (ha : Analyzed f a) (g : Function) (x : InstId) :
    (a.forest.losers f g x).length =
      a.forest.loops.countP fun l => l.preheader.isSome && l.lost f g x := by
  rw [LoopForest.losers, ← List.countP_eq_length_filter, ← ha.perm_loops.countP_eq,
    List.countP_filterMap]
  refine List.countP_congr fun n _ => ?_
  cases hl : a.forest.loop? n <;> simp

/-- The relocations of a kind are the losses, grouped by the instructions of that class. -/
theorem Relocated.perm (hrel : Relocated f a settings a.forest.postorder rs)
    (hplaced : Placed f a settings a.forest.postorder g) (ha : Analyzed f a) (hc : f.Coherent)
    (kind : HoistKind) :
    ((rs.filter fun r => r.kind == kind).map fun r => (r.inst, r.loop)).Perm
      ((f.ofClass kind.category).flatMap fun x => (a.forest.losers f g x).map fun n => (x, n)) := by
  rw [List.perm_ext_iff_of_nodup]
  · rintro ⟨x, n⟩
    have hgrouped : (x, n) ∈ ((f.ofClass kind.category).flatMap fun x =>
        (a.forest.losers f g x).map fun n => (x, n)) ↔
        (∃ instr, (x, instr) ∈ f.placed ∧ instr.category = kind.category) ∧
          (x, n) ∈ rs.map fun r => (r.inst, r.loop) := by
      rw [hrel.mem_iff, ← hplaced.mem_losers ha]
      simp [Function.ofClass]
    rw [hgrouped, List.mem_map, List.mem_map]
    constructor
    · rintro ⟨r, hr, heq⟩
      obtain ⟨hr, hkind⟩ := List.mem_filter.1 hr
      obtain ⟨instr, hinst, hcat⟩ := hrel.kind r hr
      obtain ⟨rfl, rfl⟩ := Prod.mk.inj heq
      obtain ⟨-, l, p, hx⟩ := (hrel.mem_iff r.inst r.loop).1 (List.mem_map.2 ⟨r, hr, rfl⟩)
      obtain ⟨b, hb, -⟩ := hx.leaves.exists_owner
      rw [eq_of_beq hkind] at hcat
      exact ⟨⟨instr, Function.mem_placed.2 ⟨⟨b, (hc.mem_iff _ b).2 hb⟩, hinst⟩, hcat⟩, r, hr, rfl⟩
    · rintro ⟨⟨instr, hx, hcat⟩, r, hr, heq⟩
      obtain ⟨instr', hinst, hcat'⟩ := hrel.kind r hr
      obtain ⟨rfl, rfl⟩ := Prod.mk.inj heq
      -- The class of an instruction is the kind as which it was hoisted.
      obtain rfl := Option.some.inj (hinst.symm.trans (Function.mem_placed.1 hx).2)
      have hkind : r.kind = kind := HoistKind.category_inj (hcat'.symm.trans hcat)
      exact ⟨r, List.mem_filter.2 ⟨hr, beq_iff_eq.2 hkind⟩, rfl⟩
  · exact hrel.nodup.sublist (List.filter_sublist.map _)
  · rw [List.nodup_flatMap]
    refine ⟨fun x _ => (ha.nodup_postorder.filter _).map fun n k h => (Prod.mk.inj h).2, ?_⟩
    refine (hc.nodup_ofClass _).imp fun {x y} hxy q hqx hqy => hxy ?_
    obtain ⟨n, -, rfl⟩ := List.mem_map.1 hqx
    obtain ⟨k, -, heq⟩ := List.mem_map.1 hqy
    exact (Prod.mk.inj heq).1.symm

/-- So the relocations of a kind are as many as the losses. -/
theorem Relocated.countP_eq (hrel : Relocated f a settings a.forest.postorder rs)
    (hplaced : Placed f a settings a.forest.postorder g) (ha : Analyzed f a) (hc : f.Coherent)
    (kind : HoistKind) :
    rs.countP (fun r => r.kind == kind) = losses a.forest.loops f g kind.category := by
  have hlength := (hrel.perm hplaced ha hc kind).length_eq
  rw [List.length_map, ← List.countP_eq_length_filter, List.length_flatMap] at hlength
  simp only [List.length_map, ha.length_losers] at hlength
  exact hlength

/-! ## Room in the counters -/

/-- Whether the counters have room for all numbers: they read as the numbers themselves. -/
structure Tally.Fits (t : Tally) : Prop where
  /-- The loops. -/
  loops : t.counters.numLoops.toNat = t.loops
  /-- The loops without a preheader. -/
  gateless : t.counters.noPreheader.toNat = t.gateless
  /-- The ordinary instructions. -/
  ordinary : t.counters.basicHoisted.toNat = t.ordinary
  /-- The loads. -/
  loads : t.counters.loadsHoisted.toNat = t.loads
  /-- The loops without a store. -/
  storeless : t.counters.loopsNoStore.toNat = t.storeless
  /-- The loops without a load. -/
  loadless : t.counters.loopsNoLoad.toNat = t.loadless
  /-- The loops without a store but with a load. -/
  loadOnly : t.counters.loopsNoStoreWithLoad.toNat = t.loadOnly
  /-- The loops with a call. -/
  calling : t.counters.loopsWithCall.toNat = t.calling

/-- There is room if there is room for the number of loops and for what was hoisted. -/
theorem Tally.fits_ofLoops {ls : List Loop} {ordinary loads : Nat}
    (hloops : ls.length < UInt64.size) (hordinary : ordinary < UInt64.size)
    (hloads : loads < UInt64.size) : (ofLoops f ls ordinary loads).Fits := by
  have hcount : ∀ test : Loop → Bool, (UInt64.ofNat (ls.countP test)).toNat = ls.countP test :=
    fun test => UInt64.toNat_ofNat_of_lt' (Nat.lt_of_le_of_lt List.countP_le_length hloops)
  exact ⟨UInt64.toNat_ofNat_of_lt' hloops, hcount _, UInt64.toNat_ofNat_of_lt' hordinary,
    UInt64.toNat_ofNat_of_lt' hloads, hcount _, hcount _, hcount _, hcount _⟩

/-- A function has no more loops than blocks. -/
theorem Analyzed.length_loops_le (ha : Analyzed f a) : a.forest.loops.length ≤ f.size := by
  have hnodes : (Cfg.ofFunction f).nodes.length = f.size := by
    simp [Cfg.nodes, Cfg.ofFunction, Function.blockIds, Function.size]
  rw [ha.forest, ← hnodes, Cfg.loopForest, List.length_map]
  exact List.length_filter_le _ _

/-- A well-formed function has more instructions than placed ones of a class: the entry ends in a
terminator. -/
theorem Function.WellFormed.length_ofClass_lt (hw : f.WellFormed) (hc : f.Coherent) {c : Category}
    (hterm : c ≠ .terminator) : (f.ofClass c).length < f.insts.size := by
  obtain ⟨e, -, he⟩ := hw.entry
  obtain ⟨xs, t, last, -, ht, hlast, -⟩ := hw.exists_terminator he
  have hinst : ∀ x ∈ f.ofClass c, ∃ instr, f.inst? x = some instr ∧ instr.category = c := by
    intro x hx
    obtain ⟨q, hq, rfl⟩ := List.mem_map.1 hx
    obtain ⟨hq, hcat⟩ := List.mem_filter.1 hq
    exact ⟨q.2, (Function.mem_placed.1 hq).2, eq_of_beq hcat⟩
  have hfresh : t ∉ f.ofClass c := by
    intro hmem
    obtain ⟨instr, hinstr, hcat⟩ := hinst t hmem
    obtain rfl := Option.some.inj (ht.symm.trans hinstr)
    exact hterm (hcat.symm.trans ((Instruction.category_eq_terminator_iff last).2 hlast))
  have hsub : t :: f.ofClass c ⊆ (List.range f.insts.size).map InstId.mk := by
    intro x hx
    have hsome : ∃ instr, f.inst? x = some instr := by
      rcases List.mem_cons.1 hx with rfl | hx
      · exact ⟨last, ht⟩
      · exact (hinst x hx).imp fun _ h => h.1
    obtain ⟨instr, hinstr⟩ := hsome
    obtain ⟨node, hnode, -⟩ := Option.map_eq_some_iff.1 hinstr
    exact List.mem_map.2 ⟨x.index, List.mem_range.2 (Array.getElem?_eq_some_iff.1 hnode).1, rfl⟩
  have hnodup : (t :: f.ofClass c).Nodup := List.nodup_cons.2 ⟨hfresh, hc.nodup_ofClass c⟩
  have hle := (List.subperm_of_subset hnodup hsub).length_le
  rwa [List.length_cons, List.length_map, List.length_range] at hle

/-- Each instruction is lost by every loop at most. -/
theorem losses_le (ls : List Loop) (f g : Function) (c : Category) :
    losses ls f g c ≤ (f.ofClass c).length * ls.length := by
  unfold losses
  have hle := List.sum_le_card_nsmul ((f.ofClass c).map fun x =>
    ls.countP fun l => l.preheader.isSome && l.lost f g x) ls.length fun k hk => by
      obtain ⟨x, -, rfl⟩ := List.mem_map.1 hk
      exact List.countP_le_length
  rwa [List.length_map, smul_eq_mul] at hle

/-- What handles can name, counters can count. -/
theorem Analyzed.losses_lt (ha : Analyzed f a) (hc : f.Coherent) (hw : f.WellFormed) (g : Function)
    (hblocks : f.size ≤ handleCount) (hinsts : f.insts.size ≤ handleCount) (kind : HoistKind) :
    losses a.forest.loops f g kind.category < UInt64.size := by
  have hloops := ha.length_loops_le
  have hclass := hw.length_ofClass_lt hc (c := kind.category) (by cases kind <;> decide)
  unfold handleCount at hblocks hinsts
  calc losses a.forest.loops f g kind.category
      ≤ (f.ofClass kind.category).length * a.forest.loops.length := losses_le _ f g _
    _ ≤ 4294967295 * 4294967296 := Nat.mul_le_mul (by omega) (by omega)
    _ < UInt64.size := by decide

/-! ## The counters of a run -/

/-- What there is to count when a run made `g` of a function: what its loops hold, and what those
with a preheader lost. -/
def census (f : Function) (a : Analysis) (g : Function) : Tally :=
  .ofLoops f a.forest.loops (losses a.forest.loops f g .ordinary) (losses a.forest.loops f g .load)

/-- The order of the loops does not matter to a tally. -/
theorem Tally.ofLoops_perm {ks ls : List Loop} (h : ks.Perm ls) (ordinary loads : Nat) :
    ofLoops f ks ordinary loads = ofLoops f ls ordinary loads := by
  simp only [ofLoops, h.length_eq, h.countP_eq]

/-- A run over all loops counts what there is to count. -/
theorem census_processAll {h : Hoisting} (ha : Analyzed f a) (hc : f.Coherent) (hw : f.WellFormed)
    (hh : Hoisting.processAll a settings f = .ok h)
    (hplaced : Placed f a settings a.forest.postorder h.function)
    (hrel : Relocated f a settings a.forest.postorder h.moves) :
    h.counters = (census f a h.function).counters := by
  rw [tally_processAll ha hc hw hh, hrel.countP_eq hplaced ha hc, hrel.countP_eq hplaced ha hc,
    Tally.ofLoops_perm ha.perm_loops]
  rfl

/-- The counters have room for the census of a function whose blocks and instructions handles can
name. -/
theorem Analyzed.census_fits (ha : Analyzed f a) (hc : f.Coherent) (hw : f.WellFormed)
    (g : Function) (hblocks : f.size ≤ handleCount) (hinsts : f.insts.size ≤ handleCount) :
    (census f a g).Fits := by
  have hloops : a.forest.loops.length < UInt64.size := by
    have hle := ha.length_loops_le
    unfold handleCount at hblocks
    unfold UInt64.size
    omega
  exact Tally.fits_ofLoops hloops (ha.losses_lt hc hw g hblocks hinsts .ordinary)
    (ha.losses_lt hc hw g hblocks hinsts .load)

/-- An active run over a function in single-assignment form puts everything where its rule says, and
counts what there is to count; its relocations are the losses. -/
theorem exists_census (hc : f.Coherent) (hw : f.WellFormed) (hs : f.SingleAssignment)
    (hactive : settings.isActive = true) :
    ∃ a r, f.analyze = .ok a ∧ Analyzed f a ∧ f.hoistInvariants settings = .ok r ∧
      Placed f a settings a.forest.postorder r.function ∧
      r.result = .ok (census f a r.function).counters ∧
      ∀ kind, r.moves.countP (fun r => r.kind == kind) =
        losses a.forest.loops f r.function kind.category := by
  obtain ⟨a, hanalyze, ha⟩ := exists_analyze hw
  obtain ⟨h, hh, htrace, hplaced, hrel⟩ := exists_processAll_relocated ha hc hw hs settings
  have hg := htrace.rearranged ha hc hw
  refine ⟨a, _, hanalyze, ha, Function.hoistInvariants_eq hactive hw hanalyze hh hg.wellFormed,
    hplaced, congrArg Except.ok (census_processAll ha hc hw hh hplaced hrel), fun kind => ?_⟩
  rw [← hrel.countP_eq hplaced ha hc, List.countP_reverse]

/-- The counters tell the truth. On a well-formed function in single-assignment form an active pass
succeeds, and its counters show how many loops the function has, how many of them have no preheader,
and how many hold no store, no load, a load but no store, and a call; and for each loop with a
preheader how many ordinary instructions and loads it lost. The summary of the module is left at
zero. The counters are exact as long as handles can name all blocks and instructions. -/
theorem hoistInvariants_census (f : Function) (hb : f.Built) (hv : f.validate = .ok ())
    (hs : f.SingleAssignment) (settings : Settings) (hactive : settings.isActive = true) :
    ∃ a r, f.analyze = .ok a ∧ f.hoistInvariants settings = .ok r ∧
      r.result = .ok (census f a r.function).counters ∧
      (f.size ≤ handleCount → f.insts.size ≤ handleCount → (census f a r.function).Fits) := by
  have hw := Function.violation?_eq_none_iff.1 (Function.validate_eq_ok_iff.1 hv)
  obtain ⟨a, r, hanalyze, ha, hr, -, hres, -⟩ := exists_census hb.coherent hw hs hactive
  exact ⟨a, r, hanalyze, hr, hres, ha.census_fits hb.coherent hw r.function⟩

/-- The census of the cascade: its square left both loops, the load and the sum the inner one. -/
theorem hoistInvariants_census_cascade :
    ∃ a r, cascade.analyze = .ok a ∧ cascade.hoistInvariants {} = .ok r ∧
      r.result = .ok (census cascade a r.function).counters ∧
      (census cascade a r.function).Fits ∧ (census cascade a r.function).ordinary = 3 ∧
      (census cascade a r.function).loads = 1 := by
  obtain ⟨a, r, ha, hr, hres, hfits⟩ := hoistInvariants_census cascade built_cascade
    validate_cascade singleAssignment_cascade {} (by decide)
  have hfits := hfits (by decide) (by decide)
  have hshown : (cascade.hoistInvariants {}).map (fun r => r.result.toOption.map fun c =>
      (c.basicHoisted.toNat, c.loadsHoisted.toNat)) = .ok (some (3, 1)) := by
    decide +kernel
  rw [hr, Except.map, hres] at hshown
  obtain ⟨hordinary, hloads⟩ := Prod.mk.inj (Option.some.inj (Except.ok.inj hshown))
  exact ⟨a, r, ha, hr, hres, hfits, hfits.ordinary.symm.trans hordinary,
    hfits.loads.symm.trans hloads⟩

end LoopHoist
