import LoopHoist.Proofs.Flow.Containment
import LoopHoist.Proofs.Motion.Layout
import LoopHoist.Proofs.Motion.Rounds

/-!
# Loops in another order

Loops beside each other do not meet: they share no block, neither contains the preheader of the
other, and their preheaders are different blocks (`Loop.Beside`). So the turn of one changes nothing
that the turn of the other asks for or changes, and it does not matter which comes first
(`afterTurn_comm`). Any two orders in which no loop comes before one inside it differ by exchanges
of such loops, and so lead to the same function and the same counters (`foldl_turn_perm`).
-/

namespace LoopHoist

variable {f g : Function} {a : Analysis} {settings : Settings} {l m : Loop} {n k : LoopId}
  {p q b c : BlockId} {x y : InstId} {xs ys : List InstId}

/-! ## Lifting to different blocks -/

namespace Function

/-- Relocations that have no block in common can be exchanged. -/
theorem relocate_comm (g : Function) (hxy : x ≠ y) (hbc : b ≠ c) (hbq : b ≠ q) (hpc : p ≠ c)
    (hpq : p ≠ q) :
    (g.relocate x b p).relocate y c q = (g.relocate y c q).relocate x b p := by
  apply ext_of_block?
  case hblocks =>
    intro d
    rw [block?_relocate, block?_relocate, block?_relocate, block?_relocate, Option.map_map,
      Option.map_map]
    congr 1
    funext block
    -- A block is changed by one of the relocations at most.
    by_cases hd : d = b ∨ d = p
    · have hdc : d ≠ c := by rcases hd with rfl | rfl <;> assumption
      have hdq : d ≠ q := by rcases hd with rfl | rfl <;> assumption
      simp only [Function.comp_apply, if_neg hdc, if_neg hdq]
    · have hdb : d ≠ b := fun h => hd (.inl h)
      have hdp : d ≠ p := fun h => hd (.inr h)
      simp only [Function.comp_apply, if_neg hdb, if_neg hdp]
  case hinsts =>
    apply Array.ext_getElem?
    intro i
    have hne : x.index ≠ y.index := fun h => hxy (congrArg InstId.mk h)
    simp only [relocate, Array.getElem?_modify]
    by_cases hx : x.index = i
    · have hy : y.index ≠ i := fun hy => hne (hx.trans hy.symm)
      simp only [if_neg hy]
    · simp only [if_neg hx]
  all_goals rfl

/-- Whether lifting `xs` to `p` and lifting `ys` to `q` have no block in common. -/
structure Apart (g : Function) (p : BlockId) (xs : List InstId) (q : BlockId) (ys : List InstId) :
    Prop where
  /-- They go to different blocks. -/
  ne : p ≠ q
  /-- They come from different blocks. -/
  owner : ∀ x ∈ xs, ∀ y ∈ ys, g.owner? x ≠ g.owner? y
  /-- None of `xs` comes from where `ys` go. -/
  source : ∀ x ∈ xs, g.owner? x ≠ some q
  /-- None of `ys` comes from where `xs` go. -/
  target : ∀ y ∈ ys, g.owner? y ≠ some p

namespace Apart

/-- Being apart has no direction. -/
theorem symm (h : g.Apart p xs q ys) : g.Apart q ys p xs where
  ne := h.ne.symm
  owner y hy x hx := (h.owner x hx y hy).symm
  source := h.target
  target := h.source

/-- When one instruction has been lifted, the others are still apart. -/
theorem lift (h : g.Apart p (x :: xs) q ys) : (g.lift p x).Apart p xs q ys := by
  -- The owner of an instruction is the old one, or the block that it was lifted to.
  have howner : ∀ z, (g.lift p x).owner? z = g.owner? z ∨ (g.lift p x).owner? z = some p := by
    intro z
    rw [owner?_lift]
    by_cases hz : z = x
    · rw [if_pos hz]
      cases hoz : g.owner? z with
      | none => exact .inl rfl
      | some d => exact .inr rfl
    · exact .inl (if_neg hz)
  have hys : ∀ y ∈ ys, (g.lift p x).owner? y = g.owner? y := by
    intro y hy
    have hyx : y ≠ x := by
      rintro rfl
      exact h.owner y List.mem_cons_self y hy rfl
    rw [owner?_lift, if_neg hyx]
  refine ⟨h.ne, fun z hz y hy => ?_, fun z hz => ?_, fun y hy => ?_⟩
  · rw [hys y hy]
    rcases howner z with heq | heq
    · rw [heq]
      exact h.owner z (List.mem_cons_of_mem _ hz) y hy
    · rw [heq]
      exact (h.target y hy).symm
  · rcases howner z with heq | heq
    · rw [heq]
      exact h.source z (List.mem_cons_of_mem _ hz)
    · rw [heq]
      exact fun hpq => h.ne (Option.some.inj hpq)
  · rw [hys y hy]
    exact h.target y hy

/-- Two instructions that are apart can be lifted in either order. -/
theorem lift_comm (h : g.Apart p [x] q [y]) :
    (g.lift p x).lift q y = (g.lift q y).lift p x := by
  have hxy := h.owner x List.mem_cons_self y List.mem_cons_self
  have hne : x ≠ y := by
    rintro rfl
    exact hxy rfl
  have hx : (g.lift q y).owner? x = g.owner? x := by rw [owner?_lift, if_neg hne]
  have hy : (g.lift p x).owner? y = g.owner? y := by rw [owner?_lift, if_neg hne.symm]
  -- Unfolded, each side looks its two owners up in `g`.
  rw [Function.lift, hy, Function.lift.eq_def (g.lift q y), hx]
  unfold Function.lift
  cases hb : g.owner? x with
  | none => rfl
  | some b =>
    cases hc : g.owner? y with
    | none => rfl
    | some c =>
      refine g.relocate_comm hne ?_ ?_ ?_ h.ne
      · exact fun hbc => hxy (by rw [hb, hc, hbc])
      · exact fun hbq => h.source x List.mem_cons_self (by rw [hb, hbq])
      · exact fun hpc => h.target y List.mem_cons_self (by rw [hc, hpc])

/-- So can one instruction and several. -/
theorem lift_liftAll_comm (h : g.Apart p [x] q ys) :
    (g.lift p x).liftAll q ys = (g.liftAll q ys).lift p x := by
  induction ys generalizing g with
  | nil => rfl
  | cons y ys ih =>
    have hone : g.Apart p [x] q [y] := ⟨h.ne, fun z hz w hw => h.owner z hz w (by simp_all),
      h.source, fun w hw => h.target w (by simp_all)⟩
    show ((g.lift p x).lift q y).liftAll q ys = ((g.lift q y).liftAll q ys).lift p x
    rw [hone.lift_comm]
    exact ih h.symm.lift.symm

/-- And several and several. -/
theorem liftAll_comm (h : g.Apart p xs q ys) :
    (g.liftAll p xs).liftAll q ys = (g.liftAll q ys).liftAll p xs := by
  induction xs generalizing g with
  | nil => rfl
  | cons x xs ih =>
    have hone : g.Apart p [x] q ys := ⟨h.ne, fun z hz => h.owner z (by simp_all),
      fun z hz => h.source z (by simp_all), h.target⟩
    show ((g.lift p x).liftAll p xs).liftAll q ys = ((g.liftAll q ys).lift p x).liftAll p xs
    rw [ih h.lift, hone.lift_liftAll_comm]

end Apart

end Function

/-! ## Loops beside each other -/

/-- Whether two loops do not meet. -/
structure Loop.Beside (l m : Loop) : Prop where
  /-- They share no block. -/
  disjoint : ∀ b, l.contains b = true → m.contains b = false
  /-- The preheader of the first one is not in the second one. -/
  outside : ∀ p, l.preheader = some p → m.contains p = false
  /-- Nor is that of the second one in the first one. -/
  outside' : ∀ q, m.preheader = some q → l.contains q = false
  /-- Their preheaders are different blocks. -/
  ne : ∀ p q, l.preheader = some p → m.preheader = some q → p ≠ q

/-- Being beside each other has no direction. -/
theorem Loop.Beside.symm (h : l.Beside m) : m.Beside l where
  disjoint b hm := by
    rw [Bool.eq_false_iff]
    intro hl
    rw [h.disjoint b hl] at hm
    cases hm
  outside := h.outside'
  outside' := h.outside
  ne q p hq hp := (h.ne p q hp hq).symm

/-- Loops of which neither contains the header of the other are beside each other. -/
theorem Analyzed.beside (ha : Analyzed f a) (hl : a.forest.loop? n = some l)
    (hm : a.forest.loop? k = some m) (hlm : l.contains m.header = false)
    (hml : m.contains l.header = false) : l.Beside m := by
  have hforest := ha.forest
  -- Neither are they one, nor is one inside the other.
  have hnot : ¬ (k = n ∨ a.forest.Inside k n) := by
    rw [hforest] at hl hm ⊢
    rw [← ha.tree.contains_header_iff hm hl, hlm]
    exact Bool.false_ne_true
  have hnot' : ¬ (n = k ∨ a.forest.Inside n k) := by
    rw [hforest] at hl hm ⊢
    rw [← ha.tree.contains_header_iff hl hm, hml]
    exact Bool.false_ne_true
  refine ⟨fun b hb => ?_, fun p hp => ?_, fun q hq => ?_, fun p q hp hq heq => ?_⟩
  · rw [Bool.eq_false_iff]
    intro hb'
    rcases ha.comparable hl hm hb hb' with heq | hnk | hkn
    · exact hnot' (.inl heq)
    · exact hnot' (.inr hnk)
    · exact hnot (.inr hkn)
  · rw [Bool.eq_false_iff, Ne, ha.contains_preheader_iff hl hp hm]
    exact fun hin => hnot' (.inr hin)
  · rw [Bool.eq_false_iff, Ne, ha.contains_preheader_iff hm hq hl]
    exact fun hin => hnot (.inr hin)
  · rw [heq] at hp
    exact hnot (.inl (ha.eq_of_preheader hl hp hm hq))

/-- What a loop gives up comes out of its blocks. -/
theorem exists_owner_of_mem_harvest (ha : Analyzed f a) (hl : a.forest.loop? n = some l)
    (hg : f.Rearranged g) (hx : x ∈ (harvest a settings g l).map (·.1)) :
    ∃ b, g.owner? x = some b ∧ l.contains b = true :=
  (mem_candidates ha hl hg).1 ((harvest_sublist a settings g l).subset hx)

/-- What a turn leaves is a rearrangement. -/
theorem Function.Rearranged.afterTurn (hg : f.Rearranged g) (ha : Analyzed f a)
    (hl : a.forest.loop? n = some l) : f.Rearranged (g.afterTurn a settings l) := by
  obtain ⟨h', -, hturn, hg'⟩ := exists_turn_eq (h := { function := g }) settings ha hl hg
  rwa [hturn.function] at hg'

/-- A turn changes no instruction, no origin of a value and no number of blocks. -/
theorem Function.afterTurn_same (g : Function) (a : Analysis) (settings : Settings) (m : Loop) :
    (∀ i, (g.afterTurn a settings m).inst? i = g.inst? i) ∧
      (∀ v, (g.afterTurn a settings m).def? v = g.def? v) ∧
      ∀ b, (g.afterTurn a settings m).hasBlock b = g.hasBlock b := by
  unfold Function.afterTurn
  cases m.preheader with
  | none => exact ⟨fun _ => rfl, fun _ => rfl, fun _ => rfl⟩
  | some q => exact g.liftAll_same q _

section

variable (settings) (ha : Analyzed f a) (hm : a.forest.loop? k = some m) (hlm : l.Beside m)
  (hg : f.Rearranged g)
include ha hm hlm hg

/-- The turn of a loop leaves the blocks of a loop beside it as they are. -/
theorem instsOf_afterTurn (hb : l.contains b = true) :
    (g.afterTurn a settings m).instsOf b = g.instsOf b := by
  unfold Function.afterTurn
  cases hq : m.preheader with
  | none => rfl
  | some q =>
    have hhas : g.hasBlock q = true := by
      rw [hg.hasBlock]
      exact ha.hasBlock_preheader hm hq
    refine Function.instsOf_liftAll_of_ne hhas ?_ fun y hy hyb => ?_
    · rintro rfl
      rw [hlm.outside' b hq] at hb
      cases hb
    · obtain ⟨c, hc, hin⟩ := exists_owner_of_mem_harvest ha hm hg hy
      obtain rfl := Option.some.inj (hc.symm.trans hyb)
      rw [hlm.disjoint c hb] at hin
      cases hin

/-- Nor does it change what that loop does to memory. -/
theorem ofLoop_afterTurn :
    LoopMemory.ofLoop (g.afterTurn a settings m) a.slots l = .ofLoop g a.slots l := by
  obtain ⟨hinst, hdef, -⟩ := g.afterTurn_same a settings m
  have hbody : (g.afterTurn a settings m).bodyOf l = g.bodyOf l := by
    refine List.flatMap_congr fun b hb => ?_
    unfold Function.placedIn
    rw [instsOf_afterTurn settings ha hm hlm hg (List.contains_iff_mem.2 hb)]
    simp only [hinst]
  have hobject : (g.afterTurn a settings m).object? a.slots = g.object? a.slots :=
    Function.object?_congr hdef fun _ => rfl
  unfold LoopMemory.ofLoop LoopMemory.ofBody
  rw [hbody, hobject]

/-- What is outside a loop beside it, stays outside, and what is inside stays inside. -/
theorem isOutside_afterTurn (s : LoopState) (hs : s.loop = l) (j : InstId) :
    s.isOutside (g.afterTurn a settings m) j = s.isOutside g j := by
  unfold Function.afterTurn
  cases hq : m.preheader with
  | none => rfl
  | some q =>
    unfold LoopState.isOutside
    rw [Function.owner?_liftAll, hs]
    by_cases hj : j ∈ (harvest a settings g m).map (·.1)
    · -- It went from outside the loop to outside the loop.
      obtain ⟨c, hc, hin⟩ := exists_owner_of_mem_harvest ha hm hg hj
      rw [if_pos hj, hc, Option.map_some]
      show (!l.contains q) = !l.contains c
      rw [hlm.outside' q hq, hlm.symm.disjoint c hin]
    · rw [if_neg hj]

/-- A loop beside judges as it did. -/
theorem alike_afterTurn : (LoopState.start g a.slots settings l).Alike g
    (.start (g.afterTurn a settings m) a.slots settings l) (g.afterTurn a settings m) where
  settings := rfl
  isSlot _ := rfl
  isPrivate _ := rfl
  stores t := by
    show t ∈ (LoopMemory.ofLoop (g.afterTurn a settings m) a.slots l).stores ↔ _
    rw [ofLoop_afterTurn settings ha hm hlm hg]
    rfl
  hasCall := by
    show (LoopMemory.ofLoop (g.afterTurn a settings m) a.slots l).hasCall = _
    rw [ofLoop_afterTurn settings ha hm hlm hg]
    rfl
  def? := (g.afterTurn_same a settings m).2.1
  content i := ⟨fun b => b, by
    rw [(g.afterTurn_same a settings m).1]
    simp only [Instruction.mapBlocks_id, Option.map_id']⟩
  outside j := by
    show LoopState.isOutside _ _ j = _
    rw [← isOutside_afterTurn settings ha hm hlm hg _ rfl]
    rfl

/-- The candidates of a loop beside are the same. -/
theorem candidates_afterTurn :
    Hoisting.candidates (g.afterTurn a settings m) a.dominators.order l =
      Hoisting.candidates g a.dominators.order l :=
  List.flatMap_congr fun _ hb => instsOf_afterTurn settings ha hm hlm hg (List.mem_filter.1 hb).2

/-- A loop beside gives up the same. -/
theorem harvest_afterTurn :
    harvest a settings (g.afterTurn a settings m) l = harvest a settings g l := by
  unfold harvest
  rw [candidates_afterTurn settings ha hm hlm hg,
    (alike_afterTurn settings ha hm hlm hg).accept_eq]

/-- And counts the same. -/
theorem gained_afterTurn :
    Counters.gained a settings (g.afterTurn a settings m) l = .gained a settings g l := by
  unfold Counters.gained
  rw [harvest_afterTurn settings ha hm hlm hg, ofLoop_afterTurn settings ha hm hlm hg]

end

/-- What loops beside each other give up comes from different blocks and goes to different
blocks. -/
theorem apart_harvest (ha : Analyzed f a) (hl : a.forest.loop? n = some l)
    (hm : a.forest.loop? k = some m) (hlm : l.Beside m) (hg : f.Rearranged g)
    (hp : l.preheader = some p) (hq : m.preheader = some q) :
    g.Apart p ((harvest a settings g l).map (·.1)) q ((harvest a settings g m).map (·.1)) := by
  refine ⟨hlm.ne p q hp hq, fun x hx y hy heq => ?_, fun x hx heq => ?_, fun y hy heq => ?_⟩
  · obtain ⟨b, hb, hin⟩ := exists_owner_of_mem_harvest ha hl hg hx
    obtain ⟨c, hc, hin'⟩ := exists_owner_of_mem_harvest ha hm hg hy
    rw [hb, hc] at heq
    rw [← Option.some.inj heq, hlm.disjoint b hin] at hin'
    cases hin'
  · obtain ⟨b, hb, hin⟩ := exists_owner_of_mem_harvest ha hl hg hx
    rw [Option.some.inj (hb.symm.trans heq), hlm.outside' q hq] at hin
    cases hin
  · obtain ⟨c, hc, hin⟩ := exists_owner_of_mem_harvest ha hm hg hy
    rw [Option.some.inj (hc.symm.trans heq), hlm.outside p hp] at hin
    cases hin

/-- The turns of loops beside each other can be taken in either order. -/
theorem afterTurn_comm (ha : Analyzed f a) (hl : a.forest.loop? n = some l)
    (hm : a.forest.loop? k = some m) (hlm : l.Beside m) (hg : f.Rearranged g) :
    (g.afterTurn a settings l).afterTurn a settings m =
      (g.afterTurn a settings m).afterTurn a settings l := by
  have hleft := harvest_afterTurn settings ha hm hlm hg
  have hright := harvest_afterTurn settings ha hl hlm.symm hg
  unfold Function.afterTurn at hleft hright ⊢
  cases hp : l.preheader with
  | none => rfl
  | some p =>
    cases hq : m.preheader with
    | none => rfl
    | some q =>
      rw [hp] at hright
      rw [hq] at hleft
      dsimp only at hleft hright ⊢
      rw [hleft, hright]
      exact (apart_harvest ha hl hm hlm hg hp hq).liftAll_comm

/-! ## All loops in another order -/

section

variable {α β : Type} {step : β → α → β}

/-- A step that commutes with each of some steps can be taken after them. -/
theorem foldl_step_comm {Inv : β → Prop} {x : α} {us : List α}
    (hinv : ∀ s, ∀ u ∈ us, Inv s → Inv (step s u))
    (hcomm : ∀ s, ∀ u ∈ us, Inv s → step (step s x) u = step (step s u) x) {s : β} (hs : Inv s) :
    us.foldl step (step s x) = step (us.foldl step s) x := by
  induction us generalizing s with
  | nil => rfl
  | cons u us ih =>
    rw [List.foldl_cons, List.foldl_cons, hcomm s u List.mem_cons_self hs]
    exact ih (fun t v hv => hinv t v (List.mem_cons_of_mem _ hv))
      (fun t v hv => hcomm t v (List.mem_cons_of_mem _ hv)) (hinv s u List.mem_cons_self hs)

/-- Steps taken in two orders lead to the same if the steps commute that may be exchanged: `Before`
says what may come before what, and both orders keep to it. -/
theorem foldl_eq_of_perm (Inv : β → Prop) (Valid : α → Prop) {Before : α → α → Prop}
    (hinv : ∀ s x, Valid x → Inv s → Inv (step s x))
    (hcomm : ∀ s x y, Valid x → Valid y → Inv s → Before x y → Before y x →
      step (step s x) y = step (step s y) x) {xs ys : List α} (h : xs.Perm ys)
    (hxs : xs.Pairwise Before) (hys : ys.Pairwise Before) (hvalid : ∀ x ∈ xs, Valid x) {s : β}
    (hs : Inv s) : xs.foldl step s = ys.foldl step s := by
  induction xs generalizing ys s with
  | nil => rw [List.nil_perm.1 h]
  | cons x xs ih =>
    obtain ⟨hx, hxs⟩ := List.pairwise_cons.1 hxs
    obtain ⟨us, vs, rfl⟩ := List.append_of_mem (h.subset List.mem_cons_self)
    have hrest : xs.Perm (us ++ vs) := (h.trans List.perm_middle).cons_inv
    have hxv := hvalid x List.mem_cons_self
    have hxsv : ∀ y ∈ xs, Valid y := fun y hy => hvalid y (List.mem_cons_of_mem _ hy)
    have hmem : ∀ u ∈ us, u ∈ xs := fun u hu => hrest.symm.subset (List.mem_append_left _ hu)
    -- What comes before `x` in the other order comes after it in this one, so it commutes with it.
    have hfirst : us.foldl step (step s x) = step (us.foldl step s) x := by
      refine foldl_step_comm (fun t u hu => hinv t u (hxsv u (hmem u hu))) (fun t u hu ht => ?_) hs
      exact hcomm t x u hxv (hxsv u (hmem u hu)) ht (hx u (hmem u hu))
        ((List.pairwise_append.1 hys).2.2 u hu x List.mem_cons_self)
    have hpair : (us ++ vs).Pairwise Before :=
      hys.sublist ((List.Sublist.refl us).append (List.sublist_cons_self x vs))
    calc xs.foldl step (step s x)
        = (us ++ vs).foldl step (step s x) := ih hrest hxs hpair hxsv (hinv s x hxv hs)
      _ = vs.foldl step (us.foldl step (step s x)) := List.foldl_append
      _ = (us ++ x :: vs).foldl step s := by rw [hfirst, List.foldl_append, List.foldl_cons]

end

/-- What the turn of a loop makes of a function and of the counters. -/
def turn (a : Analysis) (settings : Settings) (s : Function × Counters) (l : Loop) :
    Function × Counters :=
  (s.1.afterTurn a settings l, s.2 + .gained a settings s.1 l)

/-- Going through loops of the forest is taking their turns. -/
theorem exists_foldl_turn {ns : List LoopId} (settings : Settings) (ha : Analyzed f a)
    (hns : ∀ n ∈ ns, ∃ l, a.forest.loop? n = some l) {h : Hoisting}
    (hg : f.Rearranged h.function) :
    ∃ h', ns.foldlM (Hoisting.processLoop a settings) h = .ok h' ∧
      (h'.function, h'.counters) = (ns.filterMap a.forest.loop?).foldl (turn a settings)
        (h.function, h.counters) ∧ f.Rearranged h'.function := by
  induction ns generalizing h with
  | nil => exact ⟨h, rfl, rfl, hg⟩
  | cons n ns ih =>
    obtain ⟨l, hl⟩ := hns n List.mem_cons_self
    obtain ⟨h₁, hh₁, hturn, hg₁⟩ := exists_turn_eq settings ha hl hg
    obtain ⟨h', hh', heq, hg'⟩ := ih (fun k hk => hns k (List.mem_cons_of_mem _ hk)) hg₁
    refine ⟨h', ?_, ?_, hg'⟩
    · rw [List.foldlM_cons, hh₁]
      exact hh'
    · rw [heq, hturn.function, hturn.counters, List.filterMap_cons, hl, List.foldl_cons]
      rfl

/-- Whether a loop may have its turn before another one: the other one does not begin in it, as it
would if it were inside. -/
def Loop.Before (l m : Loop) : Prop := l.contains m.header = false

/-- The loops of the forest can be gone through in any order that has inner loops first. -/
theorem foldl_turn_perm {ls ms : List Loop} (settings : Settings) (ha : Analyzed f a)
    (h : ls.Perm ms) (hls : ls.Pairwise Loop.Before) (hms : ms.Pairwise Loop.Before)
    (hforest : ∀ l ∈ ls, ∃ n, a.forest.loop? n = some l) (hg : f.Rearranged g) (c : Counters) :
    ls.foldl (turn a settings) (g, c) = ms.foldl (turn a settings) (g, c) := by
  refine foldl_eq_of_perm (fun s => f.Rearranged s.1) (fun l => ∃ n, a.forest.loop? n = some l)
    ?_ ?_ h hls hms hforest hg
  · rintro s l ⟨n, hl⟩ hs
    exact hs.afterTurn ha hl
  · rintro s l m ⟨n, hl⟩ ⟨k, hm⟩ hs hlm hml
    have hbeside := ha.beside hl hm hlm hml
    have hleft := gained_afterTurn settings ha hm hbeside hs
    have hright := gained_afterTurn settings ha hl hbeside.symm hs
    unfold turn
    dsimp only
    rw [hleft, hright, afterTurn_comm ha hl hm hbeside hs, add_assoc, add_assoc,
      add_comm (Counters.gained a settings s.1 l)]

/-- The order of the pass has inner loops first. -/
theorem Analyzed.pairwise_before {ns : List LoopId} (ha : Analyzed f a)
    (hns : ns.Pairwise (Cfg.Later a.forest)) :
    (ns.filterMap a.forest.loop?).Pairwise Loop.Before := by
  refine hns.filterMap a.forest.loop? fun n k hnk l hl m hm => ?_
  rw [Loop.Before, Bool.eq_false_iff]
  rw [ha.forest] at hl hm hnk
  rw [Ne, ha.tree.contains_header_iff hm hl]
  rintro (heq | hin)
  · exact hnk.1 heq.symm
  · exact hnk.2 hin

/-- Loops of which each may have its turn before those behind it are different loops. -/
theorem Analyzed.nodup_of_before {ls : List Loop} (ha : Analyzed f a)
    (hls : ls.Pairwise Loop.Before) (hforest : ∀ l ∈ ls, ∃ n, a.forest.loop? n = some l) :
    ls.Nodup := by
  refine hls.imp_of_mem fun {l m} hl _ hlm heq => ?_
  -- A loop contains its header.
  obtain ⟨n, hl⟩ := hforest l hl
  have hin : l.contains l.header = true := (ha.contains_iff hl).2 (.inl rfl)
  rw [Loop.Before, ← heq, hin] at hlm
  cases hlm

/-- The pass may go through the loops in any order that has inner loops first: the function and the
counters that it makes are the same. -/
theorem exists_foldlM_of_perm {ns : List LoopId} (ha : Analyzed f a) (hc : f.Coherent)
    (hw : f.WellFormed) (settings : Settings) (hns : ns.Perm a.forest.postorder)
    (hlater : ns.Pairwise (Cfg.Later a.forest)) :
    ∃ h h', Hoisting.processAll a settings f = .ok h ∧
      ns.foldlM (Hoisting.processLoop a settings) { function := f } = .ok h' ∧
      h'.function = h.function ∧ h'.counters = h.counters := by
  have hall : ∀ n ∈ a.forest.postorder, ∃ l, a.forest.loop? n = some l := fun n hn =>
    ha.mem_postorder.1 hn
  obtain ⟨h, hh, heq, -⟩ := exists_foldl_turn (h := { function := f }) settings ha hall
    (.refl hc hw)
  obtain ⟨h', hh', heq', -⟩ := exists_foldl_turn (h := { function := f }) settings ha
    (fun n hn => hall n (hns.subset hn)) (.refl hc hw)
  have hsame := foldl_turn_perm settings ha (hns.filterMap a.forest.loop?)
    (ha.pairwise_before hlater) (ha.pairwise_before ha.postorder_pairwise)
    (fun l hl => ha.mem_filterMap_postorder.1 ((hns.filterMap _).subset hl)) (.refl hc hw) {}
  have hpair := heq'.trans (hsame.trans heq.symm)
  exact ⟨h, h', hh, hh', congrArg Prod.fst hpair, congrArg Prod.snd hpair⟩

end LoopHoist
