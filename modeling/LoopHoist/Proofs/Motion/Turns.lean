import Mathlib.Algebra.BigOperators.Group.List.Basic
import Mathlib.Data.UInt
import Mathlib.Tactic.Abel
import LoopHoist.Proofs.Motion.Ascent

/-!
# The turns of the loops

The pass gives each loop one turn. `Turn` says all that a turn does to the relocations and to the
counters, so what holds of a whole run follows by induction over the loops (`foldlM_keeps`) and no
step of the pass is opened again. What a turn relocates belongs to its loop. Hence when the turn of
a loop has come, only loops before it have given anything up (`AtTurn.later`), and the loop holds
exactly the instructions that it held at first (`AtTurn.mem_iff`).

Counters are added one by one, so they form a commutative monoid, and a run adds up what its turns
count and what its relocations count (`counters_processAll`). Counters wrap; the numbers that they
stand for are kept as a `Tally`, of what the loops hold at first and of how many relocations of
either kind there were (`tally_processAll`).
-/

namespace LoopHoist

variable {f g : Function} {a : Analysis} {settings : Settings} {l : Loop} {n k : LoopId}
  {p b c : BlockId} {x : InstId} {h h' : Hoisting} {new : List Relocation}

/-! ## Sums of counters -/

namespace Counters

instance : Zero Counters := ⟨{}⟩

/-- Counters are added one by one. -/
instance : AddCommMonoid Counters where
  add := Counters.add
  add_assoc a b c := by
    show add (add a b) c = add a (add b c)
    simp only [add, add_assoc]
  zero_add a := by
    show add {} a = a
    simp only [add, zero_add]
  add_zero a := by
    show add a {} = a
    simp only [add, add_zero]
  add_comm a b := by
    show add a b = add b a
    simp only [add, add_comm]
  nsmul := nsmulRec

/-- What the turn of a loop adds to the counters, its relocations apart. -/
def ofTurn (m : LoopMemory) (l : Loop) : Counters :=
  ofLoop m + if l.preheader.isNone then { noPreheader := 1 } else 0

/-- What relocations add to the counters. -/
def ofMoves (rs : List Relocation) : Counters := (rs.map fun r => ofHoist r.kind).sum

end Counters

/-- Whether the body of a loop holds an instruction of a class. -/
def Function.holds (f : Function) (l : Loop) (c : Category) : Bool :=
  (f.bodyOf l).any fun q => q.2.category == c

/-- What a run counts, as numbers of any size. -/
structure Tally where
  /-- The loops. -/
  loops : Nat
  /-- The loops without a preheader. -/
  gateless : Nat
  /-- The ordinary instructions that were hoisted, each as often as it was. -/
  ordinary : Nat
  /-- The loads that were hoisted, each as often as it was. -/
  loads : Nat
  /-- The loops without a store. -/
  storeless : Nat
  /-- The loops without a load. -/
  loadless : Nat
  /-- The loops without a store but with a load. -/
  loadOnly : Nat
  /-- The loops with a call. -/
  calling : Nat

namespace Tally

/-- The counters that show the numbers, with nothing in the summary of the module. -/
def counters (t : Tally) : Counters where
  numLoops := .ofNat t.loops
  noPreheader := .ofNat t.gateless
  basicHoisted := .ofNat t.ordinary
  loadsHoisted := .ofNat t.loads
  loopsNoStore := .ofNat t.storeless
  loopsNoLoad := .ofNat t.loadless
  loopsNoStoreWithLoad := .ofNat t.loadOnly
  loopsWithCall := .ofNat t.calling

/-- What there is to count in some loops of a function, when so many ordinary instructions and loads
were hoisted. -/
def ofLoops (f : Function) (ls : List Loop) (ordinary loads : Nat) : Tally where
  loops := ls.length
  gateless := ls.countP fun l => l.preheader.isNone
  ordinary := ordinary
  loads := loads
  storeless := ls.countP fun l => !f.holds l .store
  loadless := ls.countP fun l => !f.holds l .load
  loadOnly := ls.countP fun l => !f.holds l .store && f.holds l .load
  calling := ls.countP fun l => f.holds l .call

/-- The counters of more loops and more hoisted instructions are the sums. -/
theorem counters_append (f : Function) (ks ls : List Loop) (m n m' n' : Nat) :
    (ofLoops f (ks ++ ls) (m + m') (n + n')).counters =
      (ofLoops f ks m n).counters + (ofLoops f ls m' n').counters := by
  show _ = Counters.add _ _
  simp only [counters, ofLoops, Counters.add, List.length_append, List.countP_append,
    UInt64.ofNat_add, add_zero]

end Tally

/-- A loop loads, stores and calls if its body holds a load, a store or a call. -/
theorem LoopMemory.ofLoop_holds (f : Function) (s : StackSlots) (l : Loop) :
    (LoopMemory.ofLoop f s l).hasLoad = f.holds l .load ∧
      (LoopMemory.ofLoop f s l).hasStore = f.holds l .store ∧
      (LoopMemory.ofLoop f s l).hasCall = f.holds l .call := by
  have hcount : ∀ c : Category,
      decide (0 < ((f.bodyOf l).map (·.2)).countP fun i => i.category == c) = f.holds l c :=
    fun c => by
      rw [Bool.eq_iff_iff, decide_eq_true_eq, List.countP_pos_iff, Function.holds,
        List.any_eq_true]
      simp only [List.mem_map, exists_exists_and_eq_and]
  refine ⟨hcount .load, ?_, hcount .call⟩
  -- The stores are the instructions that have an address to store to.
  have hstore : ∀ i : Instruction, ¬ i.storeAddr? = none ↔ (i.category == .store) = true :=
    fun i => by
      cases i with
      | compute dst c =>
        cases hc : c.isTotal <;> simp [Instruction.storeAddr?, Instruction.category, hc]
      | _ => simp [Instruction.storeAddr?, Instruction.category]
  rw [LoopMemory.hasStore, LoopMemory.ofLoop, ofBody, Function.holds, Bool.eq_iff_iff,
    Bool.not_eq_true', List.isEmpty_eq_false_iff, List.any_eq_true, Ne, List.map_eq_nil_iff,
    List.filterMap_eq_nil_iff]
  simp only [List.mem_map, forall_exists_index, and_imp, forall_apply_eq_imp_iff₂, not_forall,
    exists_prop, hstore]

namespace Tally

/-- Turns count loops by what these hold, and no instruction as moved. -/
theorem counters_ofTurn (f : Function) (s : StackSlots) (ls : List Loop) :
    (ls.map fun l => Counters.ofTurn (.ofLoop f s l) l).sum = (ofLoops f ls 0 0).counters := by
  induction ls with
  | nil => rfl
  | cons l ls ih =>
    have hone : Counters.ofTurn (.ofLoop f s l) l = (ofLoops f [l] 0 0).counters := by
      obtain ⟨hload, hstore, hcall⟩ := LoopMemory.ofLoop_holds f s l
      unfold Counters.ofTurn Counters.ofLoop counters ofLoops
      simp only [hload, hstore, hcall, List.countP_singleton]
      cases f.holds l .load <;> cases f.holds l .store <;> cases f.holds l .call <;>
        cases l.preheader <;> rfl
    rw [List.map_cons, List.sum_cons, ih, hone, ← counters_append]
    rfl

/-- Relocations count what they move, by kind, and no loops. -/
theorem counters_ofMoves (f : Function) (rs : List Relocation) :
    Counters.ofMoves rs = (ofLoops f [] (rs.countP fun r => r.kind == .ordinary)
      (rs.countP fun r => r.kind == .load)).counters := by
  induction rs with
  | nil => rfl
  | cons r rs ih =>
    have hone : Counters.ofHoist r.kind = (ofLoops f [] (if r.kind == .ordinary then 1 else 0)
        (if r.kind == .load then 1 else 0)).counters := by
      cases r.kind <;> rfl
    have hcons : Counters.ofMoves (r :: rs) = .ofHoist r.kind + .ofMoves rs := rfl
    rw [hcons, add_comm, ih, hone, ← counters_append, List.countP_cons, List.countP_cons]
    rfl

end Tally

/-! ## One turn -/

/-- What the turn of a loop makes of what the turns before it have left: it adds relocations of the
loop, and counts the loop and them. -/
structure Turn (a : Analysis) (n : LoopId) (l : Loop) (new : List Relocation) (h h' : Hoisting) :
    Prop where
  /-- The loop. -/
  loop : a.forest.loop? n = some l
  /-- The relocations before are kept. -/
  moves : h'.moves = new ++ h.moves
  /-- The new ones are relocations of the loop. -/
  own : ∀ r ∈ new, r.loop = n
  /-- The loop is counted, and so are they. -/
  counters : h'.counters =
    h.counters + .ofTurn (.ofLoop h.function a.slots l) l + .ofMoves new

/-- A candidate that is tried stays where it is, or goes to the preheader and is counted. -/
theorem tryHoist_eq_ok {st st' : Hoisting × LoopState}
    (h : Hoisting.tryHoist n p st x = .ok st') : st' = st ∨
      ∃ kind g, st.1.function.move x p = .ok g ∧ st' =
        ({ function := g, counters := st.1.counters + .ofHoist kind,
           moves := { inst := x, kind, loop := n, preheader := p } :: st.1.moves },
          st.2.mark x) := by
  unfold Hoisting.tryHoist at h
  split at h
  · cases h
  · exact .inl (Except.ok.inj h).symm
  · next kind _ =>
    split at h
    · cases h
    · next g hg => exact .inr ⟨kind, g, hg, (Except.ok.inj h).symm⟩

/-- What each step of a fold keeps, of the elements gone through and of the state, holds at the end
if the fold succeeds. -/
theorem foldlM_keeps {α β ε : Type} {step : β → α → Except ε β} {P : List α → β → Prop}
    {xs : List α} {s s' : β}
    (hstep : ∀ done x rest s s', xs = done ++ x :: rest → P done s → step s x = .ok s' →
      P (done ++ [x]) s') (hs : P [] s) (h : xs.foldlM step s = .ok s') : P xs s' := by
  -- The induction is on what is left, while what is done grows at its end.
  suffices hall : ∀ rest done s, xs = done ++ rest → P done s → rest.foldlM step s = .ok s' →
      P xs s' from hall xs [] s rfl hs h
  intro rest
  induction rest with
  | nil =>
    intro done t hxs ht h
    obtain rfl : t = s' := Except.ok.inj h
    rw [hxs, List.append_nil]
    exact ht
  | cons x rest ih =>
    intro done t hxs ht h
    rw [List.foldlM_cons] at h
    cases hx : step t x with
    | error e =>
      rw [hx] at h
      cases h
    | ok t' =>
      rw [hx] at h
      exact ih (done ++ [x]) t' (by rw [hxs, List.append_cons]) (hstep done x rest t t' hxs ht hx) h

/-- Candidates that are tried one by one keep the turn going, each with one relocation more or
none. -/
theorem Turn.tryAll {xs : List InstId} {st st' : Hoisting × LoopState}
    (hturn : Turn a n l new h st.1) (hst : xs.foldlM (Hoisting.tryHoist n p) st = .ok st') :
    ∃ new', Turn a n l new' h st'.1 := by
  refine foldlM_keeps (P := fun _ st => ∃ new, Turn a n l new h st.1) ?_ ⟨new, hturn⟩ hst
  rintro - x - st st' - ⟨new, hturn⟩ hx
  rcases tryHoist_eq_ok hx with rfl | ⟨kind, g, -, rfl⟩
  · exact ⟨new, hturn⟩
  · refine ⟨_ :: new, hturn.loop, congrArg (_ :: ·) hturn.moves, ?_, ?_⟩
    · intro r hr
      rcases List.mem_cons.1 hr with rfl | hr
      · rfl
      · exact hturn.own r hr
    · -- The new relocation stands first in the list and is added last.
      show st.1.counters + _ = _
      rw [hturn.counters, Counters.ofMoves, Counters.ofMoves, List.map_cons, List.sum_cons,
        add_assoc, add_comm (Counters.ofHoist _)]

/-- A loop that is found has the handle. -/
theorem LoopForest.loop?_of_loopAt {F : LoopForest} (h : F.loopAt n = .ok l) :
    F.loop? n = some l := by
  unfold loopAt at h
  split at h
  · next hl => exact hl.trans (congrArg some (Except.ok.inj h))
  · cases h

/-- The state of a loop that is found is that from which nothing has been hoisted. -/
theorem LoopState.eq_start_of_startAt {s : LoopState} {slots : StackSlots}
    (h : startAt f slots settings l = .ok s) : s = .start f slots settings l := by
  obtain ⟨body, hbody, h⟩ := exists_of_bind_eq_ok h
  rw [← Except.ok.inj h, Function.eq_flatMap_of_bodyAt hbody]
  rfl

/-- Renaming errors makes no result. -/
theorem eq_ok_of_mapError {ε ε' α : Type} {x : Except ε α} {k : ε → ε'} {r : α}
    (h : x.mapError k = .ok r) : x = .ok r := by
  cases x with
  | error e => cases h
  | ok y => exact congrArg Except.ok (Except.ok.inj h)

/-- The pass gives a loop that it goes through a turn. -/
theorem exists_turn (hh : Hoisting.processLoop a settings h n = .ok h') :
    ∃ l new, Turn a n l new h h' := by
  obtain ⟨l, hl, hh⟩ := exists_of_bind_eq_ok hh
  obtain ⟨state, hstate, hh⟩ := exists_of_bind_eq_ok hh
  have hl := LoopForest.loop?_of_loopAt (eq_ok_of_mapError hl)
  obtain rfl := LoopState.eq_start_of_startAt (eq_ok_of_mapError hstate)
  -- The turn begins by counting the loop, with or without a preheader.
  have hstart : ∀ counters, counters = h.counters +
      .ofTurn (.ofLoop h.function a.slots l) l → Turn a n l [] h { h with counters } :=
    fun counters heq => ⟨hl, rfl, fun r hr => absurd hr List.not_mem_nil, by
      rw [heq, Counters.ofMoves, List.map_nil, List.sum_nil, add_zero]⟩
  cases hp : l.preheader with
  | none =>
    simp only [hp] at hh
    obtain rfl := Except.ok.inj hh
    refine ⟨l, [], hstart _ ?_⟩
    simp only [Counters.ofTurn, hp, Option.isNone_none, if_true, add_assoc]
    rfl
  | some p =>
    simp only [hp] at hh
    obtain ⟨xs, -, hh⟩ := exists_of_bind_eq_ok hh
    obtain ⟨st, hst, hh⟩ := exists_of_bind_eq_ok hh
    obtain rfl := Except.ok.inj hh
    have hcounted : h.counters + Counters.ofLoop (.ofLoop h.function a.slots l) =
        h.counters + .ofTurn (.ofLoop h.function a.slots l) l := by
      simp only [Counters.ofTurn, hp, Option.isNone_some, Bool.false_eq_true, if_false,
        add_zero]
    exact ⟨l, (hstart _ hcounted).tryAll hst⟩

/-! ## When the turn of a loop has come -/

/-- Where a run over `f` stands when the turn of a loop has come: the loops before it in the order
of the pass have had theirs. -/
def AtTurn (f : Function) (a : Analysis) (settings : Settings) (n : LoopId) (h : Hoisting) : Prop :=
  ∃ ks ms, a.forest.postorder = ks ++ n :: ms ∧
    ks.foldlM (Hoisting.processLoop a settings) { function := f } = .ok h

/-- Only loops that have had their turn have given anything up. -/
theorem mem_of_mem_moves {ns : List LoopId} {r : Relocation}
    (hh : ns.foldlM (Hoisting.processLoop a settings) { function := f } = .ok h)
    (hr : r ∈ h.moves) : r.loop ∈ ns := by
  refine foldlM_keeps (P := fun done h => ∀ r ∈ h.moves, r.loop ∈ done) ?_ ?_ hh r hr
  · intro done k rest h h' _ hdone hk r hr
    obtain ⟨l, new, hturn⟩ := exists_turn hk
    rw [hturn.moves] at hr
    rcases List.mem_append.1 hr with hr | hr
    · rw [hturn.own r hr]
      simp
    · exact List.mem_append_left _ (hdone r hr)
  · exact fun r hr => absurd hr List.not_mem_nil

namespace AtTurn

variable (hturn : AtTurn f a settings n h)
include hturn

/-- Loops that have had their turn come before the loop in the order of the pass. -/
theorem later (ha : Analyzed f a) : ∀ r ∈ h.moves.reverse, Cfg.Later a.forest r.loop n := by
  obtain ⟨ks, ms, hpost, hh⟩ := hturn
  intro r hr
  have hpair := ha.postorder_pairwise
  rw [hpost] at hpair
  exact (List.pairwise_append.1 hpair).2.2 r.loop (mem_of_mem_moves hh (List.mem_reverse.1 hr)) n
    List.mem_cons_self

/-- It is reached by legal relocations. -/
theorem trace (ha : Analyzed f a) (hc : f.Coherent) (hw : f.WellFormed) :
    Trace f a settings h.moves.reverse h.function := by
  obtain ⟨ks, ms, hpost, hh⟩ := hturn
  have hks : ∀ k ∈ ks, ∃ l, a.forest.loop? k = some l := by
    intro k hk
    rw [← ha.mem_postorder, hpost]
    exact List.mem_append_left _ hk
  obtain ⟨h', hh', htrace⟩ := exists_processLoops ha hc hw settings hks
  obtain rfl : h = h' := Except.ok.inj (hh.symm.trans hh')
  exact htrace

/-- The loop holds exactly the instructions that it held at first. -/
theorem mem_iff (ha : Analyzed f a) (hc : f.Coherent) (hw : f.WellFormed)
    (hl : a.forest.loop? n = some l) :
    (∃ b, l.contains b = true ∧ x ∈ h.function.instsOf b) ↔
      ∃ b, l.contains b = true ∧ x ∈ f.instsOf b := by
  have htrace := hturn.trace ha hc hw
  have hg := htrace.rearranged ha hc hw
  have hiff : ∀ {b c}, x ∈ f.instsOf b → x ∈ h.function.instsOf c →
      (l.contains c = true ↔ l.contains b = true) := fun {b c} hb hgc =>
    htrace.contains_iff ha hc hw hl (hturn.later ha) ((hc.mem_iff x b).1 hb)
      ((hg.coherent.mem_iff x c).1 hgc)
  constructor
  · rintro ⟨c, hin, hx⟩
    obtain ⟨b, hb⟩ := (hg.placed x).1 ⟨c, hx⟩
    exact ⟨b, (hiff hb hx).1 hin, hb⟩
  · rintro ⟨b, hin, hx⟩
    obtain ⟨c, hgc⟩ := (hg.placed x).2 ⟨b, hx⟩
    exact ⟨c, (hiff hx hgc).2 hin, hgc⟩

end AtTurn

/-- When the turn of a loop has come, its body does to memory what it did at first: the stores and
the calls are the same in any rearrangement, and so are the loads, as they are all still there. -/
theorem AtTurn.ofLoop_eq (hturn : AtTurn f a settings n h) (ha : Analyzed f a) (hc : f.Coherent)
    (hw : f.WellFormed) (hl : a.forest.loop? n = some l) :
    LoopMemory.ofLoop h.function a.slots l = .ofLoop f a.slots l := by
  have hg := (hturn.trace ha hc hw).rearranged ha hc hw
  have hnodup : ∀ {k : Function}, k.Coherent → (k.bodyOf l).Nodup := fun hk =>
    hk.nodup_flatMap (ha.isLoop hl).blocks_nodup
  have hmem : ∀ {k : Function} {q : InstId × Instruction}, q ∈ k.bodyOf l ↔
      (∃ b, l.contains b = true ∧ q.1 ∈ k.instsOf b) ∧ k.inst? q.1 = some q.2 := fun {k q} => by
    simp only [Function.mem_bodyOf_iff, Function.mem_placedIn]
    constructor
    · rintro ⟨b, hb, hq, hinst⟩
      exact ⟨⟨b, hb, hq⟩, hinst⟩
    · rintro ⟨⟨b, hb, hq⟩, hinst⟩
      exact ⟨b, hb, hq, hinst⟩
  have hperm : (h.function.bodyOf l).Perm (f.bodyOf l) := by
    rw [List.perm_ext_iff_of_nodup (hnodup hg.coherent) (hnodup hc)]
    intro q
    rw [hmem, hmem, hturn.mem_iff ha hc hw hl, hg.inst?]
  have hloads : (LoopMemory.ofLoop h.function a.slots l).loads =
      (LoopMemory.ofLoop f a.slots l).loads := (hperm.map _).countP_eq _
  obtain ⟨hstores, hcalls⟩ := hg.ofLoop_eq a.slots l
  exact (LoopMemory.mk.injEq ..).mpr ⟨hloads, hcalls, hstores⟩

/-- In a run over all loops the turn of each of them comes, and the relocations made before it are
the first ones of the run. -/
theorem exists_atTurn (ha : Analyzed f a) (hh : Hoisting.processAll a settings f = .ok h')
    (hl : a.forest.loop? n = some l) :
    ∃ h, AtTurn f a settings n h ∧ h.moves <:+ h'.moves := by
  obtain ⟨ks, ms, hpost⟩ := List.append_of_mem (ha.mem_postorder.2 ⟨l, hl⟩)
  unfold Hoisting.processAll at hh
  rw [hpost, List.foldlM_append] at hh
  cases hks : ks.foldlM (Hoisting.processLoop a settings) { function := f } with
  | error e =>
    rw [hks] at hh
    cases hh
  | ok h =>
    rw [hks] at hh
    refine ⟨h, ⟨ks, ms, hpost, hks⟩, ?_⟩
    refine foldlM_keeps (P := fun _ t => h.moves <:+ t.moves) ?_ (List.suffix_refl _) hh
    intro done k rest t t' _ ht hk
    obtain ⟨l, new, hturn⟩ := exists_turn hk
    rw [hturn.moves]
    exact ht.trans (List.suffix_append new t.moves)

/-! ## The counters of a run -/

/-- A run counts every loop once, by what its body does to memory at first, and every relocation. -/
theorem counters_processAll (ha : Analyzed f a) (hc : f.Coherent) (hw : f.WellFormed)
    (hh : Hoisting.processAll a settings f = .ok h) :
    h.counters = ((a.forest.postorder.filterMap a.forest.loop?).map fun l =>
      Counters.ofTurn (.ofLoop f a.slots l) l).sum + .ofMoves h.moves := by
  let turns (ns : List LoopId) : Counters := ((ns.filterMap a.forest.loop?).map fun l =>
    Counters.ofTurn (.ofLoop f a.slots l) l).sum
  suffices hall : a.forest.postorder.foldlM (Hoisting.processLoop a settings) { function := f } =
      .ok h ∧ h.counters = turns a.forest.postorder + .ofMoves h.moves from hall.2
  refine foldlM_keeps (P := fun done h =>
    done.foldlM (Hoisting.processLoop a settings) { function := f } = .ok h ∧
      h.counters = turns done + .ofMoves h.moves) ?_ ⟨rfl, rfl⟩ hh
  rintro done n rest h h' hpost ⟨hdone, hcount⟩ hn
  obtain ⟨l, new, hturn⟩ := exists_turn hn
  refine ⟨?_, ?_⟩
  · rw [List.foldlM_append, hdone]
    show [n].foldlM (Hoisting.processLoop a settings) h = .ok h'
    rw [List.foldlM_cons, hn]
    rfl
  · -- The loop is counted by what is there when its turn has come, as it was there at first.
    have hat : AtTurn f a settings n h := ⟨done, rest, hpost, hdone⟩
    have hone : turns (done ++ [n]) = turns done + .ofTurn (.ofLoop f a.slots l) l := by
      simp only [turns, List.filterMap_append, List.filterMap_cons, List.filterMap_nil, hturn.loop,
        List.map_append, List.sum_append, List.map_cons, List.map_nil, List.sum_cons,
        List.sum_nil, add_zero]
    have hmoves : Counters.ofMoves h'.moves = .ofMoves new + .ofMoves h.moves := by
      rw [hturn.moves, Counters.ofMoves, List.map_append, List.sum_append]
      rfl
    calc h'.counters
        = turns done + .ofMoves h.moves + .ofTurn (.ofLoop f a.slots l) l + .ofMoves new := by
          rw [hturn.counters, hcount, hat.ofLoop_eq ha hc hw hturn.loop]
      _ = turns done + .ofTurn (.ofLoop f a.slots l) l + (.ofMoves new + .ofMoves h.moves) := by
          abel
      _ = turns (done ++ [n]) + .ofMoves h'.moves := by rw [hone, hmoves]

/-- So the counters of a run show what there is to count in the loops of the forest, and how many
relocations of either kind there were. -/
theorem tally_processAll (ha : Analyzed f a) (hc : f.Coherent) (hw : f.WellFormed)
    (hh : Hoisting.processAll a settings f = .ok h) :
    h.counters = (Tally.ofLoops f (a.forest.postorder.filterMap a.forest.loop?)
      (h.moves.countP fun r => r.kind == .ordinary)
      (h.moves.countP fun r => r.kind == .load)).counters := by
  rw [counters_processAll ha hc hw hh, Tally.counters_ofTurn, Tally.counters_ofMoves f,
    ← Tally.counters_append, List.append_nil, Nat.zero_add, Nat.zero_add]

end LoopHoist
