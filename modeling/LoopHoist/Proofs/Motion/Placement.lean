import LoopHoist.Proofs.Motion.Layout
import LoopHoist.Proofs.Motion.SingleAssignment

/-!
# Where the pass puts what

`Leaves` is the rule of the pass as a least set: an instruction of a loop leaves the loop when its
kind allows it and each operand is given, defined outside the loop, or defined by an instruction
that leaves it. The pass finds exactly this set in one round per loop, on a function that changes
under it (`LoopRound.exists_processLoop`): what inner loops gave up lies in the outer loop exactly
if it was there at first (`Placed.contains_iff`), and in reverse postorder the definition of an
operand is tried before its use (`mem_done_of_available`).

After all loops each instruction is in the preheader of the outermost loop that it leaves
(`exists_processAll_placed`).
-/

namespace LoopHoist

variable {f g : Function} {a : Analysis} {settings : Settings} {slots : StackSlots} {l m : Loop}
  {n k : LoopId} {p q b c : BlockId} {x j : InstId} {v : ValueId} {instr : Instruction}
  {ns : List LoopId}

/-! ## The rule -/

/-- Whether the rule of the pass takes an instruction of `f` out of a loop: the least set that holds
the instructions of the loop whose kind allows it and whose operands are given, defined outside the
loop, or defined by members of the set. -/
inductive Leaves (f : Function) (slots : StackSlots) (settings : Settings) (l : Loop) :
    InstId → Prop where
  /-- An instruction leaves the loop if those do that define its operands inside the loop. -/
  | intro {x : InstId} {b : BlockId} {instr : Instruction} (owner : f.owner? x = some b)
      (inside : l.contains b = true) (content : f.inst? x = some instr)
      (kind : Hoistable f slots settings l instr)
      (known : ∀ v ∈ instr.usedValues, f.Given v ∨
        ∃ j c, f.def? v = some (.inst j) ∧ f.owner? j = some c)
      (operands : ∀ v ∈ instr.usedValues, ∀ j c, f.def? v = some (.inst j) →
        f.owner? j = some c → l.contains c = true → Leaves f slots settings l j) :
      Leaves f slots settings l x

/-- The rule, with the three ways in which an operand may be there before the loop. -/
theorem leaves_iff : Leaves f slots settings l x ↔ ∃ b instr, f.owner? x = some b ∧
    l.contains b = true ∧ f.inst? x = some instr ∧ Hoistable f slots settings l instr ∧
    ∀ v ∈ instr.usedValues, f.Given v ∨ ∃ j, f.def? v = some (.inst j) ∧
      ((∃ c, f.owner? j = some c ∧ l.contains c = false) ∨ Leaves f slots settings l j) := by
  constructor
  · rintro ⟨owner, inside, content, kind, known, operands⟩
    refine ⟨_, _, owner, inside, content, kind, fun v hv => (known v hv).imp_right ?_⟩
    rintro ⟨j, c, hj, hc⟩
    refine ⟨j, hj, ?_⟩
    cases hin : l.contains c with
    | false => exact .inl ⟨c, hc, hin⟩
    | true => exact .inr (operands v hv j c hj hc hin)
  · rintro ⟨b, instr, owner, inside, content, kind, operands⟩
    refine .intro owner inside content kind (fun v hv => (operands v hv).imp_right ?_) ?_
    -- The rule asks two things of an operand: that it has a place, and that inside it leaves too.
    · rintro ⟨j, hj, ⟨c, hc, -⟩ | ⟨hc, -⟩⟩
      · exact ⟨j, c, hj, hc⟩
      · exact ⟨j, _, hj, hc⟩
    · intro v hv j c hj hc hin
      rcases operands v hv with hgiven | ⟨j', hj', hout⟩
      · unfold Function.Given at hgiven
        simp [hj] at hgiven
      · obtain rfl : j = j' := by simpa using hj.symm.trans hj'
        refine hout.resolve_left fun ⟨c', hc', hout⟩ => ?_
        obtain rfl := Option.some.inj (hc.symm.trans hc')
        rw [hin] at hout
        cases hout

/-- What leaves a loop is in it. -/
theorem Leaves.exists_owner (h : Leaves f slots settings l x) :
    ∃ b, f.owner? x = some b ∧ l.contains b = true := by
  obtain ⟨b, -, hb, hin, -⟩ := leaves_iff.1 h
  exact ⟨b, hb, hin⟩

/-- An instruction of a loop leaves it if its kind allows it and all its operands are given. -/
theorem Leaves.of_given (hx : f.owner? x = some b) (hin : l.contains b = true)
    (hinst : f.inst? x = some instr) (hkind : Hoistable f slots settings l instr)
    (hgiven : ∀ v ∈ instr.usedValues, f.Given v) : Leaves f slots settings l x :=
  .intro hx hin hinst hkind (fun v hv => .inl (hgiven v hv)) fun v hv j c hj => by
    rcases hgiven v hv with ⟨k, hk⟩ | ⟨name, hname⟩
    · rw [hk] at hj
      cases hj
    · rw [hname] at hj
      cases hj

/-- Whether an instruction leaves a loop of the forest for its preheader. -/
structure LeavesFor (f : Function) (a : Analysis) (settings : Settings) (x : InstId) (n : LoopId)
    (l : Loop) (p : BlockId) : Prop where
  /-- The loop. -/
  loop : a.forest.loop? n = some l
  /-- Its preheader. -/
  preheader : l.preheader = some p
  /-- The rule takes the instruction out of the loop. -/
  leaves : Leaves f a.slots settings l x

/-- Whether a block is where the rule puts an instruction when the loops of a list are done: the
preheader of the outermost of them that the instruction leaves, or its block at first. -/
def PutAt (f : Function) (a : Analysis) (settings : Settings) (ns : List LoopId) (x : InstId)
    (c : BlockId) : Prop :=
  (∃ n ∈ ns, ∃ l, LeavesFor f a settings x n l c ∧
    ∀ k ∈ ns, ∀ m q, LeavesFor f a settings x k m q → k = n ∨ a.forest.Inside k n) ∨
  (∀ n ∈ ns, ∀ l p, ¬ LeavesFor f a settings x n l p) ∧ f.owner? x = some c

/-- What holds of the function when the loops of a list are done: each instruction is where the rule
puts it. -/
def Placed (f : Function) (a : Analysis) (settings : Settings) (ns : List LoopId) (g : Function) :
    Prop :=
  ∀ x b, f.owner? x = some b → ∃ c, g.owner? x = some c ∧ PutAt f a settings ns x c

/-! ## The candidates of a loop -/

/-- The blocks are in the order of their ranks. -/
theorem Cfg.reversePostorder_pairwise (g : Cfg) :
    g.reversePostorder.Pairwise fun b c => g.rank b < g.rank c := by
  have hn := g.reversePostorder_nodup
  rw [List.pairwise_iff_getElem]
  intro i k hi hk hik
  rw [rank, rank, hn.idxOf_getElem i hi, hn.idxOf_getElem k hk]
  exact hik

/-- An element of a list made of lists is in one of them: before it come the lists before that one,
and what is before it there. -/
theorem exists_split_flatMap {α β : Type} {parts : List α} {inner : α → List β} {us vs : List β}
    {y : β} (h : parts.flatMap inner = us ++ y :: vs) :
    ∃ ps part qs xs ys, parts = ps ++ part :: qs ∧ inner part = xs ++ y :: ys ∧
      us = ps.flatMap inner ++ xs := by
  induction parts generalizing us with
  | nil => simp at h
  | cons part parts ih =>
    rw [List.flatMap_cons] at h
    rcases List.append_eq_append_iff.1 h with ⟨as, rfl, has⟩ | ⟨as, hpart, has⟩
    · obtain ⟨ps, part', qs, xs, ys, rfl, hin, rfl⟩ := ih has
      exact ⟨part :: ps, part', qs, xs, ys, rfl, hin, by simp⟩
    · cases as with
      | nil =>
        have hrest : parts.flatMap inner = [] ++ y :: vs := has.symm
        obtain ⟨ps, part', qs, xs, ys, rfl, hin, hnil⟩ := ih hrest
        refine ⟨part :: ps, part', qs, xs, ys, rfl, hin, ?_⟩
        rw [List.flatMap_cons, List.append_assoc, ← hnil, hpart]
        simp
      | cons z as =>
        obtain ⟨rfl, rfl⟩ := List.cons.inj has
        exact ⟨[], part, parts, us, as, rfl, hpart, by simp⟩

/-- In single-assignment form, an operand of a candidate that is defined in the loop is defined by a
candidate before it. -/
theorem mem_done_of_available (hs : g.SingleAssignment) (ha : Analyzed f a) (hg : f.Rearranged g)
    (hl : a.forest.loop? n = some l) {us vs : List InstId}
    (hsplit : Hoisting.candidates g a.dominators.order l = us ++ x :: vs)
    (hx : g.inst? x = some instr) (hphi : ∀ dst ty ins, instr ≠ .phi dst ty ins)
    (hv : v ∈ instr.usedValues) (hj : g.def? v = some (.inst j)) (hjc : g.owner? j = some c)
    (hin : l.contains c = true) : j ∈ us := by
  obtain ⟨bs, b, cs, xs, ys, hblocks, hlist, rfl⟩ := exists_split_flatMap hsplit
  have hb : b ∈ a.dominators.order.filter l.contains := by rw [hblocks]; simp
  have hreach : (Cfg.ofFunction g).Reachable b := by
    rw [hg.graph]
    exact ha.tree.reachable_of_contains (ha.isLoop hl) (List.mem_filter.1 hb).2
  have havail := hs.uses b xs x ys instr hreach hlist hx hphi v hv
  rcases (Function.available_iff_of_inst hj).1 havail with hmem | ⟨c', hne, hdom, hmem⟩
  · exact List.mem_append_right _ hmem
  · -- The definition is in a dominating block of the loop, which comes before.
    obtain rfl := hg.coherent.eq_of_owner? hjc hmem
    rw [hg.graph] at hdom hreach
    have hlt := Cfg.rank_lt_of_dominates ha.tree.closed hdom hne hreach
    have hc : c ∈ bs ++ b :: cs := by
      rw [← hblocks]
      exact List.mem_filter.2 ⟨ha.tree.mem_order.2 (hdom.reachable hreach), hin⟩
    have hsorted : (bs ++ b :: cs).Pairwise
        fun b c => (Cfg.ofFunction f).rank b < (Cfg.ofFunction f).rank c := by
      rw [← hblocks, ha.tree.order]
      exact (Cfg.reversePostorder_pairwise _).filter _
    have hcb : c ∈ bs := by
      rcases List.mem_append.1 hc with hc | hc
      · exact hc
      · have hc := (List.mem_cons.1 hc).resolve_left hne
        have := (List.pairwise_cons.1 (List.pairwise_append.1 hsorted).2.1).1 c hc
        omega
    exact List.mem_append_left _ (List.mem_flatMap.2 ⟨c, hcb, hmem⟩)

/-! ## The round of one loop -/

/-- What is the same while a loop is gone through: the function `g` when its turn has come. -/
structure LoopRound (f : Function) (a : Analysis) (settings : Settings) (n : LoopId) (l : Loop)
    (p : BlockId) (g : Function) : Prop where
  /-- The analyses are those of the function. -/
  analyzed : Analyzed f a
  /-- The function is coherent. -/
  coherent : f.Coherent
  /-- The function is well-formed. -/
  wellFormed : f.WellFormed
  /-- The loop. -/
  loop : a.forest.loop? n = some l
  /-- Its preheader. -/
  preheader : l.preheader = some p
  /-- What the loops before have left. -/
  rearranged : f.Rearranged g
  /-- It is in single-assignment form. -/
  single : g.SingleAssignment
  /-- What is in the loop is what was in it at first. -/
  contains_iff : ∀ x b c, f.owner? x = some b → g.owner? x = some c →
    (l.contains c = true ↔ l.contains b = true)

/-- What holds when the candidates `us` are done and `xs` are left: the former were moved if the
rule takes them out of the loop, and nothing else was. -/
structure RoundState (f : Function) (a : Analysis) (settings : Settings) (l : Loop) (p : BlockId)
    (g : Function) (us xs : List InstId) (st : Hoisting × LoopState) : Prop where
  /-- The pass is on its way through the loop. -/
  processing : Processing f a settings l p st
  /-- These are all candidates. -/
  split : Hoisting.candidates g a.dominators.order l = us ++ xs
  /-- What was hoisted are the candidates done that leave the loop. -/
  hoisted : ∀ j, j ∈ st.2.hoisted ↔ j ∈ us ∧ Leaves f a.slots settings l j
  /-- They are in the preheader. -/
  moved : ∀ j ∈ us, Leaves f a.slots settings l j → st.1.function.owner? j = some p
  /-- Every other instruction is where it was. -/
  kept : ∀ j, ¬ (j ∈ us ∧ Leaves f a.slots settings l j) →
    st.1.function.owner? j = g.owner? j

namespace RoundState

variable {us xs : List InstId} {st : Hoisting × LoopState}
  (h : RoundState f a settings l p g us (x :: xs) st)
include h

/-- A candidate that the rule leaves in the loop is done as it is. -/
theorem stay (hstay : ¬ Leaves f a.slots settings l x) :
    RoundState f a settings l p g (us ++ [x]) xs st := by
  have hsame : ∀ j, (j ∈ us ++ [x] ∧ Leaves f a.slots settings l j) ↔
      (j ∈ us ∧ Leaves f a.slots settings l j) := fun j => by
    rw [List.mem_append, List.mem_singleton]
    constructor
    · rintro ⟨hj | rfl, hl⟩
      · exact ⟨hj, hl⟩
      · exact absurd hl hstay
    · exact fun ⟨hj, hl⟩ => ⟨.inl hj, hl⟩
  exact {
    processing := h.processing
    split := by rw [h.split, List.append_cons]
    hoisted := fun j => (h.hoisted j).trans (hsame j).symm
    moved := fun j hj hl => h.moved j ((hsame j).1 ⟨hj, hl⟩).1 hl
    kept := fun j hj => h.kept j fun hu => hj ((hsame j).2 hu) }

/-- A candidate that the rule takes out of the loop is done when it is in the preheader. -/
theorem leave (hleaves : Leaves f a.slots settings l x) {h' : Hoisting}
    (howner : ∀ j, h'.function.owner? j = if j = x then some p else st.1.function.owner? j)
    (hproc : Processing f a settings l p (h', st.2.mark x)) :
    RoundState f a settings l p g (us ++ [x]) xs (h', st.2.mark x) := by
  have hmem : ∀ j, j ∈ us ++ [x] ↔ j ∈ us ∨ j = x := fun j => by
    rw [List.mem_append, List.mem_singleton]
  refine ⟨hproc, by rw [h.split, List.append_cons], fun j => ?_, fun j hj hl => ?_, fun j hj => ?_⟩
  · show j ∈ x :: st.2.hoisted ↔ _
    rw [hmem, List.mem_cons, h.hoisted]
    constructor
    · rintro (rfl | ⟨hj, hl⟩)
      · exact ⟨.inr rfl, hleaves⟩
      · exact ⟨.inl hj, hl⟩
    · rintro ⟨hj | rfl, hl⟩
      · exact .inr ⟨hj, hl⟩
      · exact .inl rfl
  · show h'.function.owner? j = some p
    rw [howner]
    split
    · rfl
    · next hjx => exact h.moved j (((hmem j).1 hj).resolve_right hjx) hl
  · have hjx : j ≠ x := by
      rintro rfl
      exact hj ⟨(hmem j).2 (.inr rfl), hleaves⟩
    show h'.function.owner? j = g.owner? j
    rw [howner, if_neg hjx]
    exact h.kept j fun hu => hj ⟨(hmem j).2 (.inl hu.1), hu.2⟩

end RoundState

namespace LoopRound

variable (hr : LoopRound f a settings n l p g)
include hr

/-- An instruction has an owner when the turn of the loop has come if it had one at first. -/
theorem exists_owner_iff : (∃ c, g.owner? j = some c) ↔ ∃ b, f.owner? j = some b := by
  simp only [← hr.rearranged.coherent.mem_iff, ← hr.coherent.mem_iff]
  exact hr.rearranged.placed j

/-- What leaves the loop is a candidate. -/
theorem mem_candidates_of_leaves (h : Leaves f a.slots settings l j) :
    j ∈ Hoisting.candidates g a.dominators.order l := by
  obtain ⟨b, hb, hin⟩ := h.exists_owner
  obtain ⟨c, hc⟩ := hr.exists_owner_iff.2 ⟨b, hb⟩
  rw [mem_candidates hr.analyzed hr.loop hr.rearranged]
  exact ⟨c, hc, (hr.contains_iff j b c hb hc).2 hin⟩

/-- The next candidate is in the loop, and was there at first. -/
theorem exists_owners_of_next {us xs : List InstId} {st : Hoisting × LoopState}
    (h : RoundState f a settings l p g us (x :: xs) st) :
    ∃ b c, f.owner? x = some b ∧ g.owner? x = some c ∧ l.contains b = true ∧
      l.contains c = true := by
  have hx : x ∈ Hoisting.candidates g a.dominators.order l := by rw [h.split]; simp
  obtain ⟨c, hxc, hcin⟩ := (mem_candidates hr.analyzed hr.loop hr.rearranged).1 hx
  obtain ⟨b, hxb⟩ := hr.exists_owner_iff.1 ⟨c, hxc⟩
  exact ⟨b, c, hxb, hxc, (hr.contains_iff x b c hxb hxc).1 hcin, hcin⟩

/-- When its turn has come, a candidate is accepted exactly if the rule takes it out of the loop. -/
theorem accepted_iff {us xs : List InstId} {st : Hoisting × LoopState}
    (h : RoundState f a settings l p g us (x :: xs) st) :
    (∃ instr, Accepted f a settings l st x instr) ↔ Leaves f a.slots settings l x := by
  have hcur := h.processing.trace.rearranged hr.analyzed hr.coherent hr.wellFormed
  obtain ⟨b, c, hxb, hxc, hbin, -⟩ := hr.exists_owners_of_next h
  constructor
  · rintro ⟨instr, hacc⟩
    have hinst : f.inst? x = some instr := by rw [← hcur.inst?]; exact hacc.content
    refine leaves_iff.2 ⟨b, instr, hxb, hbin, hinst, hacc.hoistable, fun v hv => ?_⟩
    refine (LoopState.invariantValue_iff.1 (hacc.invariant v hv)).imp hcur.given_iff.1 ?_
    rintro ⟨j, hj, hwhere⟩
    rw [hcur.def?] at hj
    refine ⟨j, hj, ?_⟩
    by_cases hdone : j ∈ us ∧ Leaves f a.slots settings l j
    · exact .inr hdone.2
    · rcases hwhere with hmem | ⟨d, hjd, hout⟩
      · exact .inr ((h.hoisted j).1 hmem).2
      · -- It is outside the loop and was not moved, so it was there at first.
        rw [h.kept j hdone] at hjd
        obtain ⟨e, hje⟩ := hr.exists_owner_iff.1 ⟨d, hjd⟩
        refine .inl ⟨e, hje, ?_⟩
        rw [h.processing.loop] at hout
        rw [Bool.eq_false_iff, Ne, ← hr.contains_iff j e d hje hjd, hout]
        exact Bool.false_ne_true
  · intro hleaves
    obtain ⟨b', instr, hxb', -, hinst, hkind, hops⟩ := leaves_iff.1 hleaves
    refine ⟨instr, by rw [hcur.inst?]; exact hinst, hkind, fun v hv => ?_⟩
    rw [LoopState.invariantValue_iff, h.processing.loop]
    refine (hops v hv).imp hcur.given_iff.2 ?_
    rintro ⟨j, hj, hwhere⟩
    refine ⟨j, by rw [hcur.def?]; exact hj, ?_⟩
    obtain ⟨e, hje⟩ : ∃ e, f.owner? j = some e := hwhere.elim (fun ⟨e, he, _⟩ => ⟨e, he⟩)
      fun hjl => ⟨_, hjl.exists_owner.choose_spec.1⟩
    obtain ⟨d, hjd⟩ := hr.exists_owner_iff.2 ⟨e, hje⟩
    by_cases hjl : Leaves f a.slots settings l j
    · -- In the loop the definition comes first, so it was tried and has left.
      obtain ⟨e', hje', hein⟩ := hjl.exists_owner
      have hdin := (hr.contains_iff j e' d hje' hjd).2 hein
      have hmem := mem_done_of_available hr.single hr.analyzed hr.rearranged hr.loop h.split
        (by rw [hr.rearranged.inst?]; exact hinst) (exists_def_of_movable hkind.movable).2.1 hv
        (by rw [hr.rearranged.def?]; exact hj) hjd hdin
      exact .inl ((h.hoisted j).2 ⟨hmem, hjl⟩)
    · obtain ⟨e', hje', hout⟩ := hwhere.resolve_right hjl
      refine .inr ⟨d, by rw [h.kept j fun h => hjl h.2]; exact hjd, ?_⟩
      rw [Bool.eq_false_iff, Ne, hr.contains_iff j e' d hje' hjd, hout]
      exact Bool.false_ne_true

/-- One candidate is done. -/
theorem exists_tryHoist {us xs : List InstId} {st : Hoisting × LoopState}
    (h : RoundState f a settings l p g us (x :: xs) st) :
    ∃ st', Hoisting.tryHoist n p st x = .ok st' ∧
      RoundState f a settings l p g (us ++ [x]) xs st' := by
  have hcur := h.processing.trace.rearranged hr.analyzed hr.coherent hr.wellFormed
  obtain ⟨b, c, hxb, hxc, hbin, hcin⟩ := hr.exists_owners_of_next h
  -- No candidate comes twice, so `x` is still where the round found it.
  have hnew : x ∉ us := fun hu => by
    have hnd := candidates_nodup (l := l) hr.analyzed hr.rearranged
    rw [h.split] at hnd
    exact (List.nodup_append.1 hnd).2.2 x hu x List.mem_cons_self rfl
  have hnow : st.1.function.owner? x = some c := by
    rw [h.kept x fun hu => hnew hu.1]
    exact hxc
  rcases h.processing.tryHoist_cases hr.analyzed hr.coherent hr.wellFormed hr.loop hr.preheader
    hnow hcin with ⟨heq, hrej⟩ | ⟨instr, kind, h', hacc, heq, -, hlegal, hproc⟩
  · refine ⟨st, heq, h.stay fun hleaves => ?_⟩
    obtain ⟨instr, hacc⟩ := (hr.accepted_iff h).2 hleaves
    exact hrej instr hacc
  · obtain ⟨_, _, _, _, hrel⟩ := hlegal.exists_relocates hr.analyzed hcur
    refine ⟨_, heq, h.leave ((hr.accepted_iff h).1 ⟨instr, hacc⟩) (fun j => ?_) hproc⟩
    rw [hrel.eq, Function.owner?_relocate]
    split
    · next hjx => rw [hjx, hnow, Option.map_some]
    · rfl

/-- One round moves what the rule takes out of the loop to the preheader, and nothing else. -/
theorem exists_processLoop {h : Hoisting} (hfun : h.function = g)
    (htrace : Trace f a settings h.moves.reverse h.function) :
    ∃ h', Hoisting.processLoop a settings h n = .ok h' ∧
      Trace f a settings h'.moves.reverse h'.function ∧
      (∀ j, Leaves f a.slots settings l j → h'.function.owner? j = some p) ∧
      ∀ j, ¬ Leaves f a.slots settings l j → h'.function.owner? j = g.owner? j := by
  obtain ⟨st, hst, us, hround⟩ := foldlM_ok (Hoisting.tryHoist n p)
    (fun xs st => ∃ us, RoundState f a settings l p g us xs st)
    (fun x xs st hst => by
      obtain ⟨us, h⟩ := hst
      obtain ⟨st', hst', h'⟩ := hr.exists_tryHoist h
      exact ⟨st', hst', _, h'⟩)
    (Hoisting.candidates h.function a.dominators.order l)
    ({ h with counters := h.counters + .ofLoop (.ofLoop h.function a.slots l) },
      LoopState.start h.function a.slots settings l)
    ⟨[], .start htrace (hfun ▸ hr.rearranged) _, by rw [hfun]; rfl,
      fun j => ⟨fun hj => absurd hj List.not_mem_nil, fun hj => absurd hj.1 List.not_mem_nil⟩,
      fun j hj => absurd hj List.not_mem_nil, fun j _ => by rw [← hfun]⟩
  -- At the end all candidates are done, and what leaves the loop is one of them.
  have hall : ∀ j, Leaves f a.slots settings l j → j ∈ us := fun j hj => by
    have := hr.mem_candidates_of_leaves hj
    rw [hround.split, List.append_nil] at this
    exact this
  refine ⟨st.1, ?_, hround.processing.trace,
    fun j hj => hround.moved j (hall j hj) hj, fun j hj => hround.kept j fun h => hj h.2⟩
  rw [processLoop_of_preheader hr.analyzed hr.loop (hfun ▸ hr.rearranged) hr.preheader, hst]
  rfl

end LoopRound

/-! ## All loops -/

/-- When the loops of a list are done, an instruction is in the preheader of the outermost of them
that it leaves, and was in that loop at first, or it leaves none of them and is in its old block. -/
theorem Placed.owner_cases (h : Placed f a settings ns g) (hb : f.owner? x = some b)
    (hc : g.owner? x = some c) :
    (∃ n ∈ ns, ∃ l, LeavesFor f a settings x n l c ∧ l.contains b = true ∧
      ∀ k ∈ ns, ∀ m q, LeavesFor f a settings x k m q → k = n ∨ a.forest.Inside k n) ∨
    c = b ∧ ∀ n ∈ ns, ∀ l p, ¬ LeavesFor f a settings x n l p := by
  obtain ⟨c', hc', hput⟩ := h x b hb
  obtain rfl := Option.some.inj (hc.symm.trans hc')
  rcases hput with ⟨n, hn, l, hleave, hout⟩ | ⟨hno, hbc⟩
  · obtain ⟨b', hb', hin⟩ := hleave.leaves.exists_owner
    obtain rfl := Option.some.inj (hb.symm.trans hb')
    exact .inl ⟨n, hn, l, hleave, hin, hout⟩
  · exact .inr ⟨Option.some.inj (hbc.symm.trans hb), hno⟩

/-- When the turn of a loop comes, what lies in it is what lay in it at first: what a loop before it
gave up went to a preheader that is in it exactly if that loop is. -/
theorem Placed.contains_iff (h : Placed f a settings ns g) (ha : Analyzed f a)
    (hl : a.forest.loop? n = some l) (hns : ∀ k ∈ ns, Cfg.Later a.forest k n)
    (hb : f.owner? x = some b) (hc : g.owner? x = some c) :
    l.contains c = true ↔ l.contains b = true := by
  rcases h.owner_cases hb hc with ⟨k, hk, m, hleave, hin, -⟩ | ⟨rfl, -⟩
  · exact ha.contains_preheader_iff_of_later hleave.loop hleave.preheader hin hl (hns k hk)
  · exact Iff.rfl

/-- What the rule puts where it was before a loop, it leaves there if the instruction does not leave
the loop. -/
theorem PutAt.append (h : PutAt f a settings ns x c)
    (hn : ∀ l p, ¬ LeavesFor f a settings x n l p) : PutAt f a settings (ns ++ [n]) x c := by
  have hmem : ∀ k, k ∈ ns ++ [n] → k ∈ ns ∨ k = n := fun k hk => by
    rwa [List.mem_append, List.mem_singleton] at hk
  rcases h with ⟨k, hk, m, hleave, hout⟩ | ⟨hno, hc⟩
  · refine .inl ⟨k, List.mem_append_left _ hk, m, hleave, fun k' hk' m' q hleave' => ?_⟩
    rcases hmem k' hk' with hk' | rfl
    · exact hout k' hk' m' q hleave'
    · exact absurd hleave' (hn m' q)
  · refine .inr ⟨fun k hk m q hleave => ?_, hc⟩
    rcases hmem k hk with hk | rfl
    · exact hno k hk m q hleave
    · exact hn m q hleave

/-- What leaves a loop is put into its preheader, as no loop before it lies around it. -/
theorem LeavesFor.putAt (h : LeavesFor f a settings x n l p) (ha : Analyzed f a)
    (hns : ∀ k ∈ ns, Cfg.Later a.forest k n) : PutAt f a settings (ns ++ [n]) x p := by
  refine .inl ⟨n, by simp, l, h, fun k hk m q hleave => ?_⟩
  rcases List.mem_append.1 hk with hk | hk
  · -- Both loops hold the block of the instruction, so one lies inside the other.
    obtain ⟨b, hb, hin⟩ := h.leaves.exists_owner
    obtain ⟨b', hb', hin'⟩ := hleave.leaves.exists_owner
    obtain rfl := Option.some.inj (hb.symm.trans hb')
    rcases ha.comparable hleave.loop h.loop hin' hin with heq | hkn | hnk
    · exact .inl heq
    · exact .inr hkn
    · exact absurd hnk (hns k hk).2
  · exact .inl (List.mem_singleton.1 hk)

/-- When everything is placed by the loops before it, the turn of a loop has come. -/
theorem LoopRound.of_placed (ha : Analyzed f a) (hc : f.Coherent) (hw : f.WellFormed)
    (hs : f.SingleAssignment) (hl : a.forest.loop? n = some l) (hp : l.preheader = some p)
    (hns : ∀ k ∈ ns, Cfg.Later a.forest k n) {rs : List Relocation}
    (htrace : Trace f a settings rs g) (hplaced : Placed f a settings ns g) :
    LoopRound f a settings n l p g where
  analyzed := ha
  coherent := hc
  wellFormed := hw
  loop := hl
  preheader := hp
  rearranged := htrace.rearranged ha hc hw
  single := htrace.singleAssignment ha hc hw hs
  contains_iff _ _ _ hb hc := hplaced.contains_iff ha hl hns hb hc

/-- One more loop is done. -/
theorem exists_processLoop_placed (ha : Analyzed f a) (hc : f.Coherent) (hw : f.WellFormed)
    (hs : f.SingleAssignment) (hl : a.forest.loop? n = some l)
    (hns : ∀ k ∈ ns, Cfg.Later a.forest k n) {h : Hoisting}
    (htrace : Trace f a settings h.moves.reverse h.function)
    (hplaced : Placed f a settings ns h.function) :
    ∃ h', Hoisting.processLoop a settings h n = .ok h' ∧
      Trace f a settings h'.moves.reverse h'.function ∧
      Placed f a settings (ns ++ [n]) h'.function := by
  have hleave : ∀ {x l' p}, LeavesFor f a settings x n l' p → l' = l := fun hx =>
    Option.some.inj (hx.loop.symm.trans hl)
  cases hp : l.preheader with
  | none =>
    -- Without a preheader nothing leaves the loop.
    have hg := htrace.rearranged ha hc hw
    refine ⟨_, processLoop_of_noPreheader ha hl hg hp, htrace, fun x b hb => ?_⟩
    obtain ⟨c, hc, hput⟩ := hplaced x b hb
    refine ⟨c, hc, hput.append fun l' p hx => ?_⟩
    have := hx.preheader
    rw [hleave hx, hp] at this
    cases this
  | some p =>
    have hround := LoopRound.of_placed ha hc hw hs hl hp hns htrace hplaced
    obtain ⟨h', hh', htrace', hmoved, hkept⟩ := hround.exists_processLoop rfl htrace
    refine ⟨h', hh', htrace', fun x b hb => ?_⟩
    by_cases hx : Leaves f a.slots settings l x
    · exact ⟨p, hmoved x hx, LeavesFor.putAt ⟨hl, hp, hx⟩ ha hns⟩
    · obtain ⟨c, hc, hput⟩ := hplaced x b hb
      refine ⟨c, by rw [hkept x hx]; exact hc, hput.append fun l' p' hx' => hx ?_⟩
      rw [← hleave hx']
      exact hx'.leaves

/-- When all loops are done, each instruction is where the rule puts it; and so is at each turn what
the loops before it leave, so whatever else the turns keep then holds as well. -/
theorem exists_processAll_keeps (ha : Analyzed f a) (hc : f.Coherent) (hw : f.WellFormed)
    (hs : f.SingleAssignment) (settings : Settings) {P : List LoopId → Hoisting → Prop}
    (hstart : P [] { function := f })
    (hstep : ∀ ns n l h h', a.forest.loop? n = some l → (∀ k ∈ ns, Cfg.Later a.forest k n) →
      Trace f a settings h.moves.reverse h.function → Placed f a settings ns h.function →
      P ns h → Hoisting.processLoop a settings h n = .ok h' → P (ns ++ [n]) h') :
    ∃ h, Hoisting.processAll a settings f = .ok h ∧
      Trace f a settings h.moves.reverse h.function ∧
      Placed f a settings a.forest.postorder h.function ∧ P a.forest.postorder h := by
  have hlater := ha.postorder_pairwise
  -- The invariant names the loops that are done, `ns`; postorder has those inside `n` among them.
  obtain ⟨h, hh, ns, hns, htrace, hplaced, hkept⟩ := foldlM_ok (Hoisting.processLoop a settings)
    (fun ks h => ∃ ns, a.forest.postorder = ns ++ ks ∧
      Trace f a settings h.moves.reverse h.function ∧ Placed f a settings ns h.function ∧ P ns h)
    (fun n ks h ⟨ns, hns, htrace, hplaced, hkept⟩ => by
      have hmem : n ∈ a.forest.postorder := by rw [hns]; simp
      obtain ⟨l, hl⟩ := ha.mem_postorder.1 hmem
      rw [hns] at hlater
      have hn : ∀ k ∈ ns, Cfg.Later a.forest k n := fun k hk =>
        (List.pairwise_append.1 hlater).2.2 k hk n List.mem_cons_self
      obtain ⟨h', hh', htrace', hplaced'⟩ :=
        exists_processLoop_placed ha hc hw hs hl hn htrace hplaced
      exact ⟨h', hh', ns ++ [n], by rw [hns, List.append_assoc]; rfl, htrace', hplaced',
        hstep ns n l h h' hl hn htrace hplaced hkept hh'⟩)
    a.forest.postorder { function := f }
    ⟨[], rfl, .start, fun x b hb => ⟨b, hb, .inr ⟨fun _ hn => absurd hn List.not_mem_nil, hb⟩⟩,
      hstart⟩
  rw [List.append_nil] at hns
  exact ⟨h, hh, htrace, hns ▸ hplaced, hns ▸ hkept⟩

/-- When all loops are done, each instruction is where the rule puts it. -/
theorem exists_processAll_placed (ha : Analyzed f a) (hc : f.Coherent) (hw : f.WellFormed)
    (hs : f.SingleAssignment) (settings : Settings) :
    ∃ h, Hoisting.processAll a settings f = .ok h ∧
      Trace f a settings h.moves.reverse h.function ∧
      Placed f a settings a.forest.postorder h.function := by
  obtain ⟨h, hh, htrace, hplaced, -⟩ := exists_processAll_keeps (P := fun _ _ => True) ha hc hw hs
    settings trivial fun _ _ _ _ _ _ _ _ _ _ _ => trivial
  exact ⟨h, hh, htrace, hplaced⟩

/-- The pass does exactly what its rule says. On a well-formed function in single-assignment form an
active pass succeeds, and after it each instruction that leaves some loop with a preheader is in the
preheader of the outermost such loop, and every other instruction is in its old block. -/
theorem hoistInvariants_placement (f : Function) (hb : f.Built) (hv : f.validate = .ok ())
    (hs : f.SingleAssignment) (settings : Settings) (hactive : settings.isActive = true) :
    ∃ a r counters, f.analyze = .ok a ∧ f.hoistInvariants settings = .ok r ∧
      r.result = .ok counters ∧ ∀ x b, x ∈ f.instsOf b →
        (∃ n l p, LeavesFor f a settings x n l p ∧
          (∀ k m q, LeavesFor f a settings x k m q → k = n ∨ a.forest.Inside k n) ∧
          x ∈ r.function.instsOf p) ∨
        (∀ n l p, ¬ LeavesFor f a settings x n l p) ∧ x ∈ r.function.instsOf b := by
  have hw := Function.violation?_eq_none_iff.1 (Function.validate_eq_ok_iff.1 hv)
  have hc := hb.coherent
  obtain ⟨a, hanalyze, ha⟩ := exists_analyze hw
  obtain ⟨h, hh, htrace, hplaced⟩ := exists_processAll_placed ha hc hw hs settings
  have hg := htrace.rearranged ha hc hw
  refine ⟨a, _, _, hanalyze, Function.hoistInvariants_eq hactive hw hanalyze hh hg.wellFormed, rfl,
    fun x b hx => ?_⟩
  have hall : ∀ {k m q}, LeavesFor f a settings x k m q → k ∈ a.forest.postorder :=
    fun hleave => ha.mem_postorder.2 ⟨_, hleave.loop⟩
  obtain ⟨c, hxc, hput⟩ := hplaced x b ((hc.mem_iff x b).1 hx)
  have hmem := (hg.coherent.mem_iff x c).2 hxc
  rcases hput with ⟨n, hn, l, hleave, hout⟩ | ⟨hno, hbc⟩
  · exact .inl ⟨n, l, c, hleave, fun k m q hk => hout k (hall hk) m q hk, hmem⟩
  · obtain rfl := hc.eq_of_owner? hbc hx
    exact .inr ⟨fun n l p hleave => hno n (hall hleave) l p hleave, hmem⟩

/-! ## What leaves two nested loops -/

/-- The cascade is in single-assignment form. -/
theorem singleAssignment_cascade : cascade.SingleAssignment :=
  .of_local (by decide) (by decide) (by decide)

/-- The outer loop of the cascade. -/
def cascadeOuter : Loop :=
  { header := ⟨1⟩, latches := [⟨4⟩], blocks := [⟨1⟩, ⟨2⟩, ⟨3⟩, ⟨4⟩], exits := [⟨5⟩],
    preheader := some ⟨0⟩ }

/-- The inner loop of the cascade. -/
def cascadeInner : Loop :=
  { header := ⟨3⟩, latches := [⟨3⟩], blocks := [⟨3⟩], exits := [⟨4⟩], preheader := some ⟨2⟩ }

/-- The cascade has these two loops. -/
theorem loop?_cascade (ha : cascade.analyze = .ok a) : a.forest.loop? n = some l ↔
    n = ⟨0⟩ ∧ l = cascadeOuter ∨ n = ⟨1⟩ ∧ l = cascadeInner := by
  have hloops : cascade.analyze.map (·.forest.loops) = .ok [cascadeOuter, cascadeInner] := by
    decide +kernel
  rw [ha] at hloops
  rw [LoopForest.loop?, show a.forest.loops = [cascadeOuter, cascadeInner] from
    Except.ok.inj hloops]
  obtain ⟨_ | _ | n⟩ := n <;> simp [eq_comm]

/-- The outer loop of the cascade is inside no loop. -/
theorem not_inside_cascade (ha : cascade.analyze = .ok a) : ¬ a.forest.Inside ⟨0⟩ n := by
  rintro ⟨l, m, hl, hm, hin⟩
  obtain ⟨-, rfl⟩ | ⟨hno, -⟩ := (loop?_cascade ha).1 hl
  · obtain ⟨-, rfl⟩ | ⟨-, rfl⟩ := (loop?_cascade ha).1 hm
    · exact absurd hin (by decide)
    · exact absurd hin (by decide)
  · cases hno

/-- The square of the cascade leaves both loops. -/
theorem leavesFor_square_cascade (ha : cascade.analyze = .ok a) :
    LeavesFor cascade a {} ⟨3⟩ ⟨0⟩ cascadeOuter ⟨0⟩ ∧
      LeavesFor cascade a {} ⟨3⟩ ⟨1⟩ cascadeInner ⟨2⟩ := by
  have hinst : cascade.inst? ⟨3⟩ =
      some (.compute ⟨2⟩ (.int .mul .i64 (.value ⟨0⟩) (.value ⟨0⟩))) := rfl
  have hleaves {l : Loop} (hl : l.contains ⟨3⟩ = true) : Leaves cascade a.slots {} l ⟨3⟩ :=
    .of_given rfl hl hinst (.inl rfl) (by decide)
  exact ⟨⟨(loop?_cascade ha).2 (.inl ⟨rfl, rfl⟩), rfl, hleaves rfl⟩,
    ⟨(loop?_cascade ha).2 (.inr ⟨rfl, rfl⟩), rfl, hleaves rfl⟩⟩

/-- The load of the cascade leaves the inner loop only, as the outer one stores to the global. -/
theorem leavesFor_load_cascade (ha : cascade.analyze = .ok a) :
    LeavesFor cascade a {} ⟨5⟩ ⟨1⟩ cascadeInner ⟨2⟩ ∧
      ∀ l p, ¬ LeavesFor cascade a {} ⟨5⟩ ⟨0⟩ l p := by
  have hinst : cascade.inst? ⟨5⟩ = some (.load ⟨4⟩ .i64 (.value ⟨1⟩) {}) := rfl
  have hsafe : cascade.analyze.map (fun a =>
      ((LoopState.start cascade a.slots {} cascadeInner).loadIsSafe cascade (.value ⟨1⟩),
        (LoopState.start cascade a.slots {} cascadeOuter).loadIsSafe cascade (.value ⟨1⟩))) =
      .ok (true, false) := by
    decide +kernel
  rw [ha] at hsafe
  obtain ⟨hinner, houter⟩ := Prod.mk.inj (Except.ok.inj hsafe)
  refine ⟨⟨(loop?_cascade ha).2 (.inr ⟨rfl, rfl⟩), rfl, .of_given rfl rfl hinst
    (.inr ⟨_, _, _, _, rfl, rfl, rfl, hinner⟩) (by decide)⟩, ?_⟩
  rintro l p ⟨hl, -, hleaves⟩
  obtain ⟨-, rfl⟩ | ⟨hno, -⟩ := (loop?_cascade ha).1 hl
  · obtain ⟨-, -, hcontent, hkind, -, -⟩ := hleaves
    obtain rfl := Option.some.inj (hinst.symm.trans hcontent)
    rcases hkind with hord | ⟨_, _, _, _, heq, -, -, hload⟩
    · cases hord
    · cases heq
      rw [houter] at hload
      cases hload
  · cases hno

/-- The division of the cascade leaves no loop, as it may trap. -/
theorem not_leavesFor_division_cascade : ¬ LeavesFor cascade a {} ⟨4⟩ n l p := by
  have hinst : cascade.inst? ⟨4⟩ =
      some (.compute ⟨3⟩ (.int .sdiv .i64 (.value ⟨0⟩) (.value ⟨2⟩))) := rfl
  rintro ⟨-, -, -, -, hcontent, hkind, -, -⟩
  obtain rfl := Option.some.inj (hinst.symm.trans hcontent)
  rcases hkind with hord | ⟨_, _, _, _, heq, -⟩
  · cases hord
  · cases heq

/-- The square of the cascade leaves both loops and is in the preheader of the outer one, the load
leaves the inner loop alone and is in the preheader of that one, and the division is where it was. -/
theorem hoistInvariants_placement_cascade :
    ∃ a r, cascade.analyze = .ok a ∧ cascade.hoistInvariants {} = .ok r ∧
      (LeavesFor cascade a {} ⟨3⟩ ⟨0⟩ cascadeOuter ⟨0⟩ ∧
        LeavesFor cascade a {} ⟨3⟩ ⟨1⟩ cascadeInner ⟨2⟩) ∧
      ⟨3⟩ ∈ r.function.instsOf ⟨0⟩ ∧
      (LeavesFor cascade a {} ⟨5⟩ ⟨1⟩ cascadeInner ⟨2⟩ ∧
        ∀ l p, ¬ LeavesFor cascade a {} ⟨5⟩ ⟨0⟩ l p) ∧
      ⟨5⟩ ∈ r.function.instsOf ⟨2⟩ ∧
      (∀ n l p, ¬ LeavesFor cascade a {} ⟨4⟩ n l p) ∧ ⟨4⟩ ∈ r.function.instsOf ⟨3⟩ := by
  obtain ⟨a, r, -, ha, hr, -, hplaced⟩ := hoistInvariants_placement cascade built_cascade
    validate_cascade singleAssignment_cascade {} (by decide)
  have hsquare := leavesFor_square_cascade ha
  have hload := leavesFor_load_cascade ha
  refine ⟨a, r, ha, hr, hsquare, ?_, hload, ?_, fun n l p => not_leavesFor_division_cascade, ?_⟩
  · rcases hplaced ⟨3⟩ ⟨3⟩ (by decide) with ⟨n, l, p, hleave, hout, hmem⟩ | ⟨hno, -⟩
    · -- The outermost loop that the square leaves is the outer one.
      obtain rfl := (hout _ _ _ hsquare.1).resolve_right (not_inside_cascade ha)
      obtain rfl := Option.some.inj (hleave.loop.symm.trans hsquare.1.loop)
      obtain rfl := Option.some.inj (hleave.preheader.symm.trans hsquare.1.preheader)
      exact hmem
    · exact absurd hsquare.1 (hno _ _ _)
  · rcases hplaced ⟨5⟩ ⟨3⟩ (by decide) with ⟨n, l, p, hleave, -, hmem⟩ | ⟨hno, -⟩
    · obtain ⟨rfl, -⟩ | ⟨rfl, rfl⟩ := (loop?_cascade ha).1 hleave.loop
      · exact absurd hleave (hload.2 l p)
      · obtain rfl := Option.some.inj (hleave.preheader.symm.trans hload.1.preheader)
        exact hmem
    · exact absurd hload.1 (hno _ _ _)
  · rcases hplaced ⟨4⟩ ⟨3⟩ (by decide) with ⟨n, l, p, hleave, -⟩ | ⟨-, hmem⟩
    · exact absurd hleave not_leavesFor_division_cascade
    · exact hmem

end LoopHoist
