import LoopHoist.Proofs.Flow.Preheaders
import LoopHoist.Proofs.Motion.Trace

/-!
# Where instructions go

A relocation takes an instruction from a block of a loop to the preheader of the loop, and a
preheader lies in exactly the loops around its loop. So wherever a run has taken an instruction, it
is now in the preheader of a loop around the block where it was at first (`Trace.owner_cases`). It
has gone up in the order of dominance (`Lifts.dominates`), and a loop whose turn is still to come
holds what it held at first, as all that left a loop before it stayed inside or outside
(`Trace.contains_iff`). Nothing here asks for single assignment: where an instruction may go does
not depend on why it was accepted.
-/

namespace LoopHoist

variable {f g : Function} {a : Analysis} {settings : Settings} {l m : Loop} {n k : LoopId}
  {p b c : BlockId} {r : Relocation} {rs : List Relocation} {x : InstId}

/-! ## Preheaders and the loops around -/

namespace Analyzed

variable (ha : Analyzed f a)
include ha

/-- The preheader of a loop is in exactly the loops that the loop lies inside. -/
theorem contains_preheader_iff (hm : a.forest.loop? k = some m) (hp : m.preheader = some p)
    (hl : a.forest.loop? n = some l) : l.contains p = true ↔ a.forest.Inside k n := by
  rw [ha.forest] at hm hl ⊢
  rw [ha.tree.contains_preheader_iff hm hp hl]
  constructor
  · intro henc
    exact ⟨m, l, hm, hl, henc⟩
  · rintro ⟨m', l', hm', hl', henc⟩
    obtain rfl := Option.some.inj (hm.symm.trans hm')
    obtain rfl := Option.some.inj (hl.symm.trans hl')
    exact henc

/-- A loop contains what a loop inside it contains. -/
theorem contains_of_inside (hm : a.forest.loop? k = some m) (hl : a.forest.loop? n = some l)
    (hkn : a.forest.Inside k n) (hb : m.contains b = true) : l.contains b = true := by
  rw [ha.contains_iff hm] at hb
  rw [ha.contains_iff hl]
  rw [ha.forest] at hm hl hkn
  obtain ⟨hin, -⟩ := (ha.tree.inside_iff hm hl).1 hkn
  exact hin.trans hb (ha.tree.reachable_header hm)

/-- Two loops with a common block are one, or one lies inside the other. -/
theorem comparable (hm : a.forest.loop? k = some m) (hl : a.forest.loop? n = some l)
    (hbm : m.contains b = true) (hbl : l.contains b = true) :
    k = n ∨ a.forest.Inside k n ∨ a.forest.Inside n k := by
  rw [ha.contains_iff hm] at hbm
  rw [ha.contains_iff hl] at hbl
  rw [ha.forest] at hm hl ⊢
  exact ha.tree.comparable_of_inBody hm hl hbm hbl

/-- A loop that contains the preheader of another one contains what the other one contains. -/
theorem contains_of_contains_preheader (hm : a.forest.loop? k = some m)
    (hp : m.preheader = some p) (hb : m.contains b = true) (hl : a.forest.loop? n = some l)
    (hin : l.contains p = true) : l.contains b = true := by
  have hkn := (ha.contains_preheader_iff hm hp hl).1 hin
  exact ha.contains_of_inside hm hl hkn hb

/-- When a loop comes before another one, its preheader is in the other exactly if its blocks are:
a loop inside gives its instructions up to a block of the outer loop, a loop beside it to a block
beside. -/
theorem contains_preheader_iff_of_later (hm : a.forest.loop? k = some m)
    (hp : m.preheader = some p) (hb : m.contains b = true) (hl : a.forest.loop? n = some l)
    (hkn : Cfg.Later a.forest k n) : l.contains p = true ↔ l.contains b = true := by
  constructor
  · exact ha.contains_of_contains_preheader hm hp hb hl
  · intro hbl
    rcases ha.comparable hm hl hb hbl with heq | hin | hout
    · exact absurd heq hkn.1
    · exact (ha.contains_preheader_iff hm hp hl).2 hin
    · exact absurd hout hkn.2

end Analyzed

/-! ## Lifted instructions -/

/-- Whether a relocation took an instruction, which was in `b` at first, to `c`: the preheader of a
loop around `b`. -/
structure Lifts (a : Analysis) (r : Relocation) (l : Loop) (x : InstId) (b c : BlockId) : Prop where
  /-- It moved the instruction. -/
  inst : r.inst = x
  /-- It moved it there. -/
  target : r.preheader = c
  /-- The loop that it took the instruction out of. -/
  loop : a.forest.loop? r.loop = some l
  /-- The block is the preheader of the loop. -/
  preheader : l.preheader = some c
  /-- The instruction was in the loop at first. -/
  inside : l.contains b = true

/-- A lifted instruction is in another block than at first, which is reachable, and dominates the
old one. -/
theorem Lifts.dominates (h : Lifts a r l x b c) (ha : Analyzed f a) :
    c ≠ b ∧ (Cfg.ofFunction f).Reachable b ∧ (Cfg.ofFunction f).Reachable c ∧
      (Cfg.ofFunction f).Dominates c b := by
  obtain ⟨hgate, hreach⟩ := ha.isGate h.loop h.preheader
  have hin := (ha.contains_iff h.loop).1 h.inside
  exact ⟨hgate.ne_of_inBody hin, ha.tree.reachable_of_contains (ha.isLoop h.loop) h.inside, hreach,
    hgate.dominates_body hin⟩

/-- In a run, every instruction is in its old block, and no relocation moved it, or a relocation
lifted it to where it is. -/
theorem Trace.owner_cases (h : Trace f a settings rs g) (ha : Analyzed f a) (hc : f.Coherent)
    (hw : f.WellFormed) (hb : f.owner? x = some b) :
    ∃ c, g.owner? x = some c ∧
      (c = b ∧ (∀ r ∈ rs, r.inst ≠ x) ∨ ∃ r ∈ rs, ∃ l, Lifts a r l x b c) := by
  induction h with
  | start => exact ⟨b, hb, .inl ⟨rfl, fun r hr => absurd hr List.not_mem_nil⟩⟩
  | @step rs g r g' l src instr htrace hr ih =>
    obtain ⟨c, hgc, hcase⟩ := ih
    obtain ⟨_, _, _, _, hrel⟩ := hr.exists_relocates ha (htrace.rearranged ha hc hw)
    have howner : g'.owner? x =
        if x = r.inst then (g.owner? x).map fun _ => r.preheader else g.owner? x := by
      simp [hrel.eq]
    have hlast : r ∈ rs ++ [r] := List.mem_append_right _ List.mem_cons_self
    by_cases hx : x = r.inst
    · -- It goes from where it is, a block of the loop, to the preheader.
      subst hx
      obtain rfl : c = src := Option.some.inj (hgc.symm.trans hr.owner)
      refine ⟨r.preheader, by rw [howner, if_pos rfl, hgc]; rfl, .inr ⟨r, hlast, l, ?_⟩⟩
      refine ⟨rfl, rfl, hr.loop, hr.preheader, ?_⟩
      rcases hcase with ⟨rfl, -⟩ | ⟨q, -, m, hlift⟩
      · exact hr.inside
      · -- It was lifted before: the loop of then has its preheader in this one.
        exact ha.contains_of_contains_preheader hlift.loop hlift.preheader hlift.inside hr.loop
          hr.inside
    · refine ⟨c, by rw [howner, if_neg hx]; exact hgc, ?_⟩
      rcases hcase with ⟨hcb, hno⟩ | ⟨q, hq, m, hlift⟩
      · refine .inl ⟨hcb, fun q hq => ?_⟩
        rcases List.mem_append.1 hq with hq | hq
        · exact hno q hq
        · rw [List.mem_singleton.1 hq]
          exact Ne.symm hx
      · exact .inr ⟨q, List.mem_append_left _ hq, m, hlift⟩

/-- As long as only loops before it are done, a loop contains the instructions that it contained at
first. -/
theorem Trace.contains_iff (h : Trace f a settings rs g) (ha : Analyzed f a) (hc : f.Coherent)
    (hw : f.WellFormed) (hl : a.forest.loop? n = some l)
    (hrs : ∀ r ∈ rs, Cfg.Later a.forest r.loop n) (hb : f.owner? x = some b)
    (hgc : g.owner? x = some c) : l.contains c = true ↔ l.contains b = true := by
  obtain ⟨c', hgc', hcase⟩ := h.owner_cases ha hc hw hb
  obtain rfl := Option.some.inj (hgc.symm.trans hgc')
  rcases hcase with ⟨rfl, -⟩ | ⟨r, hr, m, hlift⟩
  · exact Iff.rfl
  · exact ha.contains_preheader_iff_of_later hlift.loop hlift.preheader hlift.inside hl (hrs r hr)

end LoopHoist
