import LoopHoist.Code.Edit
import LoopHoist.Proofs.Flow.Settling

/-!
# The dominator tree

The settled candidates of a closed graph are its immediate dominators. The chain of a block then
holds its dominators, so climbing it decides dominance (`Dominators.dominates_iff`), and the
candidate of a block is dominated by all its other dominators (`Dominators.isIdom_of_idom?`).
-/

namespace LoopHoist

namespace Cfg

variable {g : Cfg} {d : Dominators} {a b c e : BlockId}

/-- Whether `a` is the closest strict dominator of `b`. -/
structure IsIdom (g : Cfg) (a b : BlockId) : Prop where
  /-- It is another block. -/
  ne : a ≠ b
  /-- It dominates the block. -/
  dominates : g.Dominates a b
  /-- Every other strict dominator of the block dominates it. -/
  closest : ∀ c, c ≠ b → g.Dominates c b → g.Dominates c a

/-- What holds of the dominator tree of a graph. -/
structure HasTree (g : Cfg) (d : Dominators) : Prop where
  /-- There is a tree only of a closed graph. -/
  closed : g.closed = true
  /-- The tree keeps the reverse postorder. -/
  order : d.order = g.reversePostorder
  /-- Its table holds candidates. -/
  candidates : ∀ e, g.entry = some e → Candidates g e g.rank d.idoms
  /-- Every reachable block has a candidate. -/
  live : ∀ b, g.Reachable b → (d.idoms.up b).isSome = true
  /-- The chain of a reachable block holds its dominators. -/
  onChain_iff : ∀ b, g.Reachable b → ∀ a, d.idoms.OnChain b a ↔ g.Dominates a b

/-- A closed graph has a dominator tree. -/
theorem exists_dominators (hc : g.closed = true) : ∃ d, g.dominators = .ok d := by
  obtain ⟨e, he, -⟩ := exists_entry_of_closed hc
  obtain ⟨t, ht, -⟩ := exists_idomTable? hc he
  refine ⟨{ order := g.reversePostorder, idoms := t }, ?_⟩
  simp only [dominators, he, hc, ht, if_true]

/-- The dominator tree is what it should be. -/
theorem hasTree_of_dominators (h : g.dominators = .ok d) : g.HasTree d := by
  unfold dominators at h
  split at h
  · cases h
  · next e he =>
    split at h
    · next hc =>
      obtain ⟨t, ht, hcand, hchain⟩ := exists_idomTable? hc he
      rw [ht] at h
      obtain rfl := Except.ok.inj h
      refine ⟨hc, rfl, fun e' he' => ?_, fun b hb => (hchain b hb).1, fun b hb => (hchain b hb).2⟩
      obtain rfl : e = e' := Option.some.inj (he.symm.trans he')
      exact hcand
    · cases h

namespace HasTree

variable (h : g.HasTree d)
include h

/-- The tree holds exactly the reachable blocks. -/
theorem mem_order : b ∈ d.order ↔ g.Reachable b := by
  rw [h.order]
  exact mem_reversePostorder_iff h.closed

/-- The tree knows which blocks are reachable. -/
theorem reachable_iff : d.reachable b = true ↔ g.Reachable b := by
  rw [Dominators.reachable, List.contains_iff_mem]
  exact h.mem_order

/-- The entry has no immediate dominator. -/
theorem idom?_entry (he : g.entry = some e) : d.idom? e = none := by
  unfold Dominators.idom?
  rw [(h.candidates e he).root]
  exact if_pos rfl

/-- An unreachable block has no immediate dominator. -/
theorem idom?_of_not_reachable (hb : ¬ g.Reachable b) : d.idom? b = none := by
  obtain ⟨e, he, -⟩ := exists_entry_of_closed h.closed
  have hn : d.idoms.up b = none :=
    Option.not_isSome_iff_eq_none.1 fun hs => hb ((h.candidates e he).reachable b hs)
  unfold Dominators.idom?
  rw [hn]

/-- The immediate dominator of a reachable block other than the entry is its candidate. -/
theorem exists_idom? (hb : g.Reachable b) (hne : g.entry ≠ some b) :
    ∃ a, d.idom? b = some a ∧ d.idoms.up b = some a ∧ g.rank a < g.rank b := by
  obtain ⟨e, he, -⟩ := exists_entry_of_closed h.closed
  obtain ⟨a, ha⟩ := Option.isSome_iff_exists.1 (h.live b hb)
  have hlt := (h.candidates e he).lower b a ha fun hbe => hne (hbe ▸ he)
  have hab : a ≠ b := fun hab => by
    rw [hab] at hlt
    omega
  refine ⟨a, ?_, ha, hlt⟩
  unfold Dominators.idom?
  rw [ha]
  exact if_neg hab

/-- The immediate dominator is the closest strict dominator. -/
theorem isIdom_of_idom? (ha : d.idom? b = some a) : g.IsIdom a b := by
  obtain ⟨e, he, -⟩ := exists_entry_of_closed h.closed
  have hup : d.idoms.up b = some a ∧ a ≠ b := by
    unfold Dominators.idom? at ha
    split at ha
    · next c hc =>
      split at ha
      · cases ha
      · next hcb => exact Option.some.inj ha ▸ ⟨hc, hcb⟩
    · cases ha
  have hb : g.Reachable b := (h.candidates e he).reachable b (by rw [hup.1]; rfl)
  have hdom : g.Dominates a b := (h.onChain_iff b hb a).1 (.up hup.1 .here)
  refine ⟨hup.2, hdom, fun c hcb hc => ?_⟩
  -- Another dominator is on the chain after the block itself, so on the chain of the candidate.
  have hchain := ((h.onChain_iff b hb c).2 hc).of_up hcb hup.1
  exact (h.onChain_iff a (hdom.reachable hb) c).1 hchain

/-- The rank of a reachable block is below the number of reachable blocks. -/
theorem rank_lt (hb : g.Reachable b) : g.rank b < d.order.length := by
  rw [rank, ← h.order]
  exact List.idxOf_lt_length_of_mem (h.mem_order.2 hb)

/-- A climb with enough fuel finds out whether it meets a block. -/
theorem climbs_spec (fuel : Nat) (hb : g.Reachable b) (hf : g.rank b < fuel) :
    ∃ r, d.climbs a fuel b = some r ∧ (r = true ↔ d.idoms.OnChain b a) := by
  induction fuel generalizing b with
  | zero => omega
  | succ fuel ih =>
    by_cases hba : b = a
    · subst hba
      exact ⟨true, by simp [Dominators.climbs], by simp [IdomTable.OnChain.here]⟩
    · simp only [Dominators.climbs, if_neg hba]
      by_cases he : g.entry = some b
      · -- The chain ends at the entry, which is dominated by itself alone.
        refine ⟨false, by rw [h.idom?_entry he], ?_⟩
        simp only [Bool.false_eq_true, false_iff]
        intro hchain
        have := (h.candidates b he).rank_lt hchain (Ne.symm hba)
        have := (h.candidates b he).rank_root
        omega
      · obtain ⟨c, hc, hup, hlt⟩ := h.exists_idom? hb he
        have hcr : g.Reachable c := (h.isIdom_of_idom? hc).dominates.reachable hb
        obtain ⟨r, hr, hiff⟩ := ih hcr (by omega)
        refine ⟨r, by rw [hc]; exact hr, hiff.trans ⟨.up hup, fun hchain => ?_⟩⟩
        exact hchain.of_up (Ne.symm hba) hup

/-- The climb that decides dominance comes to an end. -/
theorem dominatesAt_eq_ok (a b : BlockId) : d.dominatesAt a b = .ok (d.dominates a b) := by
  unfold Dominators.dominatesAt Dominators.dominates
  split
  · next hab =>
    have hb : g.Reachable b := h.reachable_iff.1 (Bool.and_eq_true_iff.1 hab).2
    obtain ⟨r, hr, -⟩ := h.climbs_spec (a := a) d.order.length hb (h.rank_lt hb)
    rw [hab, hr]
    cases r <;> rfl
  · next hab => rw [Bool.eq_false_iff.2 hab, Bool.false_and]

/-- The tree decides dominance. -/
theorem dominates_iff :
    d.dominates a b = true ↔ g.Reachable a ∧ g.Reachable b ∧ g.Dominates a b := by
  unfold Dominators.dominates
  rw [Bool.and_eq_true, Bool.and_eq_true, h.reachable_iff, h.reachable_iff, and_assoc, beq_iff_eq]
  refine and_congr_right fun _ => and_congr_right fun hb => ?_
  obtain ⟨r, hr, hiff⟩ := h.climbs_spec (a := a) d.order.length hb (h.rank_lt hb)
  rw [hr, Option.some.injEq, hiff, h.onChain_iff b hb]

end HasTree

/-! ## The graph of a function -/

/-- The graph has the successors that the function has. -/
@[simp] theorem succ_ofFunction (f : Function) (b : BlockId) :
    (Cfg.ofFunction f).succ b = f.successors b := by
  obtain ⟨b⟩ := b
  simp only [succ, ofFunction, Function.blockIds, List.map_map, List.getElem?_toArray,
    List.getElem?_map]
  by_cases hb : b < f.blocks.size
  · rw [List.getElem?_range hb]
    rfl
  · rw [List.getElem?_eq_none (by simpa using hb)]
    have hn : f.block? ⟨b⟩ = none := Array.getElem?_eq_none (Nat.le_of_not_lt hb)
    simp only [Function.successors, Function.terminator?, hn, Option.bind_none, Option.map_none]

/-- The graph has the blocks that the function has. -/
@[simp] theorem has_ofFunction (f : Function) (b : BlockId) :
    (Cfg.ofFunction f).has b = f.hasBlock b := by
  simp only [has, ofFunction, Function.hasBlock, Function.blockIds, List.size_toArray,
    List.length_map, List.length_range]

/-- The graph of a function is closed when the entry exists and reachable blocks branch only to
existing ones. -/
theorem closed_ofFunction {f : Function} (he : f.entry = some e) (hh : f.hasBlock e = true)
    (hs : ∀ b, (Cfg.ofFunction f).Reachable b → ∀ s ∈ f.successors b, f.hasBlock s = true) :
    (Cfg.ofFunction f).closed = true := by
  refine closed_iff.2 ⟨e, he, (has_ofFunction f e).trans hh, fun b hb s hmem => ?_⟩
  rw [succ_ofFunction] at hmem
  exact (has_ofFunction f s).trans (hs b hb s hmem)

/-- On every function whose entry exists and whose reachable blocks branch only to existing blocks,
the dominator tree is defined, dominance in it is dominance by paths between reachable blocks, and
the immediate dominator of a reachable block other than the entry is its closest strict dominator;
the entry and the unreachable blocks have none. -/
theorem dominators_ofFunction_correct (f : Function) (e : BlockId) (he : f.entry = some e)
    (hh : f.hasBlock e = true)
    (hs : ∀ b, (Cfg.ofFunction f).Reachable b → ∀ s ∈ f.successors b, f.hasBlock s = true) :
    ∃ d, (Cfg.ofFunction f).dominators = .ok d ∧
      (∀ a b, d.dominates a b = true ↔ (Cfg.ofFunction f).Reachable a ∧
        (Cfg.ofFunction f).Reachable b ∧ (Cfg.ofFunction f).Dominates a b) ∧
      (∀ b, (Cfg.ofFunction f).Reachable b → b ≠ e →
        ∃ a, d.idom? b = some a ∧ (Cfg.ofFunction f).IsIdom a b) ∧
      d.idom? e = none ∧
      ∀ b, ¬ (Cfg.ofFunction f).Reachable b → d.idom? b = none := by
  obtain ⟨d, hd⟩ := exists_dominators (closed_ofFunction he hh hs)
  have h := hasTree_of_dominators hd
  refine ⟨d, hd, fun a b => h.dominates_iff, fun b hb hbe => ?_, h.idom?_entry he,
    fun b hb => h.idom?_of_not_reachable hb⟩
  obtain ⟨a, ha, -⟩ := h.exists_idom? hb fun heb => hbe (Option.some.inj (heb.symm.trans he))
  exact ⟨a, ha, h.isIdom_of_idom? ha⟩

/-- A function with a cycle of two entries, an edge back into the entry and an unreachable block. -/
def knot : Function :=
  Function.edits { name := "knot" }
    [.addBlock "entry", .addBlock "left", .addBlock "right", .addBlock "out", .addBlock "stray",
      .append ⟨0⟩ (.branch (.imm (.i64 1)) ⟨1⟩ ⟨2⟩), .append ⟨1⟩ (.jump ⟨2⟩),
      .append ⟨2⟩ (.branch (.imm (.i64 0)) ⟨1⟩ ⟨3⟩), .append ⟨3⟩ (.jump ⟨0⟩),
      .append ⟨4⟩ (.jump ⟨3⟩)]

/-- The knot has a dominator tree, and its entry has no immediate dominator in it. -/
theorem dominators_knot_correct :
    ∃ d, (Cfg.ofFunction knot).dominators = .ok d ∧
      (∀ a b, d.dominates a b = true ↔ (Cfg.ofFunction knot).Reachable a ∧
        (Cfg.ofFunction knot).Reachable b ∧ (Cfg.ofFunction knot).Dominates a b) ∧
      d.idom? ⟨0⟩ = none := by
  have hall : ∀ b ∈ knot.blockIds, ∀ s ∈ knot.successors b, knot.hasBlock s = true := by decide
  obtain ⟨d, hd, hdom, -, hidom, -⟩ :=
    dominators_ofFunction_correct knot ⟨0⟩ (by decide) (by decide) fun b _ s hs => by
      refine hall b ?_ s hs
      rw [Function.mem_blockIds, ← has_ofFunction]
      rw [← succ_ofFunction] at hs
      exact has_of_mem_succ hs
  exact ⟨d, hd, hdom, hidom⟩

end Cfg

end LoopHoist
