import LoopHoist.Flow.Dominators
import LoopHoist.Proofs.Flow.Paths

/-!
# Refining the candidates for immediate dominators

While the table of candidates is refined it is wrong in general, and a change of one candidate
changes the chains of all blocks below it. `Candidates` is what holds of the table throughout: the
candidate of a block has a lower rank and leads to the block through blocks of no lower rank, and
every dominator of a block is on its chain. The meeting point of two blocks has exactly the common
part of their chains as its chain (`Candidates.meet_spec`), so refining one candidate keeps
`Candidates` (`Candidates.refined`).
-/

namespace LoopHoist

namespace IdomTable

variable {t : IdomTable} {a b c d x : BlockId}

/-- Whether `x` is met on the way up from `b` through the candidates. -/
inductive OnChain (t : IdomTable) : BlockId → BlockId → Prop where
  /-- A block is on its own chain. -/
  | here {b : BlockId} : OnChain t b b
  /-- What is on the chain of its candidate is on the chain of a block. -/
  | up {b d x : BlockId} (h : t.up b = some d) (hx : OnChain t d x) : OnChain t b x

/-- The table has an entry for a block with a candidate. -/
theorem has_of_up (h : t.up b = some d) : t.has b = true := by
  refine decide_eq_true (Nat.lt_of_not_le fun hle => ?_)
  rw [up, Array.getElem?_eq_none hle] at h
  cases h

/-- The table has an entry for a block with a candidate, whichever it is. -/
theorem has_of_isSome_up (h : (t.up b).isSome = true) : t.has b = true :=
  has_of_up (Option.isSome_iff_exists.1 h).choose_spec

/-- The candidates after one was replaced. -/
theorem up_set (hc : c.index < t.size) :
    (t.set c d).up b = if b = c then some d else t.up b := by
  obtain ⟨b⟩ := b
  obtain ⟨c⟩ := c
  simp only [up, set, Array.getElem?_setIfInBounds, BlockId.mk.injEq]
  by_cases h : b = c
  · subst h
    simp only [if_true, if_pos hc, Option.join_some]
  · rw [if_neg (Ne.symm h), if_neg h]

namespace OnChain

/-- What is on the chain of a block other than itself is on the chain of its candidate. -/
theorem of_up (hx : t.OnChain b x) (hne : x ≠ b) (h : t.up b = some d) : t.OnChain d x := by
  cases hx with
  | here => exact absurd rfl hne
  | up h' hx =>
    rw [h] at h'
    exact Option.some.inj h' ▸ hx

/-- A chain through replaced candidates is an old chain, unless it meets the replaced one. -/
theorem of_set (hc : c.index < t.size) (h : (t.set c d).OnChain b a) :
    t.OnChain b a ∨ (t.OnChain b c ∧ (t.set c d).OnChain c a) := by
  induction h with
  | here => exact .inl .here
  | @up b d' a h hx ih =>
    by_cases hb : b = c
    · subst hb
      exact .inr ⟨.here, .up h hx⟩
    · rw [up_set hc, if_neg hb] at h
      exact ih.imp (fun h' => .up h h') (fun h' => ⟨.up h h'.1, h'.2⟩)

/-- A chain that does not meet the replaced candidate stays as it is. -/
theorem set (hc : c.index < t.size) (h : t.OnChain b a) (hn : ¬ t.OnChain b c) :
    (t.set c d).OnChain b a := by
  induction h with
  | here => exact .here
  | @up b d' a h hx ih =>
    have hb : b ≠ c := fun hb => hn (hb ▸ .here)
    refine .up (d := d') ?_ (ih fun h' => hn (.up h h'))
    rw [up_set hc, if_neg hb]
    exact h

end OnChain

end IdomTable

namespace Cfg

variable {g : Cfg} {e : BlockId} {rank : BlockId → Nat} {t : IdomTable} {a b c d x : BlockId}

/-- What holds of a table of candidates for the graph with entry `e` at every moment. -/
structure Candidates (g : Cfg) (e : BlockId) (rank : BlockId → Nat) (t : IdomTable) : Prop where
  /-- The table has a place for every block. -/
  size : t.size = g.size
  /-- The entry has rank zero. -/
  rank_root : rank e = 0
  /-- The entry has itself. -/
  root : t.up e = some e
  /-- The candidate of any other block has a lower rank. -/
  lower : ∀ b d, t.up b = some d → b ≠ e → rank d < rank b
  /-- A candidate has a candidate. -/
  live : ∀ b d, t.up b = some d → (t.up d).isSome = true
  /-- A candidate leads to its block through blocks of no lower rank. -/
  path : ∀ b d, t.up b = some d → ∃ bs, g.Path d b bs ∧ ∀ x ∈ bs, rank d ≤ rank x
  /-- Only reachable blocks have a candidate. -/
  reachable : ∀ b, (t.up b).isSome = true → g.Reachable b
  /-- Every dominator is on the chain. -/
  sound : ∀ b, (t.up b).isSome = true → ∀ a, g.Dominates a b → t.OnChain b a

namespace Candidates

/-- The table has an entry for every block of the graph. -/
theorem has_of_has (h : Candidates g e rank t) (hb : g.has b = true) : t.has b = true :=
  decide_eq_true (h.size ▸ of_decide_eq_true hb)

/-- A block on a chain has a lower rank than the block where the chain starts. -/
theorem rank_lt (h : Candidates g e rank t) (hx : t.OnChain b x) (hne : x ≠ b) :
    rank x < rank b := by
  induction hx with
  | here => exact absurd rfl hne
  | @up b d x hd _ ih =>
    by_cases hb : b = e
    · -- The entry has itself as its candidate.
      subst hb
      obtain rfl : b = d := Option.some.inj (h.root.symm.trans hd)
      exact ih hne
    · have hlt := h.lower b d hd hb
      by_cases hxd : x = d
      · exact hxd ▸ hlt
      · exact Nat.lt_trans (ih hxd) hlt

/-- No block on a chain has a higher rank than the block where the chain starts. -/
theorem rank_le (h : Candidates g e rank t) (hx : t.OnChain b x) : rank x ≤ rank b := by
  by_cases hne : x = b
  · exact Nat.le_of_eq (congrArg rank hne)
  · exact Nat.le_of_lt (h.rank_lt hx hne)

/-- A block on a chain leads to the start of the chain through blocks of no lower rank. -/
theorem path_of_onChain (h : Candidates g e rank t) (hx : t.OnChain b x) :
    ∃ bs, g.Path x b bs ∧ ∀ y ∈ bs, rank x ≤ rank y := by
  induction hx with
  | here => exact ⟨_, .here, fun y hy => List.mem_singleton.1 hy ▸ Nat.le_refl _⟩
  | @up b d x hd _ ih =>
    obtain ⟨bs, p, hp⟩ := ih
    obtain ⟨cs, q, hq⟩ := h.path b d hd
    obtain ⟨ds, r, hr⟩ := p.trans q
    refine ⟨ds, r, fun y hy => ?_⟩
    rcases hr y hy with hy | hy
    · exact hp y hy
    · exact Nat.le_trans (hp d p.target_mem) (hq y hy)

/-- What is met on the way up from a block with a candidate has a candidate. -/
theorem live_of_onChain (h : Candidates g e rank t) (hb : (t.up b).isSome = true)
    (hx : t.OnChain b x) : (t.up x).isSome = true := by
  induction hx with
  | here => exact hb
  | @up b d x hd _ ih => exact ih (h.live b d hd)

/-- Only the entry has a candidate and rank zero. -/
theorem rank_pos (h : Candidates g e rank t) (hb : (t.up b).isSome = true) (hne : b ≠ e) :
    0 < rank b := by
  obtain ⟨d, hd⟩ := Option.isSome_iff_exists.1 hb
  have := h.lower b d hd hne
  omega

/-! ## Meeting points -/

/-- Climbing from a block that is not on the other chain keeps the common part of the chains. -/
theorem common_iff_of_up (hd : t.up a = some d) (hn : ¬ t.OnChain b a) :
    t.OnChain d x ∧ t.OnChain b x ↔ t.OnChain a x ∧ t.OnChain b x :=
  ⟨fun hx => ⟨.up hd hx.1, hx.2⟩, fun hx => ⟨hx.1.of_up (fun hxa => hn (hxa ▸ hx.2)) hd, hx.2⟩⟩

/-- The chain of the meeting point of two blocks is the common part of their chains. -/
theorem meet_spec (h : Candidates g e rank t) (fuel : Nat) (a b : BlockId)
    (ha : (t.up a).isSome = true) (hb : (t.up b).isSome = true) (hf : rank a + rank b ≤ fuel) :
    ∃ m, t.meet rank fuel a b = some m ∧ (t.up m).isSome = true ∧
      ∀ x, t.OnChain m x ↔ t.OnChain a x ∧ t.OnChain b x := by
  induction fuel generalizing a b with
  | zero =>
    -- Both have rank zero, so both are the entry.
    have hae : a = e := Classical.byContradiction fun hne => by
      have := h.rank_pos ha hne
      omega
    have hbe : b = e := Classical.byContradiction fun hne => by
      have := h.rank_pos hb hne
      omega
    obtain rfl : a = b := hae.trans hbe.symm
    exact ⟨a, by simp [IdomTable.meet], ha, fun x => by simp⟩
  | succ fuel ih =>
    by_cases hab : a = b
    · subst hab
      exact ⟨a, by simp [IdomTable.meet], ha, fun x => by simp⟩
    · simp only [IdomTable.meet, if_neg hab, IdomTable.has_of_isSome_up ha,
        IdomTable.has_of_isSome_up hb, Bool.and_self, Bool.not_true, Bool.false_eq_true, if_false]
      by_cases hr : rank b < rank a
      · -- The first block is further from the entry, and climbs.
        have hae : a ≠ e := fun hae => by
          rw [hae, h.rank_root] at hr
          omega
        have hn : ¬ t.OnChain b a := fun hx => by
          have := h.rank_le hx
          omega
        obtain ⟨d, hd⟩ := Option.isSome_iff_exists.1 ha
        have hlt := h.lower a d hd hae
        obtain ⟨m, hm, hlive, hchain⟩ := ih d b (h.live a d hd) hb (by omega)
        refine ⟨m, by simp [hr, hd, hm], hlive, fun x => ?_⟩
        rw [hchain x, common_iff_of_up hd hn]
      · -- The second block climbs.
        have hbe : b ≠ e := fun hbe => by
          have := h.rank_pos ha (fun hae => hab (hae.trans hbe.symm))
          rw [hbe, h.rank_root] at hr
          omega
        have hn : ¬ t.OnChain a b := fun hx => by
          have := h.rank_lt hx (Ne.symm hab)
          omega
        obtain ⟨d, hd⟩ := Option.isSome_iff_exists.1 hb
        have hlt := h.lower b d hd hbe
        obtain ⟨m, hm, hlive, hchain⟩ := ih a d ha (h.live b d hd) (by omega)
        refine ⟨m, by simp [hr, hd, hm], hlive, fun x => ?_⟩
        rw [hchain x, and_comm, common_iff_of_up hd hn, and_comm]

/-- The chain of the meeting point of several blocks is the common part of all their chains. -/
theorem meetAll_spec (h : Candidates g e rank t) (others : List BlockId)
    (first : BlockId) (hfirst : (t.up first).isSome = true)
    (hothers : ∀ p ∈ others, (t.up p).isSome = true) :
    ∃ m, t.meetAll rank first others = some m ∧ (t.up m).isSome = true ∧
      ∀ x, t.OnChain m x ↔ ∀ p ∈ first :: others, t.OnChain p x := by
  induction others generalizing first with
  | nil => exact ⟨first, rfl, hfirst, fun x => by simp⟩
  | cons p ps ih =>
    have hp := hothers p List.mem_cons_self
    obtain ⟨m, hm, hlive, hchain⟩ := h.meet_spec _ p first hp hfirst (Nat.le_refl _)
    obtain ⟨m', hm', hlive', hchain'⟩ := ih m hlive fun q hq =>
      hothers q (List.mem_cons_of_mem _ hq)
    refine ⟨m', ?_, hlive', fun x => ?_⟩
    · unfold IdomTable.meetAll at hm' ⊢
      rw [List.foldlM_cons, hm]
      exact hm'
    · rw [hchain' x]
      simp only [List.forall_mem_cons, hchain x]
      exact ⟨fun hx => ⟨hx.1.2, hx.1.1, hx.2⟩, fun hx => ⟨⟨hx.2.1, hx.1⟩, hx.2.2⟩⟩

/-! ## Refining one candidate -/

/-- What makes `d` the meeting point of the predecessors of `c` that have a candidate. -/
structure MeetsPreds (g : Cfg) (t : IdomTable) (c d : BlockId) : Prop where
  /-- The meeting point has a candidate. -/
  live : (t.up d).isSome = true
  /-- Its chain is the common part of the chains of the predecessors. -/
  onChain_iff : ∀ x, t.OnChain d x ↔ ∀ p, c ∈ g.succ p → (t.up p).isSome = true → t.OnChain p x

/-- Refining replaces the candidate by the meeting point of the predecessors, if one has one. -/
theorem refineAt_spec (h : Candidates g e rank t) {p : BlockId} (hc : g.has c = true)
    (hp : (t.up p).isSome = true) (hs : c ∈ g.succ p) :
    ∃ d, g.refineAt rank t c = some (t.set c d) ∧ MeetsPreds g t c d := by
  have hmem : ∀ q, q ∈ (g.preds c).filter (fun p => (t.up p).isSome) ↔
      c ∈ g.succ q ∧ (t.up q).isSome = true := fun q => by
    rw [List.mem_filter, mem_preds]
  have hall : (c :: g.preds c).all t.has = true := List.all_eq_true.2 fun q hq => by
    rcases List.mem_cons.1 hq with rfl | hq
    · exact h.has_of_has hc
    · exact h.has_of_has (has_of_mem_succ (mem_preds.1 hq))
  unfold refineAt
  rw [if_pos hall]
  cases hps : (g.preds c).filter fun p => (t.up p).isSome with
  | nil =>
    have := (hmem p).2 ⟨hs, hp⟩
    rw [hps] at this
    exact absurd this List.not_mem_nil
  | cons q qs =>
    rw [hps] at hmem
    obtain ⟨m, hm, hlive, hchain⟩ := h.meetAll_spec qs q
      ((hmem q).1 List.mem_cons_self).2
      (fun r hr => ((hmem r).1 (List.mem_cons_of_mem _ hr)).2)
    refine ⟨m, by simp [hm], hlive, fun x => ?_⟩
    rw [hchain x]
    exact ⟨fun hx r hr hl => hx r ((hmem r).2 ⟨hr, hl⟩),
      fun hx r hr => hx r ((hmem r).1 hr).1 ((hmem r).1 hr).2⟩

/-- What dominates a block and is on the chain of its candidate dominates the candidate. -/
theorem dominates_candidate (h : Candidates g e rank t) (hd : t.up b = some d)
    (hx : t.OnChain d x) (hdom : g.Dominates x b) : g.Dominates x d := by
  by_cases hxd : x = d
  · exact hxd ▸ dominates_refl g d
  · -- The path from the candidate to the block has no block of so low a rank.
    obtain ⟨bs, p, hp⟩ := h.path b d hd
    refine hdom.of_path p fun hxb => ?_
    have := hp x hxb
    have := h.rank_lt hx hxd
    omega

/-- The replacement of the candidate of `c` by `d` when the turn of `c` has come: a predecessor of
lower rank has a candidate. -/
structure Refines (g : Cfg) (e : BlockId) (rank : BlockId → Nat) (t : IdomTable) (c d : BlockId) :
    Prop where
  /-- The block exists. -/
  has : g.has c = true
  /-- The block is not the entry. -/
  ne_entry : c ≠ e
  /-- The new candidate is the meeting point of the predecessors. -/
  meets : MeetsPreds g t c d
  /-- A predecessor of lower rank has a candidate. -/
  pred : ∃ p, (t.up p).isSome = true ∧ c ∈ g.succ p ∧ rank p < rank c

section Refines

variable (h : Candidates g e rank t) (hr : Refines g e rank t c d)
include h hr

/-- The table has a place for the block. -/
theorem index_lt : c.index < t.size := by
  rw [h.size]
  exact of_decide_eq_true hr.has

/-- The candidates after the replacement. -/
theorem up_refined (b : BlockId) : (t.set c d).up b = if b = c then some d else t.up b :=
  IdomTable.up_set (h.index_lt hr)

/-- The new candidate has a lower rank than its block. -/
theorem rank_lt_refined : rank d < rank c := by
  obtain ⟨p, hp, hs, hlt⟩ := hr.pred
  exact Nat.lt_of_le_of_lt (h.rank_le ((hr.meets.onChain_iff d).1 .here p hs hp)) hlt

/-- The block is not on the chain of its new candidate. -/
theorem not_onChain_refined : ¬ t.OnChain d c := fun hx => by
  have := h.rank_le hx
  have := h.rank_lt_refined hr
  omega

/-- No block loses its candidate. -/
theorem live_refined (hb : (t.up b).isSome = true) : ((t.set c d).up b).isSome = true := by
  rw [h.up_refined hr]
  split
  · rfl
  · exact hb

/-- The new candidate leads to its block through blocks of no lower rank. -/
theorem path_refined : ∃ bs, g.Path d c bs ∧ ∀ x ∈ bs, rank d ≤ rank x := by
  obtain ⟨p, hp, hs, -⟩ := hr.pred
  obtain ⟨bs, q, hq⟩ := h.path_of_onChain ((hr.meets.onChain_iff d).1 .here p hs hp)
  refine ⟨c :: bs, q.step hs, fun y hy => ?_⟩
  rcases List.mem_cons.1 hy with rfl | hy
  · exact Nat.le_of_lt (h.rank_lt_refined hr)
  · exact hq y hy

/-- Every dominator is still on the chain. -/
theorem sound_refined (hb : ((t.set c d).up b).isSome = true) (hdom : g.Dominates a b) :
    (t.set c d).OnChain b a := by
  -- By induction on the rank of the block: its chain goes on with that of its candidate.
  induction hn : rank b using Nat.strongRecOn generalizing b with
  | _ n ih =>
    by_cases hab : a = b
    · exact hab ▸ .here
    · by_cases hbc : b = c
      · subst hbc
        refine .up (d := d) (by rw [h.up_refined hr, if_pos rfl]) ?_
        refine .set (h.index_lt hr) ((hr.meets.onChain_iff a).2 fun q hq hl => ?_)
          (h.not_onChain_refined hr)
        exact h.sound q hl a (hdom.of_mem_succ hab hq)
      · rw [h.up_refined hr, if_neg hbc] at hb
        obtain ⟨x, hx⟩ := Option.isSome_iff_exists.1 hb
        have hax : t.OnChain x a := (h.sound b hb a hdom).of_up hab hx
        have hbe : b ≠ e := fun hbe => by
          have := h.rank_lt (.up hx hax) hab
          rw [hbe, h.rank_root] at this
          omega
        refine .up (d := x) (by rw [h.up_refined hr, if_neg hbc, hx]) ?_
        exact ih (rank x) (hn ▸ h.lower b x hx hbe) (h.live_refined hr (h.live b x hx))
          (h.dominates_candidate hx hax hdom) rfl

/-- Refining one candidate keeps what holds of the table. -/
theorem refined : Candidates g e rank (t.set c d) where
  size := by rw [IdomTable.set, Array.size_setIfInBounds, h.size]
  rank_root := h.rank_root
  root := by rw [h.up_refined hr, if_neg (Ne.symm hr.ne_entry), h.root]
  lower := by
    intro b x hx hbe
    rw [h.up_refined hr] at hx
    split at hx
    · next hb => exact hb ▸ Option.some.inj hx ▸ h.rank_lt_refined hr
    · exact h.lower b x hx hbe
  live := by
    intro b x hx
    rw [h.up_refined hr] at hx
    split at hx
    · exact Option.some.inj hx ▸ h.live_refined hr hr.meets.live
    · exact h.live_refined hr (h.live b x hx)
  path := by
    intro b x hx
    rw [h.up_refined hr] at hx
    split at hx
    · next hb => exact hb ▸ Option.some.inj hx ▸ h.path_refined hr
    · exact h.path b x hx
  reachable := by
    intro b hb
    rw [h.up_refined hr] at hb
    split at hb
    · next hbc =>
      obtain ⟨p, hp, hs, -⟩ := hr.pred
      exact hbc ▸ (h.reachable p hp).step hs
    · exact h.reachable b hb
  sound := fun b hb a hdom => h.sound_refined hr hb hdom

end Refines

end Candidates

end Cfg

end LoopHoist
