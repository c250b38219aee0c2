import LoopHoist.Proofs.Flow.Numbering

/-!
# The dominator computation ends

Each of the three loops of the dominator computation runs on fuel. Here each has its meaning without
fuel, as a counted run, of which there is one only if the loop ends: two blocks climb to where their
chains meet (`IdomTable.Meets`), sweeps are repeated until one changes nothing (`Cfg.Settles`), and
a chain is climbed in search of a block (`Dominators.Seeks`). With at least as much fuel as its run
is long, a loop gives what the run gives.

On a closed graph there are such runs at every moment of the computation, however wrong the
candidates still are. The measure is the rank: whenever the turn of a block comes (`TurnOf`), each
candidate but that of the entry has a lower rank than its block, which is a higher number in the
postorder, and every chain leads to the entry (`Climbable`).
-/

namespace LoopHoist

/-! ## The loops without fuel -/

namespace IdomTable

/-- The climb of two blocks to where their chains meet: `Meets rank t k a b m` says that from `a`
and `b` it ends at `m` after `k` steps. The block of higher rank climbs. A block without a candidate
would stay where it is for ever, and so would two different blocks of one rank; from these there is
no run, nor from two different blocks of which the table lacks one. -/
inductive Meets (rank : BlockId → Nat) (t : IdomTable) :
    Nat → BlockId → BlockId → BlockId → Prop where
  /-- The two blocks are one. -/
  | here {a : BlockId} : Meets rank t 0 a a a
  /-- The first block climbs to its candidate. -/
  | first {k : Nat} {a b d m : BlockId} (hr : rank b < rank a) (hd : t.up a = some d)
    (hb : t.has b = true) (h : Meets rank t k d b m) : Meets rank t (k + 1) a b m
  /-- The second block climbs to its candidate. -/
  | second {k : Nat} {a b d m : BlockId} (hr : rank a < rank b) (hd : t.up b = some d)
    (ha : t.has a = true) (h : Meets rank t k a d m) : Meets rank t (k + 1) a b m

/-- With enough fuel the search for the meeting point finds the end of the climb. -/
theorem Meets.meet_eq {rank : BlockId → Nat} {t : IdomTable} {k fuel : Nat} {a b m : BlockId}
    (h : Meets rank t k a b m) (hf : k ≤ fuel) : t.meet rank fuel a b = some m := by
  induction h generalizing fuel with
  | here => cases fuel <;> simp [meet]
  | @first k a b d m hr hd hb h ih =>
    obtain ⟨fuel, rfl⟩ : ∃ n, fuel = n + 1 := ⟨fuel - 1, by omega⟩
    have hab : a ≠ b := fun hab => by
      rw [hab] at hr
      omega
    rw [meet, if_neg hab, if_neg (by simp [has_of_up hd, hb]), if_pos hr, hd]
    exact ih (by omega)
  | @second k a b d m hr hd ha h ih =>
    obtain ⟨fuel, rfl⟩ : ∃ n, fuel = n + 1 := ⟨fuel - 1, by omega⟩
    have hab : a ≠ b := fun hab => by
      rw [hab] at hr
      omega
    rw [meet, if_neg hab, if_neg (by simp [has_of_up hd, ha]), if_neg (by omega), hd]
    exact ih (by omega)

end IdomTable

namespace Cfg

variable {g : Cfg} {e a b c : BlockId} {t u : IdomTable}

/-- The repetition of sweeps: `g.Settles k t u` says that from the table `t` the sweep number `k` is
the first that changes nothing, and the table is `u` then. -/
inductive Settles (g : Cfg) : Nat → IdomTable → IdomTable → Prop where
  /-- The sweep changes nothing. -/
  | done {t : IdomTable} (h : g.sweep g.rank g.reversePostorder t = some t) : Settles g 1 t t
  /-- The sweep changes something, so there is another. -/
  | again {k : Nat} {t u v : IdomTable} (h : g.sweep g.rank g.reversePostorder t = some u)
    (hne : u ≠ t) (hv : Settles g k u v) : Settles g (k + 1) t v

/-- Settling gives a table exactly if the sweeps lead to it and there is fuel for all of them. -/
theorem settle_eq_some_iff {fuel : Nat} :
    g.settle g.rank g.reversePostorder fuel t = some u ↔ ∃ k, k ≤ fuel ∧ g.Settles k t u := by
  induction fuel generalizing t with
  | zero =>
    simp only [settle, reduceCtorEq, Nat.le_zero_eq, false_iff, not_exists, not_and]
    rintro k rfl h
    cases h
  | succ fuel ih =>
    simp only [settle]
    constructor
    · intro h
      split at h
      · cases h
      · next v hv =>
        split at h
        · next hvt =>
          obtain rfl := Option.some.inj h
          exact ⟨1, by omega, .done (by rw [hv, hvt])⟩
        · next hvt =>
          obtain ⟨k, hk, hrun⟩ := ih.1 h
          exact ⟨k + 1, by omega, .again hv hvt hrun⟩
    · rintro ⟨k, hk, hrun⟩
      cases hrun with
      | done h => simp only [h, if_true]
      | again h hne hrun =>
        simp only [h, if_neg hne]
        exact ih.2 ⟨_, by omega, hrun⟩

end Cfg

namespace Dominators

/-- The climb from a block in search of `a`: `d.Seeks a k b r` says that from `b` it ends after `k`
steps, and whether it has met `a`. -/
inductive Seeks (d : Dominators) (a : BlockId) : Nat → BlockId → Bool → Prop where
  /-- The block is met. -/
  | met : Seeks d a 0 a true
  /-- The chain ends before the block is met. -/
  | missed {b : BlockId} (hb : b ≠ a) (h : d.idom? b = none) : Seeks d a 0 b false
  /-- The search goes on at the immediate dominator. -/
  | up {k : Nat} {b c : BlockId} {r : Bool} (hb : b ≠ a) (h : d.idom? b = some c)
    (hr : Seeks d a k c r) : Seeks d a (k + 1) b r

/-- A climb has an answer exactly if the search ends with it and there is fuel for all its steps. -/
theorem climbs_eq_some_iff {d : Dominators} {a b : BlockId} {fuel : Nat} {r : Bool} :
    d.climbs a fuel b = some r ↔ ∃ k, k < fuel ∧ d.Seeks a k b r := by
  induction fuel generalizing b with
  | zero => simp [climbs]
  | succ fuel ih =>
    rw [climbs]
    constructor
    · intro h
      split at h
      · next hb =>
        obtain rfl := Option.some.inj h
        exact ⟨0, by omega, hb ▸ .met⟩
      · next hb =>
        split at h
        · next c hc =>
          obtain ⟨k, hk, hrun⟩ := ih.1 h
          exact ⟨k + 1, by omega, .up hb hc hrun⟩
        · next hc =>
          obtain rfl := Option.some.inj h
          exact ⟨0, by omega, .missed hb hc⟩
    · rintro ⟨k, hk, hrun⟩
      cases hrun with
      | met => rw [if_pos rfl]
      | missed hb hc => rw [if_neg hb, hc]
      | up hb hc hrun =>
        rw [if_neg hb, hc]
        exact ih.2 ⟨_, by omega, hrun⟩

end Dominators

namespace Cfg

variable {g : Cfg} {e a b c : BlockId} {t u : IdomTable}

/-! ## The moments of the computation -/

/-- The tables after a number of whole sweeps, the first one included. -/
inductive Swept (g : Cfg) (e : BlockId) : IdomTable → Prop where
  /-- Only the entry has a candidate. -/
  | start : Swept g e (g.initialIdoms e)
  /-- One more sweep. -/
  | sweep {t u : IdomTable} (h : Swept g e t)
    (hu : g.sweep g.rank g.reversePostorder t = some u) : Swept g e u

/-- Whether `t` is a table with which the turn of `c` comes: some sweep has refined what is before
`c` in its order. -/
def TurnOf (g : Cfg) (e : BlockId) (c : BlockId) (t : IdomTable) : Prop :=
  ∃ s xs ys, g.Swept e s ∧ g.reversePostorder.tail = xs ++ c :: ys ∧
    xs.foldlM (fun t b => g.refineAt g.rank t b) s = some t

/-- Whether the meeting point of `a` and `b` is asked for at the turn of `c`: `a` is one of the
predecessors that have a candidate, and `b` the meeting point of those before it. -/
def AsksFor (g : Cfg) (t : IdomTable) (c a b : BlockId) : Prop :=
  ∃ p xs ys, (g.preds c).filter (fun q => (t.up q).isSome) = p :: xs ++ a :: ys ∧
    t.meetAll g.rank p xs = some b

/-- What makes two blocks climb to a meeting point. -/
structure Climbable (g : Cfg) (e : BlockId) (t : IdomTable) (a b : BlockId) : Prop where
  /-- Both have a candidate. -/
  live : (t.up a).isSome = true ∧ (t.up b).isSome = true
  /-- On the way up from either, every block but the entry has a candidate of a higher number. -/
  ascends : ∀ x, t.OnChain a x ∨ t.OnChain b x → x ≠ e →
    ∃ d, t.up x = some d ∧ g.number x < g.number d
  /-- Both ways up lead to the entry. -/
  toEntry : t.OnChain a e ∧ t.OnChain b e
  /-- The climb ends after no more steps than there is fuel for, and finds the meeting point. -/
  ends : ∃ k m, k ≤ g.rank a + g.rank b ∧ t.Meets g.rank k a b m ∧
    t.meet g.rank (g.rank a + g.rank b) a b = some m

namespace Candidates

variable (hc : g.closed = true) (h : Candidates g e g.rank t)
include hc h

/-- A block with a candidate is listed. -/
theorem mem_reversePostorder (hb : (t.up b).isSome = true) : b ∈ g.reversePostorder :=
  (mem_reversePostorder_iff hc).2 (h.reachable b hb)

/-- Two blocks that have candidates climb to a meeting point, by at most as many steps as their
ranks make together. -/
theorem exists_meets (ha : (t.up a).isSome = true) (hb : (t.up b).isSome = true) :
    ∃ k m, k ≤ g.rank a + g.rank b ∧ t.Meets g.rank k a b m := by
  -- By induction on the sum of the ranks, which each step lowers.
  induction hn : g.rank a + g.rank b using Nat.strongRecOn generalizing a b with
  | _ n ih =>
    rcases Nat.lt_trichotomy (g.rank a) (g.rank b) with hr | hr | hr
    · have hbe : b ≠ e := fun hbe => by
        rw [hbe, h.rank_root] at hr
        omega
      obtain ⟨d, hd⟩ := Option.isSome_iff_exists.1 hb
      have hlt : g.rank d < g.rank b := h.lower b d hd hbe
      obtain ⟨k, m, hk, hm⟩ := ih (g.rank a + g.rank d) (by omega) ha (h.live b d hd) rfl
      exact ⟨k + 1, m, by omega, .second hr hd (IdomTable.has_of_isSome_up ha) hm⟩
    · obtain rfl : a = b := rank_inj (h.mem_reversePostorder hc ha) hr
      exact ⟨0, a, by omega, .here⟩
    · have hae : a ≠ e := fun hae => by
        rw [hae, h.rank_root] at hr
        omega
      obtain ⟨d, hd⟩ := Option.isSome_iff_exists.1 ha
      have hlt : g.rank d < g.rank a := h.lower a d hd hae
      obtain ⟨k, m, hk, hm⟩ := ih (g.rank d + g.rank b) (by omega) (h.live a d hd) hb rfl
      exact ⟨k + 1, m, by omega, .first hr hd (IdomTable.has_of_isSome_up hb) hm⟩

/-- Two blocks that have candidates can climb. -/
theorem climbable (he : g.entry = some e) (ha : (t.up a).isSome = true)
    (hb : (t.up b).isSome = true) : g.Climbable e t a b where
  live := ⟨ha, hb⟩
  ascends x hx hxe := by
    have hlive : (t.up x).isSome = true := hx.elim (h.live_of_onChain ha) (h.live_of_onChain hb)
    obtain ⟨d, hd⟩ := Option.isSome_iff_exists.1 hlive
    have hxr : x ∈ g.reversePostorder := h.mem_reversePostorder hc hlive
    have hdr : d ∈ g.reversePostorder := h.mem_reversePostorder hc (h.live x d hd)
    exact ⟨d, hd, (number_lt_iff hxr hdr).2 (h.lower x d hd hxe)⟩
  toEntry := ⟨h.sound a ha e (entry_dominates he a), h.sound b hb e (entry_dominates he b)⟩
  ends := by
    obtain ⟨k, m, hk, hm⟩ := h.exists_meets hc ha hb
    exact ⟨k, m, hk, hm, hm.meet_eq hk⟩

end Candidates

section Closed

variable (hc : g.closed = true) (he : g.entry = some e)
include hc he

/-- Before and after every sweep the table holds candidates. -/
theorem Swept.candidates (h : g.Swept e t) : Candidates g e g.rank t := by
  induction h with
  | start => exact candidates_initialIdoms hc he
  | @sweep t u _ hu ih =>
    obtain ⟨v, hv, hcand, -⟩ := ih.sweep_spec hc he (settledTo_zero g e t)
    obtain rfl : u = v := Option.some.inj (hu.symm.trans hv)
    exact hcand

/-- When the turn of a block comes, the table holds candidates, and the candidate of the block can
be refined. -/
theorem TurnOf.spec (h : g.TurnOf e c t) :
    Candidates g e g.rank t ∧ ∃ u, g.refineAt g.rank t c = some u := by
  obtain ⟨s, xs, ys, hs, htail, hxs⟩ := h
  obtain ⟨zs, hzs⟩ := exists_reversePostorder_eq hc he
  have hsplit : g.reversePostorder = [e] ++ xs ++ c :: ys := by
    rw [hzs, List.tail_cons] at htail
    rw [hzs, htail, List.append_assoc, List.singleton_append]
  have hcand := hs.candidates hc he
  obtain ⟨u, hu, hcand', hlive⟩ := hcand.refineAll_spec hc he [] xs (c :: ys) hsplit
    (settledTo_zero g e s) (hcand.live_and_settledTo_entry 1)
  obtain rfl : t = u := Option.some.inj (hxs.symm.trans hu)
  obtain ⟨d, hd, -⟩ := hcand'.exists_refines hc he hsplit fun b hb => (hlive b hb).1
  exact ⟨hcand', _, hd⟩

/-- Whatever meeting point is asked for, the two blocks can climb to it. -/
theorem AsksFor.climbable (h : g.AsksFor t c a b) (ht : Candidates g e g.rank t) :
    g.Climbable e t a b := by
  obtain ⟨p, xs, ys, hpreds, hb⟩ := h
  have hlive : ∀ q ∈ p :: xs ++ a :: ys, (t.up q).isSome = true := fun q hq => by
    rw [← hpreds, List.mem_filter] at hq
    exact hq.2
  obtain ⟨m, hm, hmlive, -⟩ := ht.meetAll_spec xs p (hlive p (by simp))
    fun q hq => hlive q (by simp [hq])
  obtain rfl : b = m := Option.some.inj (hb.symm.trans hm)
  exact ht.climbable hc he (hlive a (by simp)) hmlive

/-- From the first table on the sweeps settle, after one sweep more than blocks are reachable at the
latest. -/
theorem exists_settles : ∃ k t, k ≤ g.reversePostorder.length + 1 ∧
    g.Settles k (g.initialIdoms e) t ∧ g.idomTable? = some t := by
  obtain ⟨t, ht, -⟩ := (candidates_initialIdoms hc he).settle_spec hc he
    (g.reversePostorder.length + 1) (settledTo_zero g e _) (by omega) (by omega)
  obtain ⟨k, hk, hrun⟩ := settle_eq_some_iff.1 ht
  refine ⟨k, t, hk, hrun, ?_⟩
  -- The program has more fuel than that.
  have hfuel : k ≤ g.reversePostorder.length * g.reversePostorder.length + 2 := by
    have := Nat.le_mul_self g.reversePostorder.length
    omega
  have hsettle : g.settle g.rank g.reversePostorder
      (g.reversePostorder.length * g.reversePostorder.length + 2) (g.initialIdoms e) = some t :=
    settle_eq_some_iff.2 ⟨k, hfuel, hrun⟩
  unfold idomTable?
  rw [he, ← hsettle, ← rankTable_eq hc]

end Closed

/-- From any block, reachable or not, the search for any other ends after fewer steps than blocks
are reachable. -/
theorem HasTree.exists_seeks {d : Dominators} (h : g.HasTree d) (a b : BlockId) :
    ∃ k r, k < d.order.length ∧ d.Seeks a k b r ∧ d.climbs a d.order.length b = some r := by
  obtain ⟨e, he, -⟩ := exists_entry_of_closed h.closed
  have hpos : 0 < d.order.length := List.length_pos_of_mem (h.mem_order.2 (reachable_entry he))
  have hrun : ∃ k r, k < d.order.length ∧ d.Seeks a k b r := by
    by_cases hb : g.Reachable b
    · obtain ⟨r, hr, -⟩ := h.climbs_spec (a := a) d.order.length hb (h.rank_lt hb)
      obtain ⟨k, hk, hrun⟩ := Dominators.climbs_eq_some_iff.1 hr
      exact ⟨k, r, hk, hrun⟩
    · -- The chain of an unreachable block is the block alone.
      by_cases hba : b = a
      · exact ⟨0, true, hpos, hba ▸ .met⟩
      · exact ⟨0, false, hpos, .missed hba (h.idom?_of_not_reachable hb)⟩
  obtain ⟨k, r, hk, hrun⟩ := hrun
  exact ⟨k, r, hk, hrun, Dominators.climbs_eq_some_iff.2 ⟨k, hk, hrun⟩⟩

/-! ## The graph of a function -/

/-- On every function whose entry exists and whose reachable blocks branch only to existing blocks,
the dominator computation ends: the sweeps settle; at every turn of a block the candidate can be
refined, and any two blocks whose meeting point is asked for climb to it; and in the tree the search
for any block from any other ends. -/
theorem dominators_ofFunction_ends (f : Function) (e : BlockId) (he : f.entry = some e)
    (hh : f.hasBlock e = true)
    (hs : ∀ b, (Cfg.ofFunction f).Reachable b → ∀ s ∈ f.successors b, f.hasBlock s = true) :
    (∃ k t, k ≤ (Cfg.ofFunction f).reversePostorder.length + 1 ∧
      (Cfg.ofFunction f).Settles k ((Cfg.ofFunction f).initialIdoms e) t ∧
      (Cfg.ofFunction f).idomTable? = some t) ∧
    (∀ c t, (Cfg.ofFunction f).TurnOf e c t →
      (∃ u, (Cfg.ofFunction f).refineAt (Cfg.ofFunction f).rank t c = some u) ∧
      ∀ a b, (Cfg.ofFunction f).AsksFor t c a b → (Cfg.ofFunction f).Climbable e t a b) ∧
    ∃ d, (Cfg.ofFunction f).dominators = .ok d ∧
      ∀ a b, ∃ k r, k < d.order.length ∧ d.Seeks a k b r ∧
        d.climbs a d.order.length b = some r := by
  have hc : (Cfg.ofFunction f).closed = true := closed_ofFunction he hh hs
  have hentry : (Cfg.ofFunction f).entry = some e := he
  refine ⟨exists_settles hc hentry, fun c t hturn => ?_, ?_⟩
  · obtain ⟨hcand, hrefine⟩ := hturn.spec hc hentry
    exact ⟨hrefine, fun a b hasks => hasks.climbable hc hentry hcand⟩
  · obtain ⟨d, hd⟩ := exists_dominators hc
    exact ⟨d, hd, (hasTree_of_dominators hd).exists_seeks⟩

/-- The computation for the knot ends. In its first sweep the turn of the second block of the cycle
asks for the meeting point of the first and the entry, while that block itself has no candidate yet;
and the search that starts at the stray block ends like any other. -/
theorem dominators_knot_ends :
    (∃ k t, k ≤ 5 ∧ (Cfg.ofFunction knot).Settles k ((Cfg.ofFunction knot).initialIdoms ⟨0⟩) t) ∧
      (Cfg.ofFunction knot).Climbable ⟨0⟩ #[some ⟨0⟩, some ⟨0⟩, none, none, none] ⟨1⟩ ⟨0⟩ ∧
      ∃ d, (Cfg.ofFunction knot).dominators = .ok d ∧ ∃ k r, d.Seeks ⟨1⟩ k ⟨4⟩ r := by
  have hw : knot.WellFormed := Function.violation?_eq_none_iff.1 (by decide)
  obtain ⟨⟨k, t, hk, hrun, -⟩, hturns, d, hd, hseeks⟩ :=
    dominators_ofFunction_ends knot ⟨0⟩ (by decide) (by decide)
      fun b _ s hs => hw.hasBlock_of_mem_successors hs
  have hlength : (Cfg.ofFunction knot).reversePostorder.length = 4 := by decide +kernel
  rw [hlength] at hk
  have hturn : (Cfg.ofFunction knot).TurnOf ⟨0⟩ ⟨2⟩ #[some ⟨0⟩, some ⟨0⟩, none, none, none] :=
    ⟨_, [⟨1⟩], [⟨3⟩], .start, by decide +kernel, by decide +kernel⟩
  have hasks : (Cfg.ofFunction knot).AsksFor #[some ⟨0⟩, some ⟨0⟩, none, none, none] ⟨2⟩ ⟨1⟩ ⟨0⟩ :=
    ⟨⟨0⟩, [], [], by decide +kernel, rfl⟩
  obtain ⟨n, r, -, hseek, -⟩ := hseeks ⟨1⟩ ⟨4⟩
  exact ⟨⟨k, t, hk, hrun⟩, (hturns _ _ hturn).2 _ _ hasks, d, hd, n, r, hseek⟩

end Cfg

end LoopHoist
