import LoopHoist.Proofs.Flow.Candidates
import LoopHoist.Proofs.Flow.DepthFirst

/-!
# Sweeps settle on the dominators

A block on the chain of another that does not dominate it is avoided by some path. Such blocks
disappear sweep by sweep: after `k` sweeps whatever is on the chain of a block is on every path of
at most `k` blocks to it (`SettledTo`, `Candidates.sweep_spec`). As every path can be cut down to
one without repetition, as many sweeps as there are reachable blocks leave only dominators
(`Candidates.onChain_iff`), and then the table is determined (`Candidates.eq_of_settledTo`), so a
further sweep changes nothing and the iteration stops in time (`Candidates.settle_spec`).
-/

namespace LoopHoist

namespace Cfg

variable {g : Cfg} {e : BlockId} {rank : BlockId → Nat} {t u : IdomTable} {a b c d : BlockId}
  {k : Nat}

/-- Whether the chain of a block has no block off a path of at most `k` blocks to it; if there is
such a path, the block has a candidate. -/
def SettledTo (g : Cfg) (e : BlockId) (t : IdomTable) (k : Nat) (b : BlockId) : Prop :=
  ∀ bs, g.Path e b bs → bs.length ≤ k → (t.up b).isSome = true ∧ ∀ a, t.OnChain b a → a ∈ bs

/-- What is settled for long paths is settled for short ones. -/
theorem SettledTo.mono {m : Nat} (h : SettledTo g e t m b) (hk : k ≤ m) : SettledTo g e t k b :=
  fun bs p hbs => h bs p (Nat.le_trans hbs hk)

/-- There is no path of no block, so nothing is needed to be settled for such paths. -/
theorem settledTo_zero (g : Cfg) (e : BlockId) (t : IdomTable) (b : BlockId) :
    SettledTo g e t 0 b := fun bs p hbs => by
  have := List.length_pos_of_mem p.target_mem
  omega

namespace Candidates

/-- The chain of the entry is the entry alone. -/
theorem settledTo_entry (h : Candidates g e rank t) (k : Nat) : SettledTo g e t k e := by
  refine fun bs p _ => ⟨by rw [h.root]; rfl, fun a ha => ?_⟩
  by_cases hae : a = e
  · exact hae ▸ p.source_mem
  · have := h.rank_lt ha hae
    rw [h.rank_root] at this
    omega

/-! ## One refinement -/

section Refines

variable (h : Candidates g e rank t) (hr : Refines g e rank t c d)
include h hr

/-- A refined block is settled for paths of one block more than its predecessors. -/
theorem settledTo_refined_self (hk : ∀ b, SettledTo g e t k b) :
    SettledTo g e (t.set c d) (k + 1) c := by
  intro bs p hbs
  refine ⟨by rw [h.up_refined hr, if_pos rfl]; rfl, fun a ha => ?_⟩
  cases p with
  | here => exact absurd rfl hr.ne_entry
  | @step q _ cs p hs =>
    by_cases hac : a = c
    · exact hac ▸ List.mem_cons_self
    · -- The chain goes on with that of the meeting point, which is on the chain of `q`.
      have had : (t.set c d).OnChain d a := ha.of_up hac (by rw [h.up_refined hr, if_pos rfl])
      rcases had.of_set (h.index_lt hr) with had | ⟨hdc, -⟩
      · obtain ⟨hq, hchain⟩ := hk q cs p (by simpa using hbs)
        exact List.mem_cons_of_mem _ (hchain a ((hr.meets.onChain_iff a).1 had q hs hq))
      · exact absurd hdc (h.not_onChain_refined hr)

/-- A refinement keeps other blocks as settled as they are. -/
theorem settledTo_refined {m : Nat} (hk : ∀ b, SettledTo g e t k b) (hm : m ≤ k + 1)
    (hb : SettledTo g e t m b) : SettledTo g e (t.set c d) m b := by
  intro bs p hbs
  obtain ⟨hlive, hchain⟩ := hb bs p hbs
  refine ⟨h.live_refined hr hlive, fun a ha => ?_⟩
  rcases ha.of_set (h.index_lt hr) with ha | ⟨hbc, hca⟩
  · exact hchain a ha
  · -- The chain meets the refined block, so the path does, and has a shorter path to it.
    obtain ⟨cs, q, hsuf⟩ := p.exists_prefix (hchain c hbc)
    have hcs : cs.length ≤ k + 1 := by
      have := hsuf.sublist.length_le
      omega
    exact hsuf.subset ((h.settledTo_refined_self hr hk cs q hcs).2 a hca)

end Refines

/-! ## One sweep -/

/-- When the turn of a block comes, all blocks before it in the reverse postorder having a
candidate, its candidate is replaced by the meeting point of its predecessors. -/
theorem exists_refines (hc : g.closed = true) (he : g.entry = some e) {xs ys : List BlockId}
    (hsplit : g.reversePostorder = e :: xs ++ c :: ys) (h : Candidates g e g.rank t)
    (hlive : ∀ b ∈ e :: xs, (t.up b).isSome = true) :
    ∃ d, g.refineAt g.rank t c = some (t.set c d) ∧ Refines g e g.rank t c d := by
  have hne : c ≠ e := by
    have hn := g.reversePostorder_nodup
    rw [hsplit] at hn
    exact fun hce => (List.nodup_append.1 hn).2.2 e List.mem_cons_self c List.mem_cons_self
      hce.symm
  have hreach : g.Reachable c := (mem_reversePostorder_iff hc).1 (by rw [hsplit]; simp)
  obtain ⟨p, hp, hs, hlt⟩ := exists_pred_rank_lt hc hreach fun h' =>
    hne (Option.some.inj (h'.symm.trans he))
  -- The predecessor of lower rank comes before the block.
  have hpxs : p ∈ e :: xs := by
    rw [rank_eq_length hsplit] at hlt
    have hpm := (mem_reversePostorder_iff hc).2 hp
    rw [rank, hsplit, List.idxOf_append] at hlt
    split at hlt
    · next hpxs => exact hpxs
    · omega
  have hhas := has_of_reachable hc hreach
  obtain ⟨d, hd, hmeets⟩ := h.refineAt_spec hhas (hlive p hpxs) hs
  exact ⟨d, hd,
    { has := hhas
      ne_entry := hne
      meets := hmeets
      pred := ⟨p, hlive p hpxs, hs, hlt⟩ }⟩

/-- The refinements of blocks one after the other: each is the turn of a block when all before it
in the reverse postorder were refined. -/
theorem refineAll_spec (hc : g.closed = true) (he : g.entry = some e) (xs ys zs : List BlockId)
    (hsplit : g.reversePostorder = e :: xs ++ ys ++ zs) (h : Candidates g e g.rank t)
    (hk : ∀ b, SettledTo g e t k b)
    (hxs : ∀ b ∈ e :: xs, (t.up b).isSome = true ∧ SettledTo g e t (k + 1) b) :
    ∃ u, ys.foldlM (fun t b => g.refineAt g.rank t b) t = some u ∧ Candidates g e g.rank u ∧
      ∀ b ∈ e :: xs ++ ys, (u.up b).isSome = true ∧ SettledTo g e u (k + 1) b := by
  induction ys generalizing xs t with
  | nil =>
    rw [List.append_nil]
    exact ⟨t, rfl, h, hxs⟩
  | cons c ys ih =>
    have hturn : g.reversePostorder = e :: xs ++ c :: (ys ++ zs) := by
      rw [hsplit, List.append_assoc]
      rfl
    obtain ⟨d, hd, hr⟩ := h.exists_refines hc he hturn fun b hb => (hxs b hb).1
    have hnext : ∀ b ∈ e :: (xs ++ [c]),
        ((t.set c d).up b).isSome = true ∧ SettledTo g e (t.set c d) (k + 1) b := fun b hb => by
      rw [← List.cons_append, List.mem_append, List.mem_singleton] at hb
      rcases hb with hb | rfl
      · exact ⟨h.live_refined hr (hxs b hb).1,
          h.settledTo_refined hr hk (Nat.le_refl _) (hxs b hb).2⟩
      · exact ⟨by rw [h.up_refined hr, if_pos rfl]; rfl, h.settledTo_refined_self hr hk⟩
    have hmove : e :: (xs ++ [c]) ++ ys = e :: xs ++ c :: ys := by simp
    obtain ⟨u, hu, hcand, hset⟩ := ih (xs ++ [c]) (by rw [hmove, hsplit]) (h.refined hr)
      (fun b => h.settledTo_refined hr hk (Nat.le_succ k) (hk b)) hnext
    refine ⟨u, ?_, hcand, hmove ▸ hset⟩
    rw [List.foldlM_cons, hd]
    exact hu

/-- The entry has itself as its candidate, and is settled before the first turn of a sweep. -/
theorem live_and_settledTo_entry (h : Candidates g e g.rank t) (k : Nat) :
    ∀ b ∈ [e], (t.up b).isSome = true ∧ SettledTo g e t k b := fun b hb => by
  rw [List.mem_singleton.1 hb, h.root]
  exact ⟨rfl, h.settledTo_entry k⟩

/-- A sweep settles every block for paths of one block more. -/
theorem sweep_spec (hc : g.closed = true) (he : g.entry = some e) (h : Candidates g e g.rank t)
    (hk : ∀ b, SettledTo g e t k b) :
    ∃ u, g.sweep g.rank g.reversePostorder t = some u ∧ Candidates g e g.rank u ∧
      ∀ b, SettledTo g e u (k + 1) b := by
  obtain ⟨ys, hsplit⟩ := exists_reversePostorder_eq hc he
  obtain ⟨u, hu, hcand, hset⟩ := h.refineAll_spec hc he [] ys [] (by simp [hsplit]) hk
    (h.live_and_settledTo_entry (k + 1))
  refine ⟨u, ?_, hcand, fun b bs p hbs => ?_⟩
  · rw [sweep, hsplit]
    exact hu
  · have hb : b ∈ g.reversePostorder := (mem_reversePostorder_iff hc).2 ⟨e, bs, he, p⟩
    rw [hsplit] at hb
    exact (hset b hb).2 bs p hbs

/-! ## All sweeps -/

/-- Once settled for paths of as many blocks as are reachable, chains hold the dominators and
nothing else. -/
theorem onChain_iff (hc : g.closed = true) (he : g.entry = some e) (h : Candidates g e g.rank t)
    (hk : ∀ b, SettledTo g e t g.reversePostorder.length b) (hb : g.Reachable b) :
    (t.up b).isSome = true ∧ ∀ a, t.OnChain b a ↔ g.Dominates a b := by
  -- A path without repetition has no more blocks than are reachable.
  have hcut : ∀ bs, g.Path e b bs → ∃ cs, g.Path e b cs ∧
      cs.length ≤ g.reversePostorder.length ∧ cs ⊆ bs := fun bs p => by
    obtain ⟨cs, q, hnd, hsub⟩ := p.exists_nodup
    refine ⟨cs, q, hnd.length_le_of_subset fun x hx => ?_, hsub⟩
    exact (mem_reversePostorder_iff hc).2 ((reachable_entry he).of_path q x hx)
  obtain ⟨e', bs, he', p⟩ := hb
  obtain rfl : e = e' := Option.some.inj (he.symm.trans he')
  have hlive : (t.up b).isSome = true := by
    obtain ⟨cs, q, hcs, -⟩ := hcut bs p
    exact (hk b cs q hcs).1
  refine ⟨hlive, fun a => ⟨fun ha e' bs he' p => ?_, h.sound b hlive a⟩⟩
  obtain rfl : e = e' := Option.some.inj (he.symm.trans he')
  obtain ⟨cs, q, hcs, hsub⟩ := hcut bs p
  exact hsub ((hk b cs q hcs).2 a ha)

/-- If the chains of two tables hold the dominators, one candidate is on the chain of the other. -/
theorem candidate_onChain_of_onChain_iff (h : Candidates g e rank t)
    (ht : ∀ a, t.OnChain b a ↔ g.Dominates a b) (hu' : ∀ a, u.OnChain b a ↔ g.Dominates a b)
    (hb : b ≠ e) {a d : BlockId} (ha : t.up b = some a) (hd : u.up b = some d) :
    u.OnChain d a := by
  have hdom : g.Dominates a b := (ht a).1 (.up ha .here)
  refine ((hu' a).2 hdom).of_up (fun hab => ?_) hd
  have := h.lower b a ha hb
  rw [hab] at this
  omega

/-- There is only one table whose chains hold the dominators. -/
theorem eq_of_settledTo (hc : g.closed = true) (he : g.entry = some e)
    (h : Candidates g e g.rank t) (hu : Candidates g e g.rank u)
    (ht : ∀ b, SettledTo g e t g.reversePostorder.length b)
    (hu' : ∀ b, SettledTo g e u g.reversePostorder.length b) : t = u := by
  have hup : ∀ b, t.up b = u.up b := fun b => by
    by_cases hb : g.Reachable b
    · obtain ⟨hlt, hct⟩ := h.onChain_iff hc he ht hb
      obtain ⟨hlu, hcu⟩ := hu.onChain_iff hc he hu' hb
      obtain ⟨a, ha⟩ := Option.isSome_iff_exists.1 hlt
      obtain ⟨d, hd⟩ := Option.isSome_iff_exists.1 hlu
      by_cases hbe : b = e
      · rw [hbe, h.root, hu.root]
      · have hda := h.candidate_onChain_of_onChain_iff hct hcu hbe ha hd
        have had := hu.candidate_onChain_of_onChain_iff hcu hct hbe hd ha
        have had' : a = d := Classical.byContradiction fun hne => by
          have := hu.rank_lt hda hne
          have := h.rank_lt had (Ne.symm hne)
          omega
        rw [ha, hd, had']
    · have hn : ∀ {v : IdomTable}, Candidates g e g.rank v → v.up b = none := fun hv =>
        Option.not_isSome_iff_eq_none.1 fun hs => hb (hv.reachable b hs)
      rw [hn h, hn hu]
  apply Array.ext (h.size.trans hu.size.symm)
  intro i hi hi'
  have := hup ⟨i⟩
  simp only [IdomTable.up, Array.getElem?_eq_getElem hi, Array.getElem?_eq_getElem hi'] at this
  exact this

/-- Sweeps go on from any table on until they have settled all, and stop before the fuel does. -/
theorem settle_spec (hc : g.closed = true) (he : g.entry = some e) (fuel : Nat)
    (h : Candidates g e g.rank t) (hk : ∀ b, SettledTo g e t k b)
    (hf : g.reversePostorder.length < fuel + k) (hf0 : 0 < fuel) :
    ∃ u, g.settle g.rank g.reversePostorder fuel t = some u ∧ Candidates g e g.rank u ∧
      ∀ b, SettledTo g e u g.reversePostorder.length b := by
  induction fuel generalizing t k with
  | zero => omega
  | succ fuel ih =>
    obtain ⟨u, hu, hcand, hset⟩ := h.sweep_spec hc he hk
    simp only [settle, hu]
    by_cases hut : u = t
    · -- A table that a sweep does not change is settled for paths of any length.
      subst hut
      have hall : ∀ m, ∀ b, SettledTo g e u m b := fun m => by
        induction m with
        | zero => exact settledTo_zero g e u
        | succ m ihm =>
          obtain ⟨v, hv, -, hset'⟩ := h.sweep_spec hc he ihm
          obtain rfl : u = v := Option.some.inj (hu.symm.trans hv)
          exact hset'
      exact ⟨u, by rw [if_pos rfl], hcand, hall _⟩
    · rw [if_neg hut]
      -- Otherwise the table was not settled yet.
      have hkn : k < g.reversePostorder.length := Nat.lt_of_not_le fun hle =>
        hut (hcand.eq_of_settledTo hc he h (fun b => (hset b).mono (by omega))
          fun b => (hk b).mono hle)
      exact ih hcand hset (by omega) (by omega)

end Candidates

/-- The first table holds candidates. -/
theorem candidates_initialIdoms (hc : g.closed = true) (he : g.entry = some e) :
    Candidates g e g.rank (g.initialIdoms e) := by
  have hh : e.index < (Array.replicate g.size (none : Option BlockId)).size := by
    rw [Array.size_replicate]
    exact of_decide_eq_true (has_of_reachable hc (reachable_entry he))
  have hup : ∀ b, (g.initialIdoms e).up b = if b = e then some e else none := fun b => by
    rw [initialIdoms, IdomTable.up_set hh]
    split
    · rfl
    · rw [IdomTable.up, Array.getElem?_replicate]
      split <;> rfl
  have heq : ∀ {b d}, (g.initialIdoms e).up b = some d → b = e ∧ d = e := fun {b d} h => by
    rw [hup] at h
    split at h
    · next hb => exact ⟨hb, (Option.some.inj h).symm⟩
    · cases h
  have hlive : ∀ {b}, ((g.initialIdoms e).up b).isSome = true → b = e := fun h => by
    obtain ⟨d, hd⟩ := Option.isSome_iff_exists.1 h
    exact (heq hd).1
  exact
    { size := by rw [initialIdoms, IdomTable.set, Array.size_setIfInBounds, Array.size_replicate]
      rank_root := rank_entry hc he
      root := by rw [hup, if_pos rfl]
      lower := fun b d h hb => absurd (heq h).1 hb
      live := fun b d h => by rw [(heq h).2, hup, if_pos rfl]; rfl
      path := fun b d h => by
        obtain ⟨rfl, rfl⟩ := heq h
        exact ⟨_, .here, fun x hx => List.mem_singleton.1 hx ▸ Nat.le_refl _⟩
      reachable := fun b h => hlive h ▸ reachable_entry he
      sound := fun b h a ha => by
        obtain rfl := hlive h
        exact List.mem_singleton.1 (ha b [b] he .here) ▸ .here }

/-- The ranks in the table are those of the blocks. -/
theorem rankTable_eq (hc : g.closed = true) :
    (fun b : BlockId => (g.rankTable g.reversePostorder).getD b.index g.reversePostorder.length) =
      g.rank := by
  funext b
  by_cases hb : g.has b = true
  · exact getD_rankTable hb _
  · -- A block that does not exist is not listed.
    have hn : b ∉ g.reversePostorder := fun h =>
      hb (has_of_reachable hc ((mem_reversePostorder_iff hc).1 h))
    have hi : ¬ b.index < (g.rankTable g.reversePostorder).size := by
      simpa [rankTable, nodes, has] using hb
    rw [Array.getD_eq_getD_getElem?, Array.getElem?_eq_none (by omega), rank,
      List.idxOf_eq_length hn]
    rfl

/-- On a closed graph the iteration ends with a table whose chains hold the dominators. -/
theorem exists_idomTable? (hc : g.closed = true) (he : g.entry = some e) :
    ∃ t, g.idomTable? = some t ∧ Candidates g e g.rank t ∧
      ∀ b, g.Reachable b → (t.up b).isSome = true ∧ ∀ a, t.OnChain b a ↔ g.Dominates a b := by
  have h0 := candidates_initialIdoms hc he
  obtain ⟨t, ht, hcand, hset⟩ := h0.settle_spec hc he
    (g.reversePostorder.length * g.reversePostorder.length + 2) (settledTo_zero g e _)
    (by have := Nat.le_mul_self g.reversePostorder.length; omega) (by omega)
  refine ⟨t, ?_, hcand, fun b hb => hcand.onChain_iff hc he hset hb⟩
  unfold idomTable?
  rw [he, ← ht, ← rankTable_eq hc]

end Cfg

end LoopHoist
