import LoopHoist.Flow.Graph

/-!
# Paths and dominance

`Path` is a path along the edges of a graph, with the blocks that it visits. Reachability and
dominance are stated by paths alone, without regard to how they are computed: a block is reachable
when some path leads to it from the entry, and `Dominates a b` says that every path from the entry
to `b` visits `a`.

The two facts used everywhere are that dominance passes back along an edge
(`Dominates.of_mem_succ`) and that two blocks which dominate a third are comparable
(`Dominates.comparable`).
-/

namespace LoopHoist

namespace Cfg

variable {g : Cfg} {a b c x : BlockId} {bs cs : List BlockId}

/-! ## Paths -/

/-- A path from one block to another, with the blocks that it visits, the last one first. -/
inductive Path (g : Cfg) (a : BlockId) : BlockId → List BlockId → Prop where
  /-- The path that stays where it is. -/
  | here : Path g a a [a]
  /-- A path followed by one more edge. -/
  | step {b c : BlockId} {bs : List BlockId} (p : Path g a b bs) (h : c ∈ g.succ b) :
    Path g a c (c :: bs)

namespace Path

/-- A path visits its end. -/
theorem target_mem (p : g.Path a b bs) : b ∈ bs := by
  cases p <;> exact List.mem_cons_self

/-- A path visits its start. -/
theorem source_mem (p : g.Path a b bs) : a ∈ bs := by
  induction p with
  | here => exact List.mem_cons_self
  | step p h ih => exact List.mem_cons_of_mem _ ih

/-- The first visited block listed is the end, and before it comes the rest of the path, if any. -/
theorem eq_or_exists_step (p : g.Path a b (x :: bs)) :
    x = b ∧ ((a = b ∧ bs = []) ∨ ∃ c, g.Path a c bs ∧ b ∈ g.succ c) := by
  cases p with
  | here => exact ⟨rfl, .inl ⟨rfl, rfl⟩⟩
  | step p h => exact ⟨rfl, .inr ⟨_, p, h⟩⟩

/-- A path splits at each block that it visits. -/
theorem split {xs ys : List BlockId} (p : g.Path a b (xs ++ x :: ys)) :
    g.Path a x (x :: ys) ∧ g.Path x b (xs ++ [x]) := by
  induction xs generalizing b with
  | nil =>
    obtain ⟨rfl, -⟩ := p.eq_or_exists_step
    exact ⟨p, .here⟩
  | cons y xs ih =>
    obtain ⟨rfl, ⟨-, hnil⟩ | ⟨c, q, hs⟩⟩ := p.eq_or_exists_step
    · exact absurd hnil (by simp)
    · exact ⟨(ih q).1, (ih q).2.step hs⟩

/-- Two paths that meet make one path, which visits what the two visit. -/
theorem trans (p : g.Path a b bs) (q : g.Path b c cs) :
    ∃ ds, g.Path a c ds ∧ ∀ x ∈ ds, x ∈ bs ∨ x ∈ cs := by
  induction q with
  | here => exact ⟨bs, p, fun x hx => .inl hx⟩
  | @step b' c' cs' q h ih =>
    obtain ⟨ds, hds, hmem⟩ := ih
    refine ⟨c' :: ds, hds.step h, fun x hx => ?_⟩
    rcases List.mem_cons.1 hx with rfl | hx
    · exact .inr List.mem_cons_self
    · exact (hmem x hx).imp_right (List.mem_cons_of_mem _)

/-- A path to a visited block that visits only what the path visits up to there. -/
theorem exists_prefix (p : g.Path a b bs) (hx : x ∈ bs) : ∃ cs, g.Path a x cs ∧ cs <:+ bs := by
  induction p with
  | here =>
    obtain rfl := List.mem_singleton.1 hx
    exact ⟨[x], .here, List.suffix_refl _⟩
  | @step b c bs p h ih =>
    rcases List.mem_cons.1 hx with rfl | hx
    · exact ⟨x :: bs, p.step h, List.suffix_refl _⟩
    · obtain ⟨cs, hcs, hsuf⟩ := ih hx
      exact ⟨cs, hcs, hsuf.trans (List.suffix_cons _ _)⟩

/-- The rest of a path after its last visit to a block. -/
theorem exists_last_visit (p : g.Path a b bs) (hx : x ∈ bs) :
    ∃ cs, g.Path x b (cs ++ [x]) ∧ x ∉ cs ∧ ∀ y ∈ cs, y ∈ bs := by
  induction p with
  | here =>
    obtain rfl := List.mem_singleton.1 hx
    exact ⟨[], .here, List.not_mem_nil, fun y hy => absurd hy List.not_mem_nil⟩
  | @step b c bs p h ih =>
    by_cases hxc : x = c
    · subst hxc
      exact ⟨[], .here, List.not_mem_nil, fun y hy => absurd hy List.not_mem_nil⟩
    · obtain ⟨cs, hcs, hnot, hmem⟩ := ih ((List.mem_cons.1 hx).resolve_left hxc)
      refine ⟨c :: cs, hcs.step h, ?_, fun y hy => ?_⟩
      · exact fun h => (List.mem_cons.1 h).elim hxc hnot
      · rcases List.mem_cons.1 hy with rfl | hy
        · exact List.mem_cons_self
        · exact List.mem_cons_of_mem _ (hmem y hy)

/-- Every path can be cut down to one that visits no block twice. -/
theorem exists_nodup (p : g.Path a b bs) : ∃ cs, g.Path a b cs ∧ cs.Nodup ∧ cs ⊆ bs := by
  induction p with
  | here => exact ⟨[a], .here, by simp, List.Subset.refl _⟩
  | @step b c bs p h ih =>
    obtain ⟨cs, hcs, hnd, hsub⟩ := ih
    by_cases hc : c ∈ cs
    · -- The end was visited before: stop there.
      obtain ⟨ds, hds, hsuf⟩ := hcs.exists_prefix hc
      refine ⟨ds, hds, hnd.sublist hsuf.sublist, ?_⟩
      exact fun y hy => List.mem_cons_of_mem _ (hsub (hsuf.subset hy))
    · exact ⟨c :: cs, hcs.step h, List.nodup_cons.2 ⟨hc, hnd⟩, List.cons_subset_cons _ hsub⟩

/-- The first edge of a path that goes anywhere. -/
theorem exists_first (p : g.Path a b bs) (hne : a ≠ b) :
    ∃ s cs, s ∈ g.succ a ∧ g.Path s b cs ∧ ∀ y ∈ cs, y ∈ bs := by
  induction p with
  | here => exact absurd rfl hne
  | @step b c bs p h ih =>
    by_cases hab : a = b
    · subst hab
      refine ⟨c, [c], h, .here, fun y hy => ?_⟩
      rw [List.mem_singleton.1 hy]
      exact List.mem_cons_self
    · obtain ⟨s, cs, hs, hcs, hmem⟩ := ih hab
      refine ⟨s, c :: cs, hs, hcs.step h, fun y hy => ?_⟩
      rcases List.mem_cons.1 hy with rfl | hy
      · exact List.mem_cons_self
      · exact List.mem_cons_of_mem _ (hmem y hy)

end Path

/-! ## Reachability -/

/-- Whether some path leads from the entry to the block. -/
def Reachable (g : Cfg) (b : BlockId) : Prop := ∃ e bs, g.entry = some e ∧ g.Path e b bs

/-- The entry is reachable. -/
theorem reachable_entry {e : BlockId} (he : g.entry = some e) : g.Reachable e := ⟨e, [e], he, .here⟩

/-- A successor of a reachable block is reachable. -/
theorem Reachable.step (h : g.Reachable a) (hs : b ∈ g.succ a) : g.Reachable b := by
  obtain ⟨e, bs, he, p⟩ := h
  exact ⟨e, b :: bs, he, p.step hs⟩

/-- What a path visits from a reachable block on is reachable. -/
theorem Reachable.of_path (h : g.Reachable a) (p : g.Path a b bs) : ∀ x ∈ bs, g.Reachable x := by
  induction p with
  | here => exact fun x hx => List.mem_singleton.1 hx ▸ h
  | step p hs ih =>
    intro x hx
    rcases List.mem_cons.1 hx with rfl | hx
    · exact (ih _ p.target_mem).step hs
    · exact ih x hx

/-! ## Dominance -/

/-- Whether every path from the entry to `b` visits `a`. -/
def Dominates (g : Cfg) (a b : BlockId) : Prop :=
  ∀ e bs, g.entry = some e → g.Path e b bs → a ∈ bs

/-- A block is not dominated by another exactly when some path from the entry avoids that one. -/
theorem not_dominates_iff :
    ¬ g.Dominates a b ↔ ∃ e bs, g.entry = some e ∧ g.Path e b bs ∧ a ∉ bs := by
  constructor
  · intro h
    apply Classical.byContradiction
    intro hno
    exact h fun e bs he p => Classical.byContradiction fun ha => hno ⟨e, bs, he, p, ha⟩
  · rintro ⟨e, bs, he, p, ha⟩ h
    exact ha (h e bs he p)

/-- Every block dominates itself. -/
theorem dominates_refl (g : Cfg) (b : BlockId) : g.Dominates b b := fun _ _ _ p => p.target_mem

/-- The entry dominates every block. -/
theorem entry_dominates {e : BlockId} (he : g.entry = some e) (b : BlockId) : g.Dominates e b := by
  intro e' bs he' p
  obtain rfl : e = e' := Option.some.inj (he.symm.trans he')
  exact p.source_mem

namespace Dominates

/-- Dominance is transitive. -/
theorem trans (hab : g.Dominates a b) (hbc : g.Dominates b c) : g.Dominates a c := by
  intro e bs he p
  obtain ⟨cs, q, hsuf⟩ := p.exists_prefix (hbc e bs he p)
  exact hsuf.subset (hab e cs he q)

/-- What dominates a reachable block is reachable. -/
theorem reachable (h : g.Dominates a b) (hb : g.Reachable b) : g.Reachable a := by
  obtain ⟨e, bs, he, p⟩ := hb
  obtain ⟨cs, q, -⟩ := p.exists_prefix (h e bs he p)
  exact ⟨e, cs, he, q⟩

/-- Dominance passes back along an edge to a block that is not the dominator itself. -/
theorem of_mem_succ (h : g.Dominates a b) (hne : a ≠ b) (hs : b ∈ g.succ c) :
    g.Dominates a c := by
  intro e bs he p
  exact (List.mem_cons.1 (h e _ he (p.step hs))).resolve_left hne

/-- Dominance passes back along a path that avoids the dominator. -/
theorem of_path (h : g.Dominates a b) (p : g.Path c b bs) (ha : a ∉ bs) : g.Dominates a c := by
  intro e cs he q
  obtain ⟨ds, r, hmem⟩ := q.trans p
  exact (hmem a (h e ds he r)).resolve_right ha

/-- Of two blocks that dominate each other at most one is reachable, unless they are one. -/
theorem antisymm (hab : g.Dominates a b) (hba : g.Dominates b a) (hb : g.Reachable b) :
    a = b := by
  apply Classical.byContradiction
  intro hne
  -- A path to `b` without repetition passes `a` on the way, and that part of it passes `b`.
  obtain ⟨e, bs, he, p⟩ := hb
  obtain ⟨cs, q, hnd, -⟩ := p.exists_nodup
  cases q with
  | here => exact hne (List.mem_singleton.1 (hab b _ he .here))
  | @step b' _ cs' q' h =>
    have ha : a ∈ cs' := (List.mem_cons.1 (hab e _ he (q'.step h))).resolve_left hne
    obtain ⟨ds, r, hsuf⟩ := q'.exists_prefix ha
    exact (List.nodup_cons.1 hnd).1 (hsuf.subset (hba e ds he r))

/-- If paths lead to `a` around `b` and to `b` around `a`, every path has one to the same end around
`a` or around `b`. -/
theorem exists_path_around {e : BlockId} {as bs : List BlockId} (pa : g.Path e a as) (hb : b ∉ as)
    (pb : g.Path e b bs) (ha : a ∉ bs) (p : g.Path e c cs) :
    ∃ ds, g.Path e c ds ∧ (a ∉ ds ∨ b ∉ ds) := by
  induction p with
  | here =>
    refine ⟨[e], .here, .inl fun h => ?_⟩
    rw [List.mem_singleton.1 h] at ha
    exact ha pb.source_mem
  | @step c d cs p h ih =>
    obtain ⟨ds, q, hq⟩ := ih
    by_cases hda : d = a
    · exact ⟨as, hda ▸ pa, .inr hb⟩
    · by_cases hdb : d = b
      · exact ⟨bs, hdb ▸ pb, .inl ha⟩
      · -- The end is neither block, so the path goes on around the same one.
        refine ⟨d :: ds, q.step h, ?_⟩
        simp only [List.mem_cons, not_or]
        exact hq.imp (fun hn => ⟨Ne.symm hda, hn⟩) (fun hn => ⟨Ne.symm hdb, hn⟩)

/-- Of two blocks that dominate a third reachable one, one dominates the other. -/
theorem comparable (hac : g.Dominates a c) (hbc : g.Dominates b c) (hc : g.Reachable c) :
    g.Dominates a b ∨ g.Dominates b a := by
  apply Classical.byContradiction
  intro hno
  rw [not_or, not_dominates_iff, not_dominates_iff] at hno
  obtain ⟨⟨e, pb, he, hpb, ha⟩, ⟨e', pa, he', hpa, hb⟩⟩ := hno
  obtain rfl : e = e' := Option.some.inj (he.symm.trans he')
  obtain ⟨e', ps, he', p⟩ := hc
  obtain rfl : e = e' := Option.some.inj (he.symm.trans he')
  obtain ⟨ds, q, hq⟩ := exists_path_around hpa hb hpb ha p
  exact hq.elim (fun h => h (hac e ds he q)) (fun h => h (hbc e ds he q))

end Dominates

end Cfg

end LoopHoist
