import LoopHoist.Flow.LoopForest
import LoopHoist.Proofs.Flow.DominatorTree

/-!
# Natural loops

The body of a loop is found by a search backwards from the latches that stops at the header, so it
holds the header and the reachable blocks from which a path that avoids the header leads to a latch
(`HasTree.mem_loopMembers`). Everything else is by paths: the header dominates the body, the body is
entered through the header alone, a block on the way from a body block to another is in the body,
and two loops of different headers are nested or disjoint. The preheader is outside the body,
dominates it strictly, and is in exactly the other loops around it.
-/

namespace LoopHoist

/-! ## The search -/

section Closure

variable {α : Type} [DecidableEq α] {all : List α} {next : α → List α} {todo seen stop : List α}
  {x : α}

/-- What holds of all seen and all to do, and passes from an element to the next ones, holds of the
closure. The steps of the elements of `stop` are never taken. -/
theorem forall_mem_closure (P : α → Prop) (hstop : stop ⊆ seen) (hseen : ∀ x ∈ seen, P x)
    (htodo : ∀ x ∈ todo, x ∈ all → P x)
    (hnext : ∀ a, P a → a ∉ stop → ∀ x ∈ next a, x ∈ all → P x) :
    ∀ x ∈ closure all next todo seen, P x := by
  induction todo, seen using closure.induct all next with
  | case1 seen =>
    rw [closure]
    exact hseen
  | case2 seen a rest h ih =>
    rw [closure, dif_pos h]
    have ha : P a := htodo a List.mem_cons_self h.1
    refine ih (List.subset_cons_of_subset a hstop) (List.forall_mem_cons.2 ⟨ha, hseen⟩) ?_
    intro x hx hxa
    rcases List.mem_append.1 hx with hx | hx
    · exact hnext a ha (fun hs => h.2 (hstop hs)) x hx hxa
    · exact htodo x (List.mem_cons_of_mem _ hx) hxa
  | case3 seen a rest h ih =>
    rw [closure, dif_neg h]
    exact ih hstop hseen fun x hx => htodo x (List.mem_cons_of_mem _ hx)

/-- Everything seen stays in the closure. -/
theorem subset_closure : seen ⊆ closure all next todo seen := by
  induction todo, seen using closure.induct all next with
  | case1 seen =>
    rw [closure]
    exact List.Subset.refl _
  | case2 seen a rest h ih =>
    rw [closure, dif_pos h]
    exact fun x hx => ih (List.mem_cons_of_mem _ hx)
  | case3 seen a rest h ih =>
    rw [closure, dif_neg h]
    exact ih

/-- Everything to do is in the closure, and with each new element its next ones are. -/
theorem closure_closed (all : List α) (next : α → List α) (todo seen : List α) :
    (∀ x ∈ todo, x ∈ all → x ∈ closure all next todo seen) ∧
    ∀ a ∈ closure all next todo seen, a ∉ seen → ∀ x ∈ next a, x ∈ all →
      x ∈ closure all next todo seen := by
  induction todo, seen using closure.induct all next with
  | case1 seen =>
    rw [closure]
    exact ⟨fun x hx => absurd hx List.not_mem_nil, fun a ha hn => absurd ha hn⟩
  | case2 seen a rest h ih =>
    rw [closure, dif_pos h]
    have ha : a ∈ closure all next (next a ++ rest) (a :: seen) := subset_closure List.mem_cons_self
    refine ⟨fun x hx hxa => ?_, fun b hb hn x hx hxa => ?_⟩
    · rcases List.mem_cons.1 hx with rfl | hx
      · exact ha
      · exact ih.1 x (List.mem_append_right _ hx) hxa
    · by_cases hba : b = a
      · exact ih.1 x (List.mem_append_left _ (hba ▸ hx)) hxa
      · refine ih.2 b hb ?_ x hx hxa
        exact fun hs => (List.mem_cons.1 hs).elim hba hn
  | case3 seen a rest h ih =>
    rw [closure, dif_neg h]
    refine ⟨fun x hx hxa => ?_, ih.2⟩
    rcases List.mem_cons.1 hx with rfl | hx
    · -- Passed over because it was seen before.
      exact subset_closure (Classical.byContradiction fun hs => h ⟨hxa, hs⟩)
    · exact ih.1 x hx hxa

end Closure

namespace Cfg

variable {g : Cfg} {d : Dominators} {a b c h m p t x : BlockId} {bs : List BlockId}
  {l : Loop}

/-- A path between two blocks of which the first dominates the second avoids what strictly
dominates the first. -/
theorem Dominates.exists_path_avoiding (hab : g.Dominates a b) (hca : g.Dominates c a)
    (hne : c ≠ a) (hb : g.Reachable b) : ∃ bs, g.Path a b bs ∧ c ∉ bs := by
  obtain ⟨e, bs, he, q⟩ := hb
  obtain ⟨cs, r, hcs, -⟩ := q.exists_last_visit (hab e bs he q)
  refine ⟨_, r, fun hc => ?_⟩
  have hc : c ∈ cs := (List.mem_append.1 hc).resolve_right (by simpa using hne)
  -- Otherwise the way on from `c` does not pass `a`, so `a` dominates `c` as well.
  obtain ⟨us, vs, rfl⟩ := List.append_of_mem hc
  rw [List.append_assoc] at r
  have hn : a ∉ us ++ [c] := fun ha => hcs (by
    rw [List.append_cons]
    exact List.mem_append_left _ ha)
  have hac : g.Dominates a c := hab.of_path r.split.2 hn
  exact hne (hca.antisymm hac (hab.reachable ⟨e, bs, he, q⟩))

/-! ## Bodies by paths -/

/-- What makes a block a latch of a header. -/
structure IsLatch (g : Cfg) (h t : BlockId) : Prop where
  /-- The latch is reachable. -/
  reachable : g.Reachable t
  /-- It has an edge to the header. -/
  edge : h ∈ g.succ t
  /-- The header dominates it. -/
  dominates : g.Dominates h t

/-- Whether a block is in the natural loop of a header: it is the header, or it is reachable and a
path that avoids the header leads from it to a latch. -/
def InBody (g : Cfg) (h x : BlockId) : Prop :=
  x = h ∨ (g.Reachable x ∧ ∃ t bs, g.IsLatch h t ∧ g.Path x t bs ∧ h ∉ bs)

/-- A header is reachable. -/
theorem IsLatch.reachable_header (ht : g.IsLatch h t) : g.Reachable h :=
  ht.dominates.reachable ht.reachable

/-- A latch is in the body. -/
theorem IsLatch.inBody (ht : g.IsLatch h t) : g.InBody h t := by
  by_cases hth : t = h
  · exact .inl hth
  · exact .inr ⟨ht.reachable, t, [t], ht, .here, by simpa using Ne.symm hth⟩

namespace InBody

/-- The header dominates the body. -/
theorem dominates (hx : g.InBody h x) : g.Dominates h x := by
  rcases hx with rfl | ⟨-, t, bs, ht, q, hn⟩
  · exact dominates_refl g x
  · exact ht.dominates.of_path q hn

/-- The body is reachable. -/
theorem reachable (hx : g.InBody h x) (ht : g.IsLatch h t) : g.Reachable x := by
  rcases hx with rfl | ⟨hx, -⟩
  · exact ht.reachable_header
  · exact hx

/-- What leads to a body block around the header is in the body. -/
theorem of_path (hb : g.InBody h b) (ha : g.Reachable a) (q : g.Path a b bs) (hn : h ∉ bs) :
    g.InBody h a := by
  rcases hb with rfl | ⟨-, t, cs, ht, r, hn'⟩
  · exact absurd q.target_mem hn
  · obtain ⟨ds, s, hmem⟩ := q.trans r
    exact .inr ⟨ha, t, ds, ht, s, fun hd => (hmem h hd).elim hn hn'⟩

/-- The reachable predecessors of a body block other than the header are in the body. -/
theorem of_mem_succ (hb : g.InBody h b) (hne : b ≠ h) (hs : b ∈ g.succ a) (ha : g.Reachable a) :
    g.InBody h a := by
  by_cases hah : a = h
  · exact .inl hah
  · refine hb.of_path ha (Path.here.step hs) fun hm => ?_
    rcases List.mem_cons.1 hm with rfl | hm
    · exact hne rfl
    · exact hah (List.mem_singleton.1 hm).symm

/-- What lies between the header and a body block in the order of dominance is in the body. -/
theorem of_dominates (hb : g.InBody h b) (hr : g.Reachable b) (hha : g.Dominates h a)
    (hab : g.Dominates a b) : g.InBody h a := by
  by_cases hah : h = a
  · exact .inl hah.symm
  · obtain ⟨bs, q, hn⟩ := hab.exists_path_avoiding hha hah hr
    exact hb.of_path (hab.reachable hr) q hn

/-- The body of a header in a body is inside it. -/
theorem trans (hm : g.InBody h m) (hx : g.InBody m x) (hr : g.Reachable m) : g.InBody h x := by
  rcases hx with rfl | ⟨hx, t, bs, ht, q, hn⟩
  · exact hm
  · by_cases hmh : m = h
    · exact .inr ⟨hx, t, bs, hmh ▸ ht, q, hmh ▸ hn⟩
    · -- The way to the inner latch avoids the outer header, which dominates the inner one.
      refine (hm.of_mem_succ hmh ht.edge ht.reachable).of_path hx q fun hb => ?_
      obtain ⟨us, vs, rfl⟩ := List.append_of_mem hb
      have hdom : g.Dominates m h := ht.dominates.of_path q.split.2 fun hc => hn (by
        rw [List.append_cons]
        exact List.mem_append_left _ hc)
      exact hmh (hdom.antisymm hm.dominates (hm.dominates.reachable hr))

/-- Two headers in the bodies of each other are one. -/
theorem antisymm (hm : g.InBody h m) (hh : g.InBody m h) (hr : g.Reachable m) : h = m :=
  hm.dominates.antisymm hh.dominates hr

/-- Of two loops with a common block one has the header of the other in its body. -/
theorem nested (hx : g.InBody h x) (hx' : g.InBody m x) (hr : g.Reachable x) :
    g.InBody h m ∨ g.InBody m h := by
  rcases hx.dominates.comparable hx'.dominates hr with hhm | hmh
  · exact .inl (hx.of_dominates hr hhm hx'.dominates)
  · exact .inr (hx'.of_dominates hr hmh hx.dominates)

end InBody

/-! ## The way into a loop -/

/-- What a block with a single successor strictly dominates is dominated by that successor. -/
theorem Dominates.of_succ_eq (hs : g.succ p = [h]) (hp : g.Dominates p x) (hne : p ≠ x) :
    g.Dominates h x := by
  intro e bs he q
  obtain ⟨cs, r, -, hcs⟩ := q.exists_last_visit (hp e bs he q)
  obtain ⟨s, ds, hmem, r', hds⟩ := r.exists_first hne
  rw [hs] at hmem
  obtain rfl := List.mem_singleton.1 hmem
  rcases List.mem_append.1 (hds s r'.source_mem) with hsc | hsp
  · exact hcs s hsc
  · exact List.mem_singleton.1 hsp ▸ hp e bs he q

/-- What makes a block the preheader of a header. -/
structure IsGate (g : Cfg) (h p : BlockId) : Prop where
  /-- It is outside the body. -/
  outside : ¬ g.InBody h p
  /-- The header is its only successor. -/
  succ : g.succ p = [h]
  /-- It dominates the header. -/
  dominates : g.Dominates p h
  /-- It is the only way into the header from outside the body. -/
  only : ∀ a, h ∈ g.succ a → ¬ g.InBody h a → a = p

namespace IsGate

variable (hp : g.IsGate h p)
include hp

/-- The header comes after its preheader. -/
theorem edge : h ∈ g.succ p := by
  rw [hp.succ]
  exact List.mem_cons_self

/-- The preheader dominates the body. -/
theorem dominates_body (hx : g.InBody h x) : g.Dominates p x := hp.dominates.trans hx.dominates

/-- The preheader is not a block of the body. -/
theorem ne_of_inBody (hx : g.InBody h x) : p ≠ x := fun h' => hp.outside (h' ▸ hx)

/-- Nothing in the body dominates the preheader. -/
theorem not_dominates (hx : g.InBody h x) (hr : g.Reachable p) : ¬ g.Dominates x p := fun hd =>
  hp.ne_of_inBody hx (hd.antisymm (hp.dominates_body hx) hr).symm

/-- What dominates a body block from outside the body dominates the preheader. -/
theorem dominates_of_outside (hc : ¬ g.InBody h c) (hx : g.InBody h x) (hr : g.Reachable x)
    (hcx : g.Dominates c x) : g.Dominates c p := by
  have hne : c ≠ h := fun hch => hc (.inl hch)
  have hch : g.Dominates c h := (hcx.comparable hx.dominates hr).resolve_right fun hhc =>
    hc (hx.of_dominates hr hhc hcx)
  exact hch.of_mem_succ hne hp.edge

/-- Control enters the body from outside from the preheader to the header. -/
theorem eq_of_entering (ha : ¬ g.InBody h a) (hr : g.Reachable a) (hs : b ∈ g.succ a)
    (hb : g.InBody h b) : a = p ∧ b = h := by
  have hbh : b = h := Classical.byContradiction fun hne => ha (hb.of_mem_succ hne hs hr)
  exact ⟨hp.only a (hbh ▸ hs) ha, hbh⟩

/-- The preheader is in exactly the other loops whose body has the header. -/
theorem inBody_iff (ht : g.IsLatch m t) (hr : g.Reachable p) :
    g.InBody m p ↔ g.InBody m h ∧ h ≠ m := by
  constructor
  · intro hm
    have hhm : h ≠ m := fun hhm => hp.outside (hhm ▸ hm)
    refine ⟨?_, hhm⟩
    by_cases hmp : m = p
    · -- The header of the outer loop is the preheader: the way to its latch passes the header.
      subst hmp
      have hmt : m ≠ t := fun hmt => hhm (by
        have := ht.edge
        rw [← hmt, hp.succ] at this
        exact (List.mem_singleton.1 this).symm)
      exact ht.inBody.of_dominates ht.reachable hp.dominates
        (ht.dominates.of_succ_eq hp.succ hmt)
    · obtain ⟨-, u, bs, hu, q, hn⟩ := hm.resolve_left (Ne.symm hmp)
      have hpu : p ≠ u := fun hpu => hhm (by
        have := hu.edge
        rw [← hpu, hp.succ] at this
        exact (List.mem_singleton.1 this).symm)
      obtain ⟨s, cs, hs, r, hcs⟩ := q.exists_first hpu
      rw [hp.succ] at hs
      obtain rfl := List.mem_singleton.1 hs
      exact .inr ⟨hr.step hp.edge, u, cs, hu, r, fun hmc => hn (hcs m hmc)⟩
  · exact fun hm => hm.1.of_mem_succ hm.2 hp.edge hr

end IsGate

/-! ## Computed loops -/

/-- What makes a loop one of the natural loops of a graph. -/
structure IsLoop (g : Cfg) (d : Dominators) (l : Loop) : Prop where
  /-- It is the loop of its header. -/
  eq : l = g.loopAt d l.header
  /-- It has a latch. -/
  latches : g.latches d l.header ≠ []

/-- The loops of the forest are natural loops. -/
theorem isLoop_of_mem (hl : l ∈ (g.loopForest d).loops) : g.IsLoop d l := by
  obtain ⟨b, hb, rfl⟩ := List.mem_map.1 hl
  refine ⟨rfl, fun hn => ?_⟩
  have := (List.mem_filter.1 hb).2
  rw [show (g.loopAt d b).header = b from rfl] at hn
  rw [hn] at this
  cases this

namespace HasTree

variable (ht : g.HasTree d)
include ht

/-- The latches are those of the paths. -/
theorem mem_latches_iff : t ∈ g.latches d h ↔ g.IsLatch h t := by
  rw [latches, List.mem_filter, mem_preds, Bool.and_eq_true, ht.reachable_iff, ht.dominates_iff]
  exact ⟨fun hx => ⟨hx.2.1, hx.1, hx.2.2.2.2⟩,
    fun hx => ⟨hx.edge, hx.reachable, hx.reachable_header, hx.reachable, hx.dominates⟩⟩

/-- The body that is found is the body by paths. -/
theorem mem_loopMembers : x ∈ g.loopMembers d h ↔ g.InBody h x := by
  unfold loopMembers
  constructor
  · refine forall_mem_closure (g.InBody h) (List.Subset.refl _) ?_ ?_ ?_ x
    · exact fun y hy => .inl (List.mem_singleton.1 hy)
    · exact fun t hl _ => (ht.mem_latches_iff.1 hl).inBody
    · intro a ha hah y hy hyr
      exact ha.of_mem_succ (fun h' => hah (h' ▸ List.mem_cons_self)) (mem_preds.1 hy)
        (ht.mem_order.1 hyr)
  · obtain ⟨htodo, hclosed⟩ := closure_closed d.order g.preds (g.latches d h) [h]
    rintro (rfl | ⟨hx, t, bs, hl, q, hn⟩)
    · exact subset_closure List.mem_cons_self
    · have hlast := htodo t (ht.mem_latches_iff.2 hl) (ht.mem_order.2 hl.reachable)
      clear hl
      -- Backwards along the path, each block is found because the next one is.
      induction q with
      | here => exact hlast
      | @step b c bs q hs ih =>
        refine ih (fun hb => hn (List.mem_cons_of_mem _ hb)) ?_
        refine hclosed c hlast (fun hc => hn ?_) b (mem_preds.2 hs)
          (ht.mem_order.2 (hx.of_path q b q.target_mem))
        exact List.mem_singleton.1 hc ▸ List.mem_cons_self

/-- The blocks of a loop are its body. -/
theorem mem_blocks_iff (hl : g.IsLoop d l) : x ∈ l.blocks ↔ g.InBody l.header x := by
  rw [hl.eq]
  simp only [loopAt, List.mem_filter, List.contains_iff_mem, ht.mem_loopMembers]
  refine and_iff_right_of_imp fun hx => mem_nodes.2 ?_
  obtain ⟨t, hmem⟩ := List.exists_mem_of_ne_nil _ hl.latches
  exact has_of_reachable ht.closed (hx.reachable (ht.mem_latches_iff.1 hmem))

/-- A loop contains its body. -/
theorem contains_iff (hl : g.IsLoop d l) : l.contains x = true ↔ g.InBody l.header x := by
  rw [Loop.contains, List.contains_iff_mem]
  exact ht.mem_blocks_iff hl

/-- A loop has a latch. -/
theorem exists_isLatch (hl : g.IsLoop d l) : ∃ t, g.IsLatch l.header t := by
  obtain ⟨t, hmem⟩ := List.exists_mem_of_ne_nil _ hl.latches
  exact ⟨t, ht.mem_latches_iff.1 hmem⟩

/-- The blocks of a loop are reachable. -/
theorem reachable_of_contains (hl : g.IsLoop d l) (hx : l.contains x = true) : g.Reachable x := by
  obtain ⟨t, hlatch⟩ := ht.exists_isLatch hl
  exact ((ht.contains_iff hl).1 hx).reachable hlatch

/-- The preheader that is found is the only way into the loop, and reachable. -/
theorem isGate_of_preheader (hl : g.IsLoop d l) (hp : l.preheader = some p) :
    g.IsGate l.header p ∧ g.Reachable p := by
  rw [hl.eq] at hp
  simp only [loopAt, preheader?] at hp
  split at hp
  · next q hq =>
    split at hp
    · next hc =>
      obtain rfl := Option.some.inj hp
      rw [Bool.and_eq_true, decide_eq_true_eq] at hc
      obtain ⟨hr, -, hdom⟩ := ht.dominates_iff.1 hc.2
      have hmem : ∀ a, a ∈ [q] ↔ l.header ∈ g.succ a ∧ ¬ g.InBody l.header a := fun a => by
        rw [← hq, List.mem_filter, mem_preds, ← ht.mem_loopMembers]
        simp
      refine ⟨⟨((hmem q).1 List.mem_cons_self).2, hc.1, hdom, fun a hs hn => ?_⟩, hr⟩
      exact List.mem_singleton.1 ((hmem a).2 ⟨hs, hn⟩)
    · cases hp
  · cases hp

end HasTree

end Cfg

end LoopHoist
