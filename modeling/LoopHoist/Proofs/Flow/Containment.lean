import LoopHoist.Proofs.Flow.Forest
import Mathlib.Data.List.Perm.Basic

/-!
# The nest by bodies

`Loop.encloses` compares a header and two sizes. For the loops of a forest it says that the one body
is strictly inside the other (`HasTree.encloses_iff_strictlyWithin`), and all that is derived from
it then speaks of bodies: `LoopForest.IsNest` collects what parents, children, depths, innermost
loops and the postorder of a forest are, and `Cfg.loopForest_isNest` says that they are so.

The depth of a loop counts the loops around its header, because going out to the parent loses
exactly the loop itself (`HasTree.perm_around`).
-/

namespace LoopHoist

/-- Whether the body of a loop is a part, and not all, of the body of another loop. -/
def Loop.StrictlyWithin (l m : Loop) : Prop := l.blocks ⊆ m.blocks ∧ ¬ m.blocks ⊆ l.blocks

/-- What makes a forest the nest of its loops. -/
structure LoopForest.IsNest (f : LoopForest) : Prop where
  /-- Two loops have different headers, and bodies without a common block or one strictly inside the
  other. -/
  laminar : ∀ i j l m, f.loop? i = some l → f.loop? j = some m → i ≠ j → l.header ≠ m.header ∧
    (l.blocks.Disjoint m.blocks ∨ l.StrictlyWithin m ∨ m.StrictlyWithin l)
  /-- The parent is the one smallest loop strictly around a loop. -/
  parent : ∀ i l, f.loop? i = some l → ∀ p, f.parent? i = some p ↔
    ∃ m, f.loop? p = some m ∧ l.StrictlyWithin m ∧
      ∀ q n, f.loop? q = some n → l.StrictlyWithin n → q ≠ p →
        m.StrictlyWithin n ∧ m.size < n.size
  /-- A loop has no parent exactly when no loop is strictly around it. -/
  root : ∀ i l, f.loop? i = some l →
    (f.parent? i = none ↔ ∀ q n, f.loop? q = some n → ¬ l.StrictlyWithin n)
  /-- The children of a loop are the loops whose parent it is. -/
  mem_children : ∀ i j, j ∈ f.children i ↔ f.parent? j = some i
  /-- The children of a loop are listed by header, and their bodies have no common block. -/
  children : ∀ i, (f.children i).Pairwise fun j k => ∀ l m, f.loop? j = some l →
    f.loop? k = some m → l.header.index < m.header.index ∧ l.blocks.Disjoint m.blocks
  /-- The depth of a loop is the number of loops that contain its header. -/
  depth : ∀ i l, f.loop? i = some l → f.depth i = f.loops.countP fun m => m.contains l.header
  /-- A block has no innermost loop exactly when no loop contains it. -/
  innermost_none : ∀ b, f.innermost? b = none ↔ ∀ m ∈ f.loops, m.contains b = false
  /-- The innermost loop of a block contains it, and is inside, and deeper than, every other loop
  that does. -/
  innermost : ∀ b i, f.innermost? b = some i → ∃ l, f.loop? i = some l ∧ l.contains b = true ∧
    ∀ j m, f.loop? j = some m → m.contains b = true →
      l.blocks ⊆ m.blocks ∧ (j ≠ i → f.depth j < f.depth i)
  /-- The postorder lists every loop. -/
  mem_postorder : ∀ i, i ∈ f.postorder ↔ ∃ l, f.loop? i = some l
  /-- The postorder lists no loop twice, and none before one strictly inside it. -/
  postorder : f.postorder.Pairwise fun i j => i ≠ j ∧ ∀ l m, f.loop? i = some l →
    f.loop? j = some m → ¬ m.StrictlyWithin l

/-! ## Depth -/

namespace LoopForest

variable {f : LoopForest} {i j p : LoopId} {b : BlockId} {l m : Loop}

/-- A loop with a parent is one deeper than its parent. -/
theorem depth_of_parent (h : f.parent? i = some p) : f.depth i = f.depth p + 1 := by
  rw [depth]
  split
  · next q hq => rw [Option.some.inj (hq.symm.trans h)]
  · next hq => cases hq.symm.trans h

/-- A loop without a parent has depth one. -/
theorem depth_of_root (h : f.parent? i = none) : f.depth i = 1 := by
  rw [depth]
  split
  · next q hq => cases hq.symm.trans h
  · rfl

/-! ## The deepest loop around a block -/

/-- The loops that contain a block, of which the innermost is chosen. -/
theorem mem_filter_ids :
    i ∈ (f.ids.filter fun i => (f.loop? i).any (·.contains b)).reverse ↔
      ∃ l, f.loop? i = some l ∧ l.contains b = true := by
  rw [List.mem_reverse, List.mem_filter, mem_ids]
  constructor
  · rintro ⟨⟨l, hl⟩, hany⟩
    rw [hl] at hany
    exact ⟨l, hl, hany⟩
  · rintro ⟨l, hl, hc⟩
    exact ⟨⟨l, hl⟩, by rw [hl]; exact hc⟩

/-- The innermost loop of a block is a loop that contains it. -/
theorem exists_of_innermost? (h : f.innermost? b = some i) :
    ∃ l, f.loop? i = some l ∧ l.contains b = true :=
  mem_filter_ids.1 (List.maxOn?_mem h)

/-- If some loop contains a block, the block has an innermost loop. -/
theorem isSome_innermost? (hl : f.loop? i = some l) (hc : l.contains b = true) :
    (f.innermost? b).isSome = true :=
  List.isSome_maxOn?_of_mem (mem_filter_ids.2 ⟨l, hl, hc⟩)

/-- No loop that contains a block is deeper than the innermost loop of the block. -/
theorem depth_le_of_innermost? (h : f.innermost? b = some i) (hm : f.loop? j = some m)
    (hc : m.contains b = true) : f.depth j ≤ f.depth i := by
  have hle := List.le_apply_get_maxOn?_of_mem (f := f.depth) (mem_filter_ids.2 ⟨m, hm, hc⟩)
  have hget : (f.ids.filter fun i => (f.loop? i).any (·.contains b)).reverse.maxOn? f.depth =
      some i := h
  simp only [hget, Option.get_some] at hle
  exact hle

end LoopForest

namespace Cfg

variable {g : Cfg} {d : Dominators} {b e : BlockId} {i j k p : LoopId} {l m n : Loop}

/-- The headers are listed by index. -/
theorem headers_pairwise (g : Cfg) (d : Dominators) :
    (g.headers d).Pairwise fun a b => a.index < b.index := by
  refine List.Pairwise.filter _ ?_
  exact List.pairwise_map.2 List.pairwise_lt_range

/-- The loops are listed by header. -/
theorem header_lt_of_index_lt (hl : (g.loopForest d).loop? i = some l)
    (hm : (g.loopForest d).loop? j = some m) (hij : i.index < j.index) :
    l.header.index < m.header.index := by
  obtain ⟨hi, hli⟩ := List.getElem?_eq_some_iff.1 (exists_header hl).1
  obtain ⟨hj, hmj⟩ := List.getElem?_eq_some_iff.1 (exists_header hm).1
  have hlt := List.pairwise_iff_getElem.1 (g.headers_pairwise d) i.index j.index hi hj hij
  rw [hli, hmj] at hlt
  exact hlt

/-- No loop of a forest is listed twice. -/
theorem loops_nodup (g : Cfg) (d : Dominators) : (g.loopForest d).loops.Nodup :=
  (g.headers_nodup d).map fun _ _ heq => congrArg Loop.header heq

/-- The loops of a forest are those of its handles. -/
theorem mem_loops : l ∈ (g.loopForest d).loops ↔ ∃ i, (g.loopForest d).loop? i = some l :=
  List.mem_iff_getElem?.trans ⟨fun ⟨k, hk⟩ => ⟨⟨k⟩, hk⟩, fun ⟨i, hi⟩ => ⟨i.index, hi⟩⟩

namespace HasTree

variable (ht : g.HasTree d)
include ht

/-! ## Bodies -/

/-- One loop encloses another exactly when the body of the other is strictly inside its own. -/
theorem encloses_iff_strictlyWithin (hl : g.IsLoop d l) (hm : g.IsLoop d m) :
    m.encloses l = true ↔ l.StrictlyWithin m := by
  obtain ⟨t, hlatch⟩ := ht.exists_isLatch hl
  rw [ht.encloses_iff hl hm]
  constructor
  · rintro ⟨hin, hne⟩
    refine ⟨fun x hx => ?_, fun hsub => ?_⟩
    · exact (ht.mem_blocks_iff hm).2
        (hin.trans ((ht.mem_blocks_iff hl).1 hx) hlatch.reachable_header)
    · -- Otherwise each header is in the body of the other.
      have hback := (ht.mem_blocks_iff hl).1 (hsub ((ht.mem_blocks_iff hm).2 (.inl rfl)))
      exact hne (hin.antisymm hback hlatch.reachable_header).symm
  · rintro ⟨hsub, hnot⟩
    refine ⟨(ht.mem_blocks_iff hm).1 (hsub ((ht.mem_blocks_iff hl).2 (.inl rfl))), fun heq => ?_⟩
    refine hnot fun x hx => ?_
    rw [ht.mem_blocks_iff hl, heq]
    exact (ht.mem_blocks_iff hm).1 hx

/-- A loop lies inside another one exactly when its body does, strictly. -/
theorem inside_iff_strictlyWithin (hl : (g.loopForest d).loop? i = some l)
    (hm : (g.loopForest d).loop? j = some m) :
    (g.loopForest d).Inside i j ↔ l.StrictlyWithin m := by
  rw [← ht.encloses_iff_strictlyWithin (isLoop_of_loop? hl) (isLoop_of_loop? hm),
    ht.inside_iff hl hm, ht.encloses_iff (isLoop_of_loop? hl) (isLoop_of_loop? hm)]

/-- Two different loops are disjoint, or one lies inside the other. -/
theorem disjoint_or_inside (hl : (g.loopForest d).loop? i = some l)
    (hm : (g.loopForest d).loop? j = some m) (hij : i ≠ j) :
    l.blocks.Disjoint m.blocks ∨ (g.loopForest d).Inside i j ∨ (g.loopForest d).Inside j i := by
  by_cases hdis : l.blocks.Disjoint m.blocks
  · exact .inl hdis
  · obtain ⟨x, hx, hx'⟩ : ∃ x ∈ l.blocks, x ∈ m.blocks := by
      simpa [List.Disjoint] using hdis
    exact .inr ((ht.comparable_of_inBody hl hm ((ht.mem_blocks_iff (isLoop_of_loop? hl)).1 hx)
      ((ht.mem_blocks_iff (isLoop_of_loop? hm)).1 hx')).resolve_left hij)

/-- A loop contains the header of another one exactly when they are one or that one lies inside. -/
theorem contains_header_iff (hl : (g.loopForest d).loop? i = some l)
    (hm : (g.loopForest d).loop? j = some m) :
    m.contains l.header = true ↔ i = j ∨ (g.loopForest d).Inside i j := by
  rw [ht.contains_iff (isLoop_of_loop? hm), ht.inside_iff hl hm]
  by_cases heq : l.header = m.header
  · simp only [heq, ne_eq, not_true_eq_false, and_false, or_false]
    exact ⟨fun _ => eq_of_header_eq hl hm heq, fun _ => .inl rfl⟩
  · have hij : i ≠ j := fun hij => heq (by
      rw [hij] at hl
      rw [Option.some.inj (hl.symm.trans hm)])
    simp [heq, hij]

/-! ## Parents and depth -/

/-- The parent of a loop is the one loop around it that lies inside all others. -/
theorem parent?_iff : (g.loopForest d).parent? i = some p ↔ (g.loopForest d).Inside i p ∧
    ∀ q, (g.loopForest d).Inside i q → q = p ∨ (g.loopForest d).Inside p q := by
  constructor
  · intro hp
    refine ⟨(parent?_spec hp).1, fun q hq => ?_⟩
    obtain ⟨p', hp', hpq⟩ := ht.inside_parent hq
    obtain rfl := Option.some.inj (hp.symm.trans hp')
    exact hpq.imp_left Eq.symm
  · rintro ⟨hip, hmin⟩
    obtain ⟨p', hp', hor⟩ := ht.inside_parent hip
    rcases hor with rfl | hpp
    · exact hp'
    · rcases hmin p' (parent?_spec hp').1 with rfl | hpp'
      · exact hp'
      · have := sizeOf_lt_of_inside hpp
        have := sizeOf_lt_of_inside hpp'
        omega

/-- The parent of a loop is the one smallest loop strictly around it, by bodies. -/
theorem parent?_iff_strictlyWithin (hl : (g.loopForest d).loop? i = some l) :
    (g.loopForest d).parent? i = some p ↔
      ∃ m, (g.loopForest d).loop? p = some m ∧ l.StrictlyWithin m ∧
        ∀ q n, (g.loopForest d).loop? q = some n → l.StrictlyWithin n → q ≠ p →
          m.StrictlyWithin n ∧ m.size < n.size := by
  rw [ht.parent?_iff]
  constructor
  · rintro ⟨hip, hmin⟩
    obtain ⟨-, m, -, hm, -⟩ := id hip
    refine ⟨m, hm, (ht.inside_iff_strictlyWithin hl hm).1 hip, fun q n hn hin hqp => ?_⟩
    have hpq := (hmin q ((ht.inside_iff_strictlyWithin hl hn).2 hin)).resolve_left hqp
    have hlt := sizeOf_lt_of_inside hpq
    simp only [LoopForest.sizeOf, hm, hn] at hlt
    exact ⟨(ht.inside_iff_strictlyWithin hm hn).1 hpq, hlt⟩
  · rintro ⟨m, hm, hin, hmin⟩
    refine ⟨(ht.inside_iff_strictlyWithin hl hm).2 hin, fun q hq => ?_⟩
    obtain ⟨-, n, -, hn, -⟩ := id hq
    by_cases hqp : q = p
    · exact .inl hqp
    · have hmn := (hmin q n hn ((ht.inside_iff_strictlyWithin hl hn).1 hq) hqp).1
      exact .inr ((ht.inside_iff_strictlyWithin hm hn).2 hmn)

/-- A loop has no parent exactly when no loop is strictly around it, by bodies. -/
theorem parent?_eq_none_iff (hl : (g.loopForest d).loop? i = some l) :
    (g.loopForest d).parent? i = none ↔
      ∀ q n, (g.loopForest d).loop? q = some n → ¬ l.StrictlyWithin n := by
  constructor
  · intro hnone q n hn hin
    obtain ⟨p, hp, -⟩ := ht.inside_parent ((ht.inside_iff_strictlyWithin hl hn).2 hin)
    cases hnone.symm.trans hp
  · intro hno
    cases hp : (g.loopForest d).parent? i with
    | none => rfl
    | some p =>
      have hip := (parent?_spec hp).1
      obtain ⟨-, m, -, hm, -⟩ := id hip
      exact absurd ((ht.inside_iff_strictlyWithin hl hm).1 hip) (hno p m hm)

/-- The children of a loop are listed by header, and have no common block. -/
theorem children_pairwise : ((g.loopForest d).children i).Pairwise fun j k =>
    ∀ l m, (g.loopForest d).loop? j = some l → (g.loopForest d).loop? k = some m →
      l.header.index < m.header.index ∧ l.blocks.Disjoint m.blocks := by
  have hids : ((g.loopForest d).ids).Pairwise fun a b => a.index < b.index :=
    List.pairwise_map.2 List.pairwise_lt_range
  refine List.Pairwise.imp_of_mem ?_ (hids.filter _)
  intro j k hj hk hjk l m hl hm
  refine ⟨header_lt_of_index_lt hl hm hjk, ?_⟩
  have hne : j ≠ k := fun heq => Nat.lt_irrefl _ (heq ▸ hjk)
  have hsame := (mem_children.1 hj).trans (mem_children.1 hk).symm
  -- Of two loops with one parent neither is inside the other.
  refine (ht.disjoint_or_inside hl hm hne).resolve_right ?_
  rintro (hin | hin)
  · exact (ht.later_of_siblings hne.symm hsame.symm (.inl rfl) (.inl rfl)).2 hin
  · exact (ht.later_of_siblings hne hsame (.inl rfl) (.inl rfl)).2 hin

/-- A loop is deeper than the loops around it. -/
theorem depth_lt_of_inside {i j : LoopId} (h : (g.loopForest d).Inside i j) :
    (g.loopForest d).depth j < (g.loopForest d).depth i := by
  obtain ⟨p, hp, hpj⟩ := ht.inside_parent h
  rw [LoopForest.depth_of_parent hp]
  rcases hpj with rfl | hpj
  · omega
  · have hlt := LoopForest.sizeOf_lt_of_parent? hp
    have hle := (g.loopForest d).sizeOf_le_maxSize p
    have := depth_lt_of_inside hpj
    omega
termination_by (g.loopForest d).maxSize - (g.loopForest d).sizeOf i

/-- The loops around a header are the loop itself and the loops around the header of its parent. -/
theorem perm_around (hl : (g.loopForest d).loop? i = some l)
    (hp : (g.loopForest d).parent? i = some p) (hm : (g.loopForest d).loop? p = some m) :
    ((g.loopForest d).loops.filter fun n => n.contains l.header).Perm
      (l :: (g.loopForest d).loops.filter fun n => n.contains m.header) := by
  obtain ⟨hip, hmin⟩ := ht.parent?_iff.1 hp
  have hout : l.contains m.header = false := by
    rw [Bool.eq_false_iff]
    intro hc
    rcases (ht.contains_header_iff hm hl).1 hc with rfl | hpi
    · exact Nat.lt_irrefl _ (sizeOf_lt_of_inside hip)
    · exact Nat.lt_asymm (sizeOf_lt_of_inside hip) (sizeOf_lt_of_inside hpi)
  have hnodup := g.loops_nodup d
  refine (List.perm_ext_iff_of_nodup (hnodup.filter _)
    (List.nodup_cons.2 ⟨fun hmem => ?_, hnodup.filter _⟩)).2 fun n => ?_
  · rw [(List.mem_filter.1 hmem).2] at hout
    cases hout
  · simp only [List.mem_filter, List.mem_cons, mem_loops]
    constructor
    · rintro ⟨⟨j, hn⟩, hc⟩
      rcases (ht.contains_header_iff hl hn).1 hc with rfl | hij
      · exact .inl (Option.some.inj (hn.symm.trans hl))
      · exact .inr ⟨⟨j, hn⟩, (ht.contains_header_iff hm hn).2 ((hmin j hij).imp_left Eq.symm)⟩
    · rintro (rfl | ⟨⟨j, hn⟩, hc⟩)
      · exact ⟨⟨i, hl⟩, (ht.contains_header_iff hl hl).2 (.inl rfl)⟩
      · refine ⟨⟨j, hn⟩, (ht.contains_header_iff hl hn).2 (.inr ?_)⟩
        rcases (ht.contains_header_iff hm hn).1 hc with rfl | hpj
        · exact hip
        · exact ht.inside_trans hip hpj

/-- The depth of a loop is the number of loops around its header. -/
theorem depth_eq_countP {i : LoopId} {l : Loop} (hl : (g.loopForest d).loop? i = some l) :
    (g.loopForest d).depth i = (g.loopForest d).loops.countP fun m => m.contains l.header := by
  rw [List.countP_eq_length_filter]
  cases hp : (g.loopForest d).parent? i with
  | none =>
    -- Only the loop itself is left.
    have hperm : ((g.loopForest d).loops.filter fun n => n.contains l.header).Perm [l] := by
      refine (List.perm_ext_iff_of_nodup ((g.loops_nodup d).filter _) (by simp)).2 fun n => ?_
      simp only [List.mem_filter, List.mem_singleton, mem_loops]
      constructor
      · rintro ⟨⟨j, hn⟩, hc⟩
        rcases (ht.contains_header_iff hl hn).1 hc with rfl | hij
        · exact Option.some.inj (hn.symm.trans hl)
        · obtain ⟨q, hq, -⟩ := ht.inside_parent hij
          cases hp.symm.trans hq
      · rintro rfl
        exact ⟨⟨i, hl⟩, (ht.contains_header_iff hl hl).2 (.inl rfl)⟩
    rw [LoopForest.depth_of_root hp, hperm.length_eq, List.length_singleton]
  | some p =>
    obtain ⟨-, m, -, hm, -⟩ := (parent?_spec hp).1
    have hlt := LoopForest.sizeOf_lt_of_parent? hp
    have hle := (g.loopForest d).sizeOf_le_maxSize p
    rw [LoopForest.depth_of_parent hp, depth_eq_countP hm, List.countP_eq_length_filter,
      (ht.perm_around hl hp hm).length_eq, List.length_cons]
termination_by (g.loopForest d).maxSize - (g.loopForest d).sizeOf i

/-! ## Innermost loops -/

omit ht in
/-- A block has no innermost loop exactly when no loop contains it. -/
theorem innermost?_eq_none_iff : (g.loopForest d).innermost? b = none ↔
    ∀ m ∈ (g.loopForest d).loops, m.contains b = false := by
  constructor
  · intro hnone m hm
    rw [Bool.eq_false_iff]
    intro hc
    obtain ⟨k, hk⟩ := List.getElem?_of_mem hm
    have hsome := LoopForest.isSome_innermost? (f := g.loopForest d) (i := ⟨k⟩) hk hc
    rw [hnone] at hsome
    cases hsome
  · intro hall
    cases hi : (g.loopForest d).innermost? b with
    | none => rfl
    | some i =>
      obtain ⟨l, hl, hc⟩ := LoopForest.exists_of_innermost? hi
      rw [hall l (List.mem_of_getElem? hl)] at hc
      cases hc

/-- The innermost loop of a block contains it, and lies inside all other loops that do. -/
theorem innermost?_spec (hi : (g.loopForest d).innermost? b = some i) :
    ∃ l, (g.loopForest d).loop? i = some l ∧ l.contains b = true ∧
      ∀ j m, (g.loopForest d).loop? j = some m → m.contains b = true →
        i = j ∨ (g.loopForest d).Inside i j := by
  obtain ⟨l, hl, hc⟩ := LoopForest.exists_of_innermost? hi
  refine ⟨l, hl, hc, fun j m hm hc' => ?_⟩
  have hdepth := LoopForest.depth_le_of_innermost? hi hm hc'
  rcases ht.comparable_of_inBody hl hm ((ht.contains_iff (isLoop_of_loop? hl)).1 hc)
    ((ht.contains_iff (isLoop_of_loop? hm)).1 hc') with hij | hij | hji
  · exact .inl hij
  · exact .inr hij
  · -- A loop inside would be deeper.
    exact absurd (ht.depth_lt_of_inside hji) (Nat.not_lt.2 hdepth)

/-- The innermost loop of a block is the smallest that contains it. -/
theorem innermost?_eq_smallestLoop? : (g.loopForest d).innermost? b =
    smallestLoop? (g.loopForest d).loops fun l => l.contains b := by
  cases hj : smallestLoop? (g.loopForest d).loops fun l => l.contains b with
  | none =>
    refine innermost?_eq_none_iff.2 fun m hm => Bool.eq_false_iff.2 fun hc => ?_
    obtain ⟨k, hk⟩ := List.getElem?_of_mem hm
    have hsome := isSome_smallestLoop? (fun l => l.contains b) hk hc
    rw [hj] at hsome
    cases hsome
  | some j =>
    obtain ⟨m, hm, hc⟩ := exists_of_smallestLoop? hj
    obtain ⟨i, hi⟩ := Option.isSome_iff_exists.1 (LoopForest.isSome_innermost? hm hc)
    obtain ⟨l, hl, hcl, hin⟩ := ht.innermost?_spec hi
    have hsize : m.size ≤ l.size := size_le_of_smallestLoop? hj hm hl hcl
    rcases hin j m hm hc with rfl | hij
    · exact hi
    · -- The innermost loop would be smaller.
      have hlt := sizeOf_lt_of_inside hij
      have hm' : (g.loopForest d).loop? j = some m := hm
      simp only [LoopForest.sizeOf, hl, hm'] at hlt
      omega

/-! ## The nest -/

/-- The forest of a graph is the nest of its loops. -/
theorem isNest : (g.loopForest d).IsNest where
  laminar i j l m hl hm hij := by
    refine ⟨fun heq => hij (eq_of_header_eq hl hm heq), ?_⟩
    rw [← ht.inside_iff_strictlyWithin hl hm, ← ht.inside_iff_strictlyWithin hm hl]
    exact ht.disjoint_or_inside hl hm hij
  parent i l hl p := ht.parent?_iff_strictlyWithin hl
  root i l hl := ht.parent?_eq_none_iff hl
  mem_children i j := mem_children
  children i := ht.children_pairwise
  depth i l hl := ht.depth_eq_countP hl
  innermost_none b := innermost?_eq_none_iff
  innermost b i hi := by
    obtain ⟨l, hl, hc, hmin⟩ := ht.innermost?_spec hi
    refine ⟨l, hl, hc, fun j m hm hc' => ?_⟩
    rcases hmin j m hm hc' with rfl | hij
    · obtain rfl := Option.some.inj (hl.symm.trans hm)
      exact ⟨List.Subset.refl _, fun hne => absurd rfl hne⟩
    · exact ⟨((ht.inside_iff_strictlyWithin hl hm).1 hij).1, fun _ => ht.depth_lt_of_inside hij⟩
  mem_postorder i := ht.mem_postorder
  postorder := ht.postorder_pairwise.imp fun ⟨hne, hno⟩ => ⟨hne, fun _ _ hl hm hin =>
    hno ((ht.inside_iff_strictlyWithin hm hl).2 hin)⟩

end HasTree

/-- On every function whose entry exists and whose reachable blocks branch only to existing blocks,
the loops of the forest form a nest: by their bodies they are disjoint or one inside the other, and
parents, children, depths, innermost loops and the postorder are those of the bodies. -/
theorem loopForest_isNest (f : Function) (e : BlockId) (he : f.entry = some e)
    (hh : f.hasBlock e = true)
    (hs : ∀ b, (Cfg.ofFunction f).Reachable b → ∀ s ∈ f.successors b, f.hasBlock s = true) :
    ∃ d, (Cfg.ofFunction f).dominators = .ok d ∧ ((Cfg.ofFunction f).loopForest d).IsNest := by
  obtain ⟨d, hd⟩ := exists_dominators (closed_ofFunction he hh hs)
  exact ⟨d, hd, (hasTree_of_dominators hd).isNest⟩

/-- A function with a loop around two others: one of a single block, behind a block that only leads
to it, and one whose header is entered from a branch. -/
def terraces : Function :=
  Function.edits { name := "terraces" }
    [.addBlock "entry", .addBlock "outer", .addBlock "gate", .addBlock "left", .addBlock "right",
      .addBlock "back", .addBlock "exit",
      .append ⟨0⟩ (.jump ⟨1⟩), .append ⟨1⟩ (.branch (.imm (.i64 1)) ⟨2⟩ ⟨6⟩),
      .append ⟨2⟩ (.jump ⟨3⟩), .append ⟨3⟩ (.branch (.imm (.i64 0)) ⟨3⟩ ⟨4⟩),
      .append ⟨4⟩ (.branch (.imm (.i64 0)) ⟨5⟩ ⟨1⟩), .append ⟨5⟩ (.jump ⟨4⟩),
      .append ⟨6⟩ (.ret none)]

/-- The loops of the terraces form a nest, in which the inner loops come first. -/
theorem loopForest_isNest_terraces :
    ∃ d, (Cfg.ofFunction terraces).dominators = .ok d ∧
      ((Cfg.ofFunction terraces).loopForest d).IsNest ∧
      ((Cfg.ofFunction terraces).loopForest d).postorder = [⟨1⟩, ⟨2⟩, ⟨0⟩] := by
  have hw : terraces.WellFormed := Function.violation?_eq_none_iff.1 (by decide)
  obtain ⟨d, hd, hnest⟩ := loopForest_isNest terraces ⟨0⟩ (by decide) (by decide)
    fun b _ s hs => hw.hasBlock_of_mem_successors hs
  have hpost : ((Cfg.ofFunction terraces).dominators.map fun d =>
      ((Cfg.ofFunction terraces).loopForest d).postorder) = .ok [⟨1⟩, ⟨2⟩, ⟨0⟩] := by
    decide +kernel
  rw [hd] at hpost
  exact ⟨d, hd, hnest, Except.ok.inj hpost⟩

end Cfg

end LoopHoist
