import LoopHoist.Proofs.Flow.NaturalLoops
import Mathlib.Data.List.Nodup

/-!
# The nest of loops

The parent of a loop is the smallest loop around it. Since two loops around a third are nested, the
loops around a loop form a chain, of which the parent is the first (`HasTree.inside_parent`), and
the postorder, made by going down from parents to children, lists every loop once and after the
loops inside it (`HasTree.mem_postorder`, `HasTree.postorder_pairwise`).
-/

namespace LoopHoist

/-- The smallest loop of a list that passes a test is no larger than any other that passes it. -/
theorem size_le_of_smallestLoop? {loops : List Loop} {test : Loop → Bool} {i : LoopId} {n : Nat}
    {l m : Loop} (h : smallestLoop? loops test = some i) (hl : loops[i.index]? = some l)
    (hm : loops[n]? = some m) (ht : test m = true) : l.size ≤ m.size := by
  unfold smallestLoop? at h
  obtain ⟨p, hp, rfl⟩ := Option.map_eq_some_iff.1 h
  have hmem : p ∈ loops.zipIdx := (List.mem_filter.1 (List.minOn?_mem hp)).1
  obtain rfl : p.1 = l := by
    rw [List.mem_zipIdx_iff_getElem?.1 hmem] at hl
    exact Option.some.inj hl
  have hm' : (m, n) ∈ loops.zipIdx.filter fun p => test p.1 :=
    List.mem_filter.2 ⟨List.mem_zipIdx_iff_getElem?.2 hm, ht⟩
  have hle := List.apply_get_minOn?_le_of_mem (f := fun p : Loop × Nat => p.1.size) hm'
  simp only [hp, Option.get_some] at hle
  exact hle

/-- If some loop of a list passes a test, there is a smallest one. -/
theorem isSome_smallestLoop? {loops : List Loop} (test : Loop → Bool) {n : Nat} {m : Loop}
    (hm : loops[n]? = some m) (ht : test m = true) : (smallestLoop? loops test).isSome = true := by
  unfold smallestLoop?
  rw [Option.isSome_map]
  have hmem : (m, n) ∈ loops.zipIdx.filter fun p => test p.1 :=
    List.mem_filter.2 ⟨List.mem_zipIdx_iff_getElem?.2 hm, ht⟩
  exact List.isSome_minOn?_of_mem hmem

namespace LoopForest

/-- Whether a loop of a forest lies inside another one. -/
def Inside (f : LoopForest) (i j : LoopId) : Prop :=
  ∃ l m, f.loop? i = some l ∧ f.loop? j = some m ∧ m.encloses l = true

/-- The loops of a forest are those of its handles. -/
theorem mem_ids {f : LoopForest} {i : LoopId} : i ∈ f.ids ↔ ∃ l, f.loop? i = some l := by
  obtain ⟨i⟩ := i
  simp only [ids, loop?, List.mem_map, List.mem_range, LoopId.mk.injEq, exists_eq_right]
  exact ⟨fun h => ⟨_, List.getElem?_eq_getElem h⟩, fun ⟨l, h⟩ =>
    (List.getElem?_eq_some_iff.1 h).1⟩

/-- The handles of the loops are different. -/
theorem ids_nodup (f : LoopForest) : f.ids.Nodup := by
  refine List.Nodup.map (fun i j h => ?_) List.nodup_range
  exact (LoopId.mk.inj h)

/-- The postorder of a loop is that of the loops directly inside it, and then the loop. -/
theorem postorderFrom_eq (f : LoopForest) (i : LoopId) :
    f.postorderFrom i = (f.children i).flatMap f.postorderFrom ++ [i] := by
  rw [postorderFrom]
  congr 1
  simp

end LoopForest

namespace Cfg

variable {g : Cfg} {d : Dominators} {i j k : LoopId} {l m : Loop}

/-- A loop of the forest of a graph is a natural loop. -/
theorem isLoop_of_loop? (hl : (g.loopForest d).loop? i = some l) : g.IsLoop d l :=
  isLoop_of_mem (List.mem_of_getElem? hl)

/-- The blocks of a graph are listed once. -/
theorem nodes_nodup (g : Cfg) : g.nodes.Nodup :=
  List.Nodup.map (fun _ _ heq => BlockId.mk.inj heq) List.nodup_range

/-- The body of a loop lists no block twice. -/
theorem IsLoop.blocks_nodup (hl : g.IsLoop d l) : l.blocks.Nodup := by
  rw [hl.eq]
  exact g.nodes_nodup.filter _

/-- The headers are different blocks. -/
theorem headers_nodup (g : Cfg) (d : Dominators) : (g.headers d).Nodup := g.nodes_nodup.filter _

/-- A loop of the forest is the loop of its header, which is one of the headers. -/
theorem exists_header (hl : (g.loopForest d).loop? i = some l) :
    (g.headers d)[i.index]? = some l.header ∧ l = g.loopAt d l.header := by
  simp only [LoopForest.loop?, loopForest, List.getElem?_map, Option.map_eq_some_iff] at hl
  obtain ⟨b, hb, rfl⟩ := hl
  exact ⟨hb, rfl⟩

/-- Loops of one header are one. -/
theorem eq_of_header_eq (hl : (g.loopForest d).loop? i = some l)
    (hm : (g.loopForest d).loop? j = some m) (h : l.header = m.header) : i = j := by
  obtain ⟨hi, hli⟩ := List.getElem?_eq_some_iff.1 (exists_header hl).1
  obtain ⟨hj, hmj⟩ := List.getElem?_eq_some_iff.1 (exists_header hm).1
  have heq : (g.headers d)[i.index] = (g.headers d)[j.index] := by rw [hli, hmj, h]
  exact congrArg LoopId.mk (((g.headers_nodup d).getElem_inj_iff).1 heq)

/-- The order in which the loops are visited: no loop is visited twice, or before one inside it. -/
def Later (f : LoopForest) (i j : LoopId) : Prop := i ≠ j ∧ ¬ f.Inside j i

namespace HasTree

variable (ht : g.HasTree d)
include ht

/-- A loop encloses another one exactly when it has the header of the other, which is another
header, in its body. -/
theorem encloses_iff (hl : g.IsLoop d l) (hm : g.IsLoop d m) :
    m.encloses l = true ↔ g.InBody m.header l.header ∧ l.header ≠ m.header := by
  rw [Loop.encloses, Bool.and_eq_true, decide_eq_true_eq, ht.contains_iff hm]
  refine and_congr_right fun hin => ⟨fun hlt heq => ?_, fun hne => ?_⟩
  · rw [hl.eq, hm.eq, heq] at hlt
    exact absurd hlt (Nat.lt_irrefl _)
  · -- The outer body holds the inner one and, besides, its own header.
    obtain ⟨t, hlatch⟩ := ht.exists_isLatch hl
    have hr := hlatch.reachable_header
    have hout : m.header ∉ l.blocks := fun h =>
      hne (hin.antisymm ((ht.mem_blocks_iff hl).1 h) hr).symm
    have hsub : m.header :: l.blocks ⊆ m.blocks := fun x hx => by
      rw [ht.mem_blocks_iff hm]
      rcases List.mem_cons.1 hx with rfl | hx
      · exact .inl rfl
      · exact hin.trans ((ht.mem_blocks_iff hl).1 hx) hr
    have hlen := (List.nodup_cons.2 ⟨hout, hl.blocks_nodup⟩).length_le_of_subset hsub
    exact hlen

/-- Lying inside, by headers and bodies. -/
theorem inside_iff (hl : (g.loopForest d).loop? i = some l)
    (hm : (g.loopForest d).loop? j = some m) :
    (g.loopForest d).Inside i j ↔ g.InBody m.header l.header ∧ l.header ≠ m.header := by
  rw [← ht.encloses_iff (isLoop_of_loop? hl) (isLoop_of_loop? hm)]
  constructor
  · rintro ⟨l', m', hl', hm', h⟩
    obtain rfl := Option.some.inj (hl.symm.trans hl')
    obtain rfl := Option.some.inj (hm.symm.trans hm')
    exact h
  · exact fun h => ⟨l, m, hl, hm, h⟩

/-- The header of a loop of the forest is reachable. -/
theorem reachable_header (hl : (g.loopForest d).loop? i = some l) : g.Reachable l.header := by
  obtain ⟨t, h⟩ := ht.exists_isLatch (isLoop_of_loop? hl)
  exact h.reachable_header

/-- Lying inside is transitive. -/
theorem inside_trans (h : (g.loopForest d).Inside i j) (h' : (g.loopForest d).Inside j k) :
    (g.loopForest d).Inside i k := by
  obtain ⟨l, m, hl, hm, -⟩ := id h
  obtain ⟨-, n, -, hn, -⟩ := id h'
  obtain ⟨hin, hne⟩ := (ht.inside_iff hl hm).1 h
  obtain ⟨hin', hne'⟩ := (ht.inside_iff hm hn).1 h'
  refine (ht.inside_iff hl hn).2 ⟨hin'.trans hin (ht.reachable_header hm), fun heq => hne' ?_⟩
  rw [heq] at hin
  exact (hin'.antisymm hin (ht.reachable_header hm)).symm

omit ht in
/-- A loop is smaller than one that it lies inside. -/
theorem sizeOf_lt_of_inside (h : (g.loopForest d).Inside i j) :
    (g.loopForest d).sizeOf i < (g.loopForest d).sizeOf j := by
  obtain ⟨l, m, hl, hm, he⟩ := h
  rw [Loop.encloses, Bool.and_eq_true, decide_eq_true_eq] at he
  simp only [LoopForest.sizeOf, hl, hm]
  exact he.2

/-- Two loops with a common block are one, or one lies inside the other. -/
theorem comparable_of_inBody {x : BlockId} (hl : (g.loopForest d).loop? i = some l)
    (hm : (g.loopForest d).loop? j = some m) (hx : g.InBody l.header x)
    (hx' : g.InBody m.header x) :
    i = j ∨ (g.loopForest d).Inside i j ∨ (g.loopForest d).Inside j i := by
  by_cases heq : l.header = m.header
  · exact .inl (eq_of_header_eq hl hm heq)
  · obtain ⟨t, hlatch⟩ := ht.exists_isLatch (isLoop_of_loop? hl)
    rcases hx.nested hx' (hx.reachable hlatch) with hlm | hml
    · exact .inr (.inr ((ht.inside_iff hm hl).2 ⟨hlm, Ne.symm heq⟩))
    · exact .inr (.inl ((ht.inside_iff hl hm).2 ⟨hml, heq⟩))

/-- Two loops around a third one are one, or one lies inside the other. -/
theorem inside_comparable (h : (g.loopForest d).Inside i j) (h' : (g.loopForest d).Inside i k) :
    j = k ∨ (g.loopForest d).Inside j k ∨ (g.loopForest d).Inside k j := by
  obtain ⟨l, m, hl, hm, -⟩ := id h
  obtain ⟨-, n, -, hn, -⟩ := id h'
  exact ht.comparable_of_inBody hm hn ((ht.inside_iff hl hm).1 h).1 ((ht.inside_iff hl hn).1 h').1

/-! ## Parents -/

omit ht in
/-- A loop lies inside its parent, and its parent is no larger than any other loop around it. -/
theorem parent?_spec (h : (g.loopForest d).parent? i = some j) :
    (g.loopForest d).Inside i j ∧ ∀ k, (g.loopForest d).Inside i k →
      (g.loopForest d).sizeOf j ≤ (g.loopForest d).sizeOf k := by
  rw [LoopForest.parent?_eq] at h
  obtain ⟨l, hl, hs⟩ := Option.bind_eq_some_iff.1 h
  obtain ⟨m, hm, he⟩ := exists_of_smallestLoop? hs
  have hm' : (g.loopForest d).loop? j = some m := hm
  refine ⟨⟨l, m, hl, hm, he⟩, fun k hk => ?_⟩
  obtain ⟨l', n, hl', hn, he'⟩ := hk
  obtain rfl := Option.some.inj (hl.symm.trans hl')
  simp only [LoopForest.sizeOf, hm', hn]
  exact size_le_of_smallestLoop? hs hm hn he'

/-- A loop inside another one has a parent, which is that other one or lies inside it. -/
theorem inside_parent (h : (g.loopForest d).Inside i j) :
    ∃ p, (g.loopForest d).parent? i = some p ∧ (p = j ∨ (g.loopForest d).Inside p j) := by
  obtain ⟨l, m, hl, hm, he⟩ := id h
  have hsome : ((g.loopForest d).parent? i).isSome = true := by
    rw [LoopForest.parent?_eq, hl]
    exact isSome_smallestLoop? (fun outer => outer.encloses l) hm he
  obtain ⟨p, hp⟩ := Option.isSome_iff_exists.1 hsome
  obtain ⟨hin, hmin⟩ := parent?_spec hp
  refine ⟨p, hp, ?_⟩
  rcases ht.inside_comparable hin h with hpj | hpj | hjp
  · exact .inl hpj
  · exact .inr hpj
  · have := sizeOf_lt_of_inside hjp
    have := hmin j h
    omega

omit ht in
/-- The children of a loop are those whose parent it is. -/
theorem mem_children : j ∈ (g.loopForest d).children i ↔ (g.loopForest d).parent? j = some i := by
  rw [LoopForest.children, List.mem_filter, beq_iff_eq]
  refine and_iff_right_of_imp fun h => ?_
  obtain ⟨⟨l, -, hl, -⟩, -⟩ := parent?_spec h
  exact LoopForest.mem_ids.2 ⟨l, hl⟩

/-- A loop inside another one is, or lies inside, a child of that one. -/
theorem exists_child {i j : LoopId} (h : (g.loopForest d).Inside i j) :
    ∃ c ∈ (g.loopForest d).children j, i = c ∨ (g.loopForest d).Inside i c := by
  obtain ⟨p, hp, hpj⟩ := ht.inside_parent h
  obtain ⟨hip, -⟩ := parent?_spec hp
  rcases hpj with rfl | hpj
  · exact ⟨i, mem_children.2 hp, .inl rfl⟩
  · have hlt := sizeOf_lt_of_inside hip
    have hle := (g.loopForest d).sizeOf_le_maxSize p
    obtain ⟨c, hc, hpc⟩ := exists_child hpj
    refine ⟨c, hc, .inr ?_⟩
    rcases hpc with rfl | hpc
    · exact hip
    · exact ht.inside_trans hip hpc
termination_by (g.loopForest d).maxSize - (g.loopForest d).sizeOf i

/-! ## Postorder -/

/-- The postorder of a loop lists it and the loops inside it. -/
theorem mem_postorderFrom {i j : LoopId} : j ∈ (g.loopForest d).postorderFrom i ↔
    j = i ∨ (g.loopForest d).Inside j i := by
  rw [LoopForest.postorderFrom_eq, List.mem_append, List.mem_singleton, List.mem_flatMap, or_comm]
  refine or_congr_right ⟨?_, fun h => ?_⟩
  · rintro ⟨c, hc, hj⟩
    have hci := (parent?_spec (mem_children.1 hc)).1
    have hlt := sizeOf_lt_of_inside hci
    rcases mem_postorderFrom.1 hj with rfl | hjc
    · exact hci
    · exact ht.inside_trans hjc hci
  · obtain ⟨c, hc, hjc⟩ := ht.exists_child h
    have hlt := LoopForest.sizeOf_lt_of_mem_children hc
    exact ⟨c, hc, mem_postorderFrom.2 hjc⟩
termination_by (g.loopForest d).sizeOf i

/-- The postorder lists every loop. -/
theorem mem_postorder {i : LoopId} :
    i ∈ (g.loopForest d).postorder ↔ ∃ l, (g.loopForest d).loop? i = some l := by
  rw [LoopForest.postorder, List.mem_flatMap]
  constructor
  · rintro ⟨r, hr, hi⟩
    rcases ht.mem_postorderFrom.1 hi with rfl | ⟨l, -, hl, -⟩
    · exact LoopForest.mem_ids.1 (List.mem_filter.1 hr).1
    · exact ⟨l, hl⟩
  · rintro ⟨l, hl⟩
    cases hp : (g.loopForest d).parent? i with
    | none =>
      refine ⟨i, List.mem_filter.2 ⟨LoopForest.mem_ids.2 ⟨l, hl⟩, ?_⟩, ?_⟩
      · rw [hp]
        rfl
      · exact ht.mem_postorderFrom.2 (.inl rfl)
    | some p =>
      obtain ⟨hip, -⟩ := parent?_spec hp
      obtain ⟨-, m, -, hm, -⟩ := id hip
      have hlt := sizeOf_lt_of_inside hip
      have hle := (g.loopForest d).sizeOf_le_maxSize p
      have hpm := mem_postorder.2 ⟨m, hm⟩
      rw [LoopForest.postorder, List.mem_flatMap] at hpm
      obtain ⟨r, hr, hpr⟩ := hpm
      refine ⟨r, hr, ht.mem_postorderFrom.2 (.inr ?_)⟩
      rcases ht.mem_postorderFrom.1 hpr with rfl | hpr
      · exact hip
      · exact ht.inside_trans hip hpr
termination_by (g.loopForest d).maxSize - (g.loopForest d).sizeOf i

/-- Subtrees of different loops that have the same parent, or none, are visited in any order. -/
theorem later_of_siblings {a b x y : LoopId} (hab : a ≠ b)
    (hp : (g.loopForest d).parent? a = (g.loopForest d).parent? b)
    (hx : x = a ∨ (g.loopForest d).Inside x a) (hy : y = b ∨ (g.loopForest d).Inside y b) :
    Later (g.loopForest d) x y := by
  -- Siblings do not lie inside one another, since the parent is the smallest loop around.
  have hno : ∀ {a b}, (g.loopForest d).parent? a = (g.loopForest d).parent? b →
      ¬ (g.loopForest d).Inside a b := fun {a b} hp h => by
    obtain ⟨p, hpa, -⟩ := ht.inside_parent h
    have hle := (parent?_spec hpa).2 b h
    have hlt := sizeOf_lt_of_inside (parent?_spec (hp.symm.trans hpa)).1
    omega
  -- So no loop is, or lies inside, both.
  have hboth : ∀ z, (z = a ∨ (g.loopForest d).Inside z a) →
      (z = b ∨ (g.loopForest d).Inside z b) → False := fun z hza hzb => by
    rcases hza with rfl | hza
    · exact hzb.elim hab (hno hp)
    · rcases hzb with rfl | hzb
      · exact hno hp.symm hza
      · rcases ht.inside_comparable hza hzb with h | h | h
        · exact hab h
        · exact hno hp h
        · exact hno hp.symm h
  refine ⟨fun hxy => hboth x hx (hxy ▸ hy), fun hyx => hboth y ?_ hy⟩
  rcases hx with rfl | hx
  · exact .inr hyx
  · exact .inr (ht.inside_trans hyx hx)

/-- The postorder of a list of siblings visits no loop twice or before one inside it. -/
theorem pairwise_flatMap_postorderFrom {is : List LoopId} {p : Option LoopId} (hn : is.Nodup)
    (hp : ∀ i ∈ is, (g.loopForest d).parent? i = p)
    (h : ∀ i ∈ is, ((g.loopForest d).postorderFrom i).Pairwise (Later (g.loopForest d))) :
    (is.flatMap (g.loopForest d).postorderFrom).Pairwise (Later (g.loopForest d)) := by
  rw [List.pairwise_flatMap]
  refine ⟨h, hn.imp_of_mem fun {a b} ha hb hab x hx y hy => ?_⟩
  exact ht.later_of_siblings hab ((hp a ha).trans (hp b hb).symm) (ht.mem_postorderFrom.1 hx)
    (ht.mem_postorderFrom.1 hy)

/-- The postorder of a loop visits no loop twice or before one inside it. -/
theorem postorderFrom_pairwise (i : LoopId) :
    ((g.loopForest d).postorderFrom i).Pairwise (Later (g.loopForest d)) := by
  rw [LoopForest.postorderFrom_eq, List.pairwise_append]
  refine ⟨?_, List.pairwise_singleton _ i, fun x hx y hy => ?_⟩
  · refine ht.pairwise_flatMap_postorderFrom (p := some i)
      (List.Nodup.filter _ (LoopForest.ids_nodup _)) (fun c hc => mem_children.1 hc) fun c hc => ?_
    have hlt := LoopForest.sizeOf_lt_of_mem_children hc
    exact postorderFrom_pairwise c
  · obtain rfl := List.mem_singleton.1 hy
    have hxi : (g.loopForest d).Inside x y := by
      obtain ⟨c, hc, hxc⟩ := List.mem_flatMap.1 hx
      have hcy := (parent?_spec (mem_children.1 hc)).1
      rcases ht.mem_postorderFrom.1 hxc with rfl | hxc
      · exact hcy
      · exact ht.inside_trans hxc hcy
    have hlt := sizeOf_lt_of_inside hxi
    refine ⟨fun hxy => ?_, fun hyx => ?_⟩
    · rw [hxy] at hlt
      omega
    · have := sizeOf_lt_of_inside hyx
      omega
termination_by (g.loopForest d).sizeOf i

/-- The postorder visits no loop twice, or before one inside it. -/
theorem postorder_pairwise :
    (g.loopForest d).postorder.Pairwise (Later (g.loopForest d)) := by
  refine ht.pairwise_flatMap_postorderFrom (p := none)
    (List.Nodup.filter _ (LoopForest.ids_nodup _)) (fun r hr => ?_)
    fun r _ => ht.postorderFrom_pairwise r
  exact Option.isNone_iff_eq_none.1 (List.mem_filter.1 hr).2

end HasTree

end Cfg

end LoopHoist
