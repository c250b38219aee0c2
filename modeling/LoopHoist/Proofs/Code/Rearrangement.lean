import LoopHoist.Proofs.Code.Relocation
import Mathlib.Data.List.Nodup

/-!
# Rearranged functions

What any number of relocations keeps: `Rearranged f g` says that `g` has the instructions of `f`,
the ones that never move in their old blocks and in their old order, and the others in some block or
other. The graph, the table of values, coherence and well-formedness are those of `f`.
-/

namespace LoopHoist

/-- Whether instructions of a class may be relocated by the pass. -/
def Category.movable : Category → Bool
  | ordinary | load => true
  | store | call | terminator | other => false

namespace Function

variable {f g k : Function} {b dest src : BlockId} {i j t : InstId} {v : ValueId}
  {instr : Instruction} {xs ys zs : List InstId}

/-- The instructions of a block that never move, with their handles and in order. -/
def fixedIn (f : Function) (b : BlockId) : List (InstId × Instruction) :=
  (f.placedIn b).filter fun p => !p.2.category.movable

/-- Whether a function is another one with some of its movable instructions in other blocks. -/
structure Rearranged (f g : Function) : Prop where
  /-- The function is coherent. -/
  coherent : g.Coherent
  /-- The function is well-formed. -/
  wellFormed : g.WellFormed
  /-- The graph stays. -/
  graph : Cfg.ofFunction g = Cfg.ofFunction f
  /-- The contents stay. -/
  inst? : ∀ i, g.inst? i = f.inst? i
  /-- The table of values stays. -/
  def? : ∀ v, g.def? v = f.def? v
  /-- The blocks stay. -/
  hasBlock : ∀ b, g.hasBlock b = f.hasBlock b
  /-- The parameters stay. -/
  params : g.params = f.params
  /-- The entry stays. -/
  entry : g.entry = f.entry
  /-- What is placed stays placed. -/
  placed : ∀ i, (∃ b, i ∈ g.instsOf b) ↔ ∃ b, i ∈ f.instsOf b
  /-- What never moves stays in its block, in order. -/
  fixed : ∀ b, g.fixedIn b = f.fixedIn b

/-- The instructions of a block with their contents. -/
theorem mem_placedIn {p : InstId × Instruction} :
    p ∈ f.placedIn b ↔ p.1 ∈ f.instsOf b ∧ f.inst? p.1 = some p.2 := by
  obtain ⟨i, instr⟩ := p
  simp only [placedIn, List.mem_filterMap, Option.map_eq_some_iff, Prod.mk.injEq]
  constructor
  · rintro ⟨j, hj, instr', hinst, rfl, rfl⟩
    exact ⟨hj, hinst⟩
  · rintro ⟨hi, hinst⟩
    exact ⟨i, hi, instr, hinst, rfl, rfl⟩

/-- The instructions of all blocks with their contents. -/
theorem mem_placed {p : InstId × Instruction} :
    p ∈ f.placed ↔ (∃ b, p.1 ∈ f.instsOf b) ∧ f.inst? p.1 = some p.2 := by
  simp only [Function.placed, List.mem_flatMap, mem_placedIn, mem_blockIds]
  constructor
  · rintro ⟨b, -, hi, hinst⟩
    exact ⟨⟨b, hi⟩, hinst⟩
  · rintro ⟨⟨b, hi⟩, hinst⟩
    exact ⟨b, hasBlock_of_mem_instsOf hi, hi, hinst⟩

/-- Different blocks list no instruction twice. -/
theorem Coherent.nodup_flatMap (hc : g.Coherent) {bs : List BlockId} (hbs : bs.Nodup) :
    (bs.flatMap g.placedIn).Nodup := by
  rw [List.nodup_flatMap]
  constructor
  · intro b _
    refine (hc.nodup b).filterMap fun i j q hi hj => ?_
    obtain ⟨_, -, rfl⟩ := Option.map_eq_some_iff.1 hi
    obtain ⟨_, -, heq⟩ := Option.map_eq_some_iff.1 hj
    exact (Prod.mk.inj heq).1.symm
  · refine hbs.imp fun {b c} hbc q hqb hqc => hbc ?_
    have hb := (hc.mem_iff _ _).1 (mem_placedIn.1 hqb).1
    exact hc.eq_of_owner? hb (mem_placedIn.1 hqc).1

/-- No instruction is placed twice. -/
theorem Coherent.nodup_placed (hc : f.Coherent) : f.placed.Nodup :=
  hc.nodup_flatMap (List.nodup_range.map fun _ _ h => BlockId.mk.inj h)

/-- Nor is a handle. -/
theorem Coherent.nodup_handles (hc : f.Coherent) : (f.placed.map (·.1)).Nodup := by
  refine hc.nodup_placed.map_on fun p hp q hq heq => ?_
  -- What is at a handle is the same wherever the handle is listed.
  have hinst := (mem_placed.1 hp).2
  rw [heq, (mem_placed.1 hq).2] at hinst
  exact Prod.ext heq (Option.some.inj hinst).symm

namespace Rearranged

/-- A coherent well-formed function is a rearrangement of itself. -/
theorem refl (hc : f.Coherent) (hw : f.WellFormed) : f.Rearranged f where
  coherent := hc
  wellFormed := hw
  graph := rfl
  inst? _ := rfl
  def? _ := rfl
  hasBlock _ := rfl
  params := rfl
  entry := rfl
  placed _ := Iff.rfl
  fixed _ := rfl

/-- A rearrangement of a rearrangement is one. -/
theorem trans (h : f.Rearranged g) (h' : g.Rearranged k) : f.Rearranged k where
  coherent := h'.coherent
  wellFormed := h'.wellFormed
  graph := h'.graph.trans h.graph
  inst? i := (h'.inst? i).trans (h.inst? i)
  def? v := (h'.def? v).trans (h.def? v)
  hasBlock b := (h'.hasBlock b).trans (h.hasBlock b)
  params := h'.params.trans h.params
  entry := h'.entry.trans h.entry
  placed i := (h'.placed i).trans (h.placed i)
  fixed b := (h'.fixed b).trans (h.fixed b)

/-- What is read off the instructions that never move stays, block by block. -/
theorem filterMap_placedIn (h : f.Rearranged g) {β : Type}
    {pick : InstId × Instruction → Option β}
    (hpick : ∀ p, p.2.category.movable = true → pick p = none) (b : BlockId) :
    (g.placedIn b).filterMap pick = (f.placedIn b).filterMap pick := by
  have hfun : (fun p => if (!p.2.category.movable) = true then pick p else none) = pick :=
    funext fun p => by
      cases hp : p.2.category.movable
      · simp
      · simp [hpick p hp]
  have hfixed : ∀ k : Function, (k.placedIn b).filterMap pick = (k.fixedIn b).filterMap pick :=
    fun k => by rw [fixedIn, List.filterMap_filter, hfun]
  rw [hfixed, hfixed, h.fixed b]

/-- The same instructions are placed. -/
theorem mem_placed_iff (h : f.Rearranged g) {p : InstId × Instruction} :
    p ∈ g.placed ↔ p ∈ f.placed := by
  rw [mem_placed, mem_placed, h.placed, h.inst?]

/-- They are placed in another order. -/
theorem perm_placed (h : f.Rearranged g) (hc : f.Coherent) : g.placed.Perm f.placed := by
  rw [List.perm_ext_iff_of_nodup h.coherent.nodup_placed hc.nodup_placed]
  exact fun p => h.mem_placed_iff

end Rearranged

/-- Relocating a movable instruction makes a rearrangement. -/
theorem Relocates.rearranged (h : f.Relocates g i src dest xs ys zs t) (hc : f.Coherent)
    (hw : f.WellFormed) (hinst : f.inst? i = some instr) (hm : instr.category.movable = true) :
    f.Rearranged g where
  coherent := h.coherent hc
  wellFormed := h.wellFormed hc hw
  graph := h.ofFunction_eq
  inst? := h.inst?_eq
  def? := h.def?_eq
  hasBlock := h.hasBlock_eq
  params := by rw [h.eq]; rfl
  entry := by rw [h.eq]; rfl
  placed _ := h.exists_mem_iff
  fixed b := by
    have hg : g.inst? = f.inst? := funext h.inst?_eq
    unfold fixedIn placedIn
    rw [hg]
    by_cases hs : b = src
    · rw [hs, h.source, h.source_after]
      simp [hinst, hm]
    · by_cases hd : b = dest
      · rw [hd, h.target, h.target_after]
        simp [hinst, hm, List.filterMap_cons]
      · rw [h.other b hs hd]

end Function

end LoopHoist
