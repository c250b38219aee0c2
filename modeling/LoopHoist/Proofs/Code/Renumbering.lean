import LoopHoist.Memory.LoopMemory
import LoopHoist.Proofs.Code.Relocation
import Mathlib.Logic.Equiv.Basic

/-!
# Renumbered blocks

A permutation of the blocks of a function gives each block another number (`Permutes`), and
`renumber` is the function under the new numbers: the blocks change places, and whatever names a
block, which are the entry, the owners, the targets of terminators and the sources of phis, names
its new number. Instructions and values keep their handles.

Every look-up at a new number gives what the old function has at the old one (`block?_renumber`,
`inst?_renumber`, `owner?_renumber`). So a renumbered function is as coherent and as well-formed as
the old one, and relocations come out renumbered (`relocate_renumber`).
-/

namespace LoopHoist

variable {f : Function} {σ : Equiv.Perm BlockId} {b c dest src : BlockId} {i : InstId}
  {instr : Instruction}

/-! ## Instructions -/

namespace Instruction

/-- The instruction with other blocks in place of those that it names. -/
def mapBlocks (σ : BlockId → BlockId) : Instruction → Instruction
  | phi dst ty incoming => phi dst ty (incoming.map fun q => (σ q.1, q.2))
  | jump target => jump (σ target)
  | branch cond ifTrue ifFalse => branch cond (σ ifTrue) (σ ifFalse)
  | i => i

/-- An instruction that names the blocks that it named is the same. -/
theorem mapBlocks_id (instr : Instruction) : instr.mapBlocks (fun b => b) = instr := by
  cases instr with
  | phi dst ty incoming => exact congrArg (phi dst ty) (List.map_id' incoming)
  | _ => rfl

/-- What an instruction is, apart from the blocks that it names. -/
theorem mapBlocks_same (σ : BlockId → BlockId) (instr : Instruction) :
    (instr.mapBlocks σ).def? = instr.def? ∧ (instr.mapBlocks σ).usedValues = instr.usedValues ∧
      (instr.mapBlocks σ).isTerminator = instr.isTerminator ∧
      (instr.mapBlocks σ).category = instr.category := by
  cases instr with
  | phi dst ty incoming =>
    refine ⟨rfl, ?_, rfl, rfl⟩
    simp only [mapBlocks, usedValues, operands, List.map_map, Function.comp_def]
  | _ => exact ⟨rfl, rfl, rfl, rfl⟩

/-- Nor do the blocks matter to what it has to do with memory. -/
theorem mapBlocks_memory (σ : BlockId → BlockId) (instr : Instruction) :
    (instr.mapBlocks σ).slot? = instr.slot? ∧ (instr.mapBlocks σ).published = instr.published ∧
      (instr.mapBlocks σ).storeAddr? = instr.storeAddr? := by
  cases instr with
  | phi dst ty incoming => exact ⟨rfl, (mapBlocks_same σ (phi dst ty incoming)).2.1, rfl⟩
  | _ => exact ⟨rfl, rfl, rfl⟩

/-- The successors are those of before under their new numbers. -/
theorem successors_mapBlocks (σ : Equiv.Perm BlockId) (instr : Instruction) :
    (instr.mapBlocks σ).successors = instr.successors.map σ := by
  cases instr with
  | branch cond ifTrue ifFalse =>
    simp only [mapBlocks, successors, EmbeddingLike.apply_eq_iff_eq]
    split <;> rfl
  | _ => rfl

/-- So are all blocks that it names. -/
theorem namedBlocks_mapBlocks (σ : Equiv.Perm BlockId) (instr : Instruction) :
    (instr.mapBlocks σ).namedBlocks = instr.namedBlocks.map σ := by
  cases instr with
  | phi dst ty incoming =>
    simp only [mapBlocks, namedBlocks, List.map_map, Function.comp_def]
  | branch cond ifTrue ifFalse => exact successors_mapBlocks σ (branch cond ifTrue ifFalse)
  | _ => rfl

end Instruction

/-! ## Functions -/

namespace Function

/-- Whether a permutation gives the blocks of a function the numbers of blocks of the function. -/
def Permutes (f : Function) (σ : Equiv.Perm BlockId) : Prop :=
  ∀ b, f.hasBlock (σ b) = f.hasBlock b

/-- Exchanging two blocks of a function permutes its blocks. -/
theorem permutes_swap (hb : f.hasBlock b = true) (hc : f.hasBlock c = true) :
    f.Permutes (Equiv.swap b c) := by
  intro x
  rw [Equiv.swap_apply_def]
  split
  · next hx => rw [hx, hb, hc]
  · split
    · next hx => rw [hx, hb, hc]
    · rfl

/-- The function with its blocks under new numbers. -/
def renumber (f : Function) (σ : Equiv.Perm BlockId) : Function :=
  { f with
    blocks := Array.ofFn fun k : Fin f.blocks.size => (f.block? (σ.symm ⟨k⟩)).getD default
    insts := f.insts.map fun n => { instr := n.instr.mapBlocks σ, owner := σ n.owner }
    entry := f.entry.map σ }

/-- Two functions are one if they differ neither in their blocks nor in anything else. -/
theorem ext_of_block? {f g : Function} (hname : g.name = f.name) (hparams : g.params = f.params)
    (hret : g.ret = f.ret) (hblocks : ∀ b, g.block? b = f.block? b) (hinsts : g.insts = f.insts)
    (hvalues : g.values = f.values) (hglobals : g.globals = f.globals)
    (hentry : g.entry = f.entry) : g = f := by
  have harray : g.blocks = f.blocks := by
    apply Array.ext_getElem?
    exact fun k => hblocks ⟨k⟩
  cases f
  cases g
  simp_all

/-! ## Look-ups -/

/-- No instruction changes but for the blocks that it names. -/
@[simp] theorem inst?_renumber (f : Function) (σ : Equiv.Perm BlockId) (i : InstId) :
    (f.renumber σ).inst? i = (f.inst? i).map (·.mapBlocks σ) := by
  simp only [inst?, renumber, Array.getElem?_map, Option.map_map, Function.comp_def]

/-- The owners are those of before under their new numbers. -/
@[simp] theorem owner?_renumber (f : Function) (σ : Equiv.Perm BlockId) (i : InstId) :
    (f.renumber σ).owner? i = (f.owner? i).map σ := by
  simp only [owner?, renumber, Array.getElem?_map, Option.map_map, Function.comp_def]

/-- No value comes from elsewhere than before. -/
@[simp] theorem def?_renumber (f : Function) (σ : Equiv.Perm BlockId) (v : ValueId) :
    (f.renumber σ).def? v = f.def? v := rfl

/-- There are as many blocks as before. -/
@[simp] theorem hasBlock_renumber (f : Function) (σ : Equiv.Perm BlockId) (b : BlockId) :
    (f.renumber σ).hasBlock b = f.hasBlock b := by
  simp only [hasBlock, renumber, Array.size_ofFn]

/-- A function of as many blocks is permuted alike. -/
theorem Permutes.of_hasBlock_eq {g : Function} (hσ : f.Permutes σ)
    (h : ∀ b, g.hasBlock b = f.hasBlock b) : g.Permutes σ := fun b => by
  rw [h, h, hσ b]

namespace Permutes

variable (hσ : f.Permutes σ)
include hσ

/-- At its new number a block is what it was. -/
theorem block?_renumber (b : BlockId) : (f.renumber σ).block? (σ b) = f.block? b := by
  have hnew : (f.renumber σ).block? (σ b) =
      if f.hasBlock (σ b) = true then some ((f.block? b).getD default) else none := by
    have hback : σ.symm ⟨(σ b).index⟩ = b := σ.symm_apply_apply b
    simp only [block?, renumber, Array.getElem?_ofFn, hasBlock, decide_eq_true_eq, hback]
    split <;> rfl
  rw [hnew, hσ b]
  unfold block? hasBlock
  split
  · next hb => rw [Array.getElem?_eq_getElem (of_decide_eq_true hb), Option.getD_some]
  · next hb => exact (Array.getElem?_eq_none (Nat.le_of_not_lt fun h => hb (decide_eq_true h))).symm

/-- At its new number a block lists what it listed. -/
theorem instsOf_renumber (b : BlockId) : (f.renumber σ).instsOf (σ b) = f.instsOf b := by
  unfold instsOf
  rw [hσ.block?_renumber]

/-- The instructions of a block are those of before, but for the blocks that they name. -/
theorem placedIn_renumber (b : BlockId) : (f.renumber σ).placedIn (σ b) =
    (f.placedIn b).map fun q => (q.1, q.2.mapBlocks σ) := by
  unfold placedIn
  rw [hσ.instsOf_renumber, List.map_filterMap]
  simp only [inst?_renumber, Option.map_map, Function.comp_def]

/-- So are all instructions, in another order. -/
theorem mem_placed_renumber {p : InstId × Instruction} :
    p ∈ (f.renumber σ).placed ↔ ∃ q ∈ f.placed, (q.1, q.2.mapBlocks σ) = p := by
  simp only [placed, List.mem_flatMap, mem_blockIds]
  constructor
  · rintro ⟨b, hb, hp⟩
    obtain ⟨b, rfl⟩ := σ.surjective b
    rw [hasBlock_renumber, hσ b] at hb
    rw [hσ.placedIn_renumber] at hp
    obtain ⟨q, hq, rfl⟩ := List.mem_map.1 hp
    exact ⟨q, ⟨b, hb, hq⟩, rfl⟩
  · rintro ⟨q, ⟨b, hb, hq⟩, rfl⟩
    refine ⟨σ b, by rw [hasBlock_renumber, hσ b, hb], ?_⟩
    rw [hσ.placedIn_renumber]
    exact List.mem_map.2 ⟨q, hq, rfl⟩

/-- The successors of a block are those of before under their new numbers. -/
theorem successors_renumber (b : BlockId) :
    (f.renumber σ).successors (σ b) = (f.successors b).map σ := by
  have hterm : (f.renumber σ).terminator? (σ b) = (f.terminator? b).map (·.mapBlocks σ) := by
    rw [terminator?_eq, terminator?_eq, hσ.instsOf_renumber]
    cases (f.instsOf b).getLast? with
    | none => rfl
    | some t =>
      rw [Option.bind_some, Option.bind_some, inst?_renumber]
      cases f.inst? t with
      | none => rfl
      | some instr =>
        have hsame := (instr.mapBlocks_same σ).2.2.1
        simp only [Option.map_some, Option.filter_some, hsame]
        split <;> rfl
  unfold successors
  rw [hterm]
  cases f.terminator? b with
  | none => rfl
  | some t => exact t.successors_mapBlocks σ

/-- A renumbered function is coherent if the function is. -/
theorem coherent (hc : f.Coherent) : (f.renumber σ).Coherent where
  nodup b := by
    obtain ⟨b, rfl⟩ := σ.surjective b
    rw [hσ.instsOf_renumber]
    exact hc.nodup b
  mem_iff i b := by
    obtain ⟨b, rfl⟩ := σ.surjective b
    rw [hσ.instsOf_renumber, owner?_renumber, hc.mem_iff]
    cases f.owner? i <;> simp
  def_inst v i hv := by
    obtain ⟨instr, hinst, hdef⟩ := hc.def_inst v i hv
    refine ⟨instr.mapBlocks σ, by rw [inst?_renumber, hinst]; rfl, ?_⟩
    rw [(instr.mapBlocks_same σ).1]
    exact hdef
  def_param := hc.def_param
  def_global := hc.def_global

/-- A renumbered function is well-formed if the function is. -/
theorem wellFormed (hw : f.WellFormed) : (f.renumber σ).WellFormed := by
  -- What is listed under a new number was listed under the old one.
  have hcontent : ∀ {i instr'}, (f.renumber σ).inst? i = some instr' →
      ∃ instr, f.inst? i = some instr ∧ instr.mapBlocks σ = instr' := fun {i instr'} h => by
    rw [inst?_renumber] at h
    exact Option.map_eq_some_iff.1 h
  refine ⟨?_, fun b hb => ?_, fun b i hi => ?_, fun b xs i ys instr' hl hinst => ?_,
    fun b i hi instr' hinst t ht => ?_, fun b i hi instr' hinst v hv => ?_⟩
  · obtain ⟨e, he, hhas⟩ := hw.entry
    refine ⟨σ e, ?_, ?_⟩
    · show f.entry.map σ = some (σ e)
      rw [he, Option.map_some]
    · rw [hasBlock_renumber, hσ e, hhas]
  · obtain ⟨b, rfl⟩ := σ.surjective b
    rw [hasBlock_renumber, hσ b] at hb
    rw [hσ.instsOf_renumber]
    exact hw.nonempty b hb
  · obtain ⟨b, rfl⟩ := σ.surjective b
    rw [hσ.instsOf_renumber] at hi
    rw [owner?_renumber, hw.owned b i hi, Option.map_some]
  · obtain ⟨b, rfl⟩ := σ.surjective b
    obtain ⟨instr, hold, rfl⟩ := hcontent hinst
    rw [hσ.instsOf_renumber] at hl
    rw [(instr.mapBlocks_same σ).2.2.1]
    exact hw.terminator b xs i ys instr hl hold
  · obtain ⟨b, rfl⟩ := σ.surjective b
    obtain ⟨instr, hold, rfl⟩ := hcontent hinst
    rw [hσ.instsOf_renumber] at hi
    rw [instr.namedBlocks_mapBlocks σ] at ht
    obtain ⟨u, hu, rfl⟩ := List.mem_map.1 ht
    rw [hasBlock_renumber, hσ u]
    exact hw.named b i hi instr hold u hu
  · obtain ⟨b, rfl⟩ := σ.surjective b
    obtain ⟨instr, hold, rfl⟩ := hcontent hinst
    rw [hσ.instsOf_renumber] at hi
    rw [(instr.mapBlocks_same σ).2.1] at hv
    have hbound := hw.bound b i hi instr hold v hv
    unfold isBound at hbound ⊢
    rw [def?_renumber]
    simp only [owner?_renumber, Option.isSome_map]
    exact hbound

/-- Relocating commutes with renumbering. -/
theorem relocate_renumber (i : InstId) (src dest : BlockId) :
    (f.renumber σ).relocate i (σ src) (σ dest) = (f.relocate i src dest).renumber σ := by
  have hσ' : (f.relocate i src dest).Permutes σ := hσ.of_hasBlock_eq fun b => by simp
  apply ext_of_block?
  case hblocks =>
    intro b
    obtain ⟨b, rfl⟩ := σ.surjective b
    rw [block?_relocate, hσ.block?_renumber, hσ'.block?_renumber, block?_relocate]
    simp only [EmbeddingLike.apply_eq_iff_eq]
  case hinsts =>
    apply Array.ext_getElem?
    intro k
    show ((f.insts.map fun n => (⟨n.instr.mapBlocks σ, σ n.owner⟩ : Node)).modify i.index
      fun n => { n with owner := σ dest })[k]? =
      ((f.insts.modify i.index fun n => { n with owner := dest }).map
        fun n => (⟨n.instr.mapBlocks σ, σ n.owner⟩ : Node))[k]?
    simp only [Array.getElem?_modify, Array.getElem?_map]
    split
    · simp only [Option.map_map, Function.comp_def]
    · rfl
  all_goals rfl

end Permutes

end Function

end LoopHoist
