import LoopHoist.Flow.Graph
import LoopHoist.Proofs.Code.Validity
import Mathlib.Data.List.Basic

/-!
# Relocating an instruction

In a well-formed function a relocation takes an instruction out of the middle of one block and puts
it before the last instruction of another (`Relocates`). Nothing else changes: the contents, the
table of values, the last instruction of each block and with them the graph stay, and so does
well-formedness.
-/

namespace LoopHoist

namespace Function

variable {f g : Function} {b dest src : BlockId} {i j t : InstId} {v : ValueId}
  {instr : Instruction} {xs ys zs : List InstId}

/-- What a relocation does: `g` is `f` with `i` taken out of `src`, where it stood between `xs` and
`ys`, and put between `zs` and the last instruction `t` of `dest`. -/
structure Relocates (f g : Function) (i : InstId) (src dest : BlockId) (xs ys zs : List InstId)
    (t : InstId) : Prop where
  /-- It is the relocation. -/
  eq : g = f.relocate i src dest
  /-- The blocks are different. -/
  ne : src ≠ dest
  /-- The block that the instruction leaves, before. -/
  source : f.instsOf src = xs ++ i :: ys
  /-- The block that the instruction leaves, after. -/
  source_after : g.instsOf src = xs ++ ys
  /-- The instruction is not the last one of its block. -/
  rest : ys ≠ []
  /-- The block that the instruction goes to, before. -/
  target : f.instsOf dest = zs ++ [t]
  /-- The block that the instruction goes to, after. -/
  target_after : g.instsOf dest = zs ++ [i, t]
  /-- The other blocks stay. -/
  other : ∀ b, b ≠ src → b ≠ dest → g.instsOf b = f.instsOf b

/-- In a coherent well-formed function, relocating an instruction that is no terminator to another
block has this effect. -/
theorem exists_relocates (hc : f.Coherent) (hw : f.WellFormed) (hi : f.owner? i = some src)
    (hinst : f.inst? i = some instr) (hn : instr.isTerminator = false) (hne : src ≠ dest)
    (hdest : f.hasBlock dest = true) :
    ∃ xs ys zs t, f.Relocates (f.relocate i src dest) i src dest xs ys zs t := by
  obtain ⟨xs, ys, hsrc⟩ := List.append_of_mem ((hc.mem_iff i src).2 hi)
  obtain ⟨zs, t, -, hzs, -⟩ := hw.exists_terminator hdest
  have hnd := hc.nodup src
  rw [hsrc] at hnd
  have hxs : i ∉ xs := fun h => (List.nodup_append.1 hnd).2.2 i h i List.mem_cons_self rfl
  refine ⟨xs, ys, zs, t, rfl, hne, hsrc, ?_, ?_, hzs, ?_, fun b hbs hbd => ?_⟩
  · rw [instsOf_relocate f i src dest src hdest, if_neg hne, instsWithout, if_pos rfl, hsrc,
      List.erase_append_right _ hxs, List.erase_cons_head]
  · intro hys
    have := (hw.terminator src xs i ys instr hsrc hinst).2 hys
    rw [hn] at this
    cases this
  · rw [instsOf_relocate f i src dest dest hdest, if_pos rfl, instsWithout, if_neg (Ne.symm hne),
      hzs, List.dropLast_concat, List.getLast?_concat]
    rfl
  · simp [hdest, hbd, hbs, instsWithout]

/-- In such a function the move of such an instruction succeeds, with this relocation. -/
theorem move_eq_ok (hc : f.Coherent) (hw : f.WellFormed) (hi : f.owner? i = some src)
    (hinst : f.inst? i = some instr) (hn : instr.isTerminator = false)
    (hdest : f.hasBlock dest = true) : f.move i dest = .ok (f.relocate i src dest) := by
  obtain ⟨-, -, last, -, -, -, hlast⟩ := hw.exists_terminator hdest
  obtain ⟨node, hnode, rfl⟩ := Option.map_eq_some_iff.1 hi
  obtain ⟨node', hnode', rfl⟩ := Option.map_eq_some_iff.1 hinst
  obtain rfl := Option.some.inj (hnode.symm.trans hnode')
  obtain ⟨block, hblock⟩ := exists_block? hdest
  unfold move
  simp only [hblock, (hw.resolves hdest).terminatorAt, hlast, hnode, hn, hc.hasBlock_of_owner? hi]
  simp

namespace Relocates

variable (h : f.Relocates g i src dest xs ys zs t)
include h

/-- The instruction is listed in the block that it leaves. -/
theorem mem_source : i ∈ f.instsOf src := by
  rw [h.source]
  exact List.mem_append_right _ List.mem_cons_self

/-- The destination exists. -/
theorem hasBlock_target : f.hasBlock dest = true := by
  have ht : t ∈ f.instsOf dest := by rw [h.target]; exact List.mem_concat_self
  exact hasBlock_of_mem_instsOf ht

/-- No content changes. -/
theorem inst?_eq (j : InstId) : g.inst? j = f.inst? j := by
  simp [h.eq]

/-- No value comes from elsewhere than before. -/
theorem def?_eq (v : ValueId) : g.def? v = f.def? v := by
  simp [h.eq]

/-- The same blocks exist. -/
theorem hasBlock_eq (b : BlockId) : g.hasBlock b = f.hasBlock b := by
  simp [h.eq]

/-- The last instruction of each block stays. -/
theorem getLast?_eq (b : BlockId) : (g.instsOf b).getLast? = (f.instsOf b).getLast? := by
  by_cases hs : b = src
  · obtain ⟨us, u, hys⟩ := (List.eq_nil_or_concat ys).resolve_left h.rest
    rw [hs, h.source, h.source_after, hys]
    simp [List.getLast?_append, List.getLast?_cons]
  · by_cases hd : b = dest
    · rw [hd, h.target, h.target_after]
      simp [List.getLast?_append]
    · rw [h.other b hs hd]

/-- Each block has the successors that it had. -/
theorem successors_eq (b : BlockId) : g.successors b = f.successors b := by
  have hinst : g.inst? = f.inst? := funext h.inst?_eq
  unfold successors
  rw [terminator?_eq, terminator?_eq, h.getLast?_eq, hinst]

/-- The graph stays. -/
theorem ofFunction_eq : Cfg.ofFunction g = Cfg.ofFunction f := by
  have hids : g.blockIds = f.blockIds := by
    have hsize : g.blocks.size = f.blocks.size := h.eq ▸ size_relocate f i src dest
    unfold blockIds
    rw [hsize]
  have hentry : g.entry = f.entry := by rw [h.eq]; rfl
  have hsucc : g.successors = f.successors := funext h.successors_eq
  unfold Cfg.ofFunction
  rw [hids, hentry, hsucc]

/-- The other instructions stay in their blocks. -/
theorem mem_iff_of_ne (hji : j ≠ i) : j ∈ g.instsOf b ↔ j ∈ f.instsOf b := by
  by_cases hs : b = src
  · rw [hs, h.source, h.source_after]
    simp [hji]
  · by_cases hd : b = dest
    · rw [hd, h.target, h.target_after]
      simp [hji]
    · rw [h.other b hs hd]

/-- What stands before another instruction after the relocation stood before it before, but for the
relocated instruction, and the other way round. -/
theorem exists_split {us vs : List InstId} (hji : j ≠ i) (hb : g.instsOf b = us ++ j :: vs) :
    ∃ us' vs', f.instsOf b = us' ++ j :: vs' ∧ ∀ k, k ≠ i → (k ∈ us' ↔ k ∈ us) := by
  by_cases hs : b = src
  · rw [hs, h.source_after] at hb
    rw [hs, h.source]
    rcases List.append_eq_append_iff.1 hb with ⟨as, rfl, hys⟩ | ⟨as, hxs, has⟩
    · exact ⟨xs ++ i :: as, vs, by rw [hys]; simp, fun k hk => by simp [hk]⟩
    · cases as with
      | nil => exact ⟨us ++ [i], vs, by simp_all, fun k hk => by simp [hk]⟩
      | cons k as =>
        obtain ⟨rfl, rfl⟩ := List.cons.inj has
        exact ⟨us, as ++ i :: ys, by rw [hxs]; simp, fun k _ => Iff.rfl⟩
  · by_cases hd : b = dest
    · rw [hd, h.target_after] at hb
      rw [hd, h.target]
      rcases List.append_eq_append_iff.1 hb with ⟨as, rfl, has⟩ | ⟨as, hzs, has⟩
      · -- It is the last one.
        cases as with
        | nil => exact absurd (List.cons.inj has).1.symm hji
        | cons k as =>
          obtain ⟨rfl, htail⟩ := List.cons.inj has
          cases as with
          | nil =>
            obtain ⟨rfl, rfl⟩ := List.cons.inj htail
            exact ⟨zs, [], rfl, fun k hk => by simp [hk]⟩
          | cons k as => simp at htail
      · cases as with
        | nil => exact absurd (List.cons.inj has).1 hji
        | cons k as =>
          obtain ⟨rfl, rfl⟩ := List.cons.inj has
          exact ⟨us, as ++ [t], by rw [hzs]; simp, fun k _ => Iff.rfl⟩
    · exact ⟨us, vs, by rw [← h.other b hs hd, hb], fun k _ => Iff.rfl⟩

/-- The instruction is in its new block. -/
theorem mem_target_after : i ∈ g.instsOf dest := by
  rw [h.target_after]
  simp

/-- What is listed somewhere before is listed somewhere after, and the other way round. -/
theorem exists_mem_iff : (∃ b, j ∈ g.instsOf b) ↔ ∃ b, j ∈ f.instsOf b := by
  by_cases hji : j = i
  · subst hji
    exact ⟨fun _ => ⟨src, h.mem_source⟩, fun _ => ⟨dest, h.mem_target_after⟩⟩
  · exact exists_congr fun b => h.mem_iff_of_ne hji

/-- The same values are bound. -/
theorem isBound_eq (v : ValueId) : g.isBound v = f.isBound v := by
  have howner : ∀ j, (g.owner? j).isSome = (f.owner? j).isSome := fun j => by
    rw [isSome_owner?_iff, isSome_owner?_iff, h.inst?_eq]
  unfold isBound
  rw [h.def?_eq]
  cases f.def? v with
  | none => rfl
  | some origin => cases origin <;> simp only [howner]

section Coherent

variable (hc : f.Coherent)
include hc

/-- The function stays coherent. -/
theorem coherent : g.Coherent := by
  rw [h.eq]
  exact hc.relocate ((hc.mem_iff i src).1 h.mem_source) h.hasBlock_target

/-- The instruction is listed in its new block and nowhere else. -/
theorem mem_iff_self : i ∈ g.instsOf b ↔ b = dest := by
  constructor
  · intro hb
    have hdest := ((h.coherent hc).mem_iff i dest).1 h.mem_target_after
    rw [((h.coherent hc).mem_iff i b).1 hb] at hdest
    exact Option.some.inj hdest
  · exact fun hb => hb ▸ h.mem_target_after

/-- The instruction was listed in its old block and nowhere else. -/
theorem eq_source_of_mem (hb : i ∈ f.instsOf b) : b = src := by
  have := (hc.mem_iff i b).1 hb
  rw [(hc.mem_iff i src).1 h.mem_source] at this
  exact (Option.some.inj this).symm

/-- The last instruction of the destination is another one. -/
theorem ne_last : t ≠ i := fun hti => h.ne (by
  refine (h.eq_source_of_mem hc (b := dest) ?_).symm
  rw [h.target, hti]
  exact List.mem_concat_self)

/-- What stands around the instruction after the relocation. -/
theorem eq_of_split {us vs : List InstId} (hb : g.instsOf b = us ++ i :: vs) :
    b = dest ∧ us = zs ∧ vs = [t] := by
  have hi : i ∈ g.instsOf b := by rw [hb]; simp
  obtain rfl := (h.mem_iff_self hc).1 hi
  have hnd := (h.coherent hc).nodup b
  have hza : i ∉ zs := fun hz => by
    rw [h.target_after] at hnd
    exact (List.nodup_append.1 hnd).2.2 i hz i List.mem_cons_self rfl
  have hta : i ∉ [t] := by simpa using (h.ne_last hc).symm
  rw [h.target_after] at hb
  obtain ⟨rfl, -, rfl⟩ := (List.append_cons_inj_of_notMem hza hta).1 hb
  exact ⟨rfl, rfl, rfl⟩

/-- The function stays well-formed. -/
theorem wellFormed (hw : f.WellFormed) : g.WellFormed := by
  have hc' := h.coherent hc
  -- In a list without repetition nothing follows exactly the last element.
  have hlast : ∀ {l us vs : List InstId} {k}, l.Nodup → l = us ++ k :: vs →
      (vs = [] ↔ l.getLast? = some k) := fun {l us vs k} hnd hl => by
    subst hl
    rcases List.eq_nil_or_concat vs with rfl | ⟨ws, w, rfl⟩
    · simp
    · have hne : w ≠ k := fun hwk => by
        subst hwk
        simp [List.nodup_append] at hnd
      simp [List.getLast?_append, List.getLast?_cons, hne]
  have hold {b j instr} (hj : j ∈ f.instsOf b) (hinst : f.inst? j = some instr) :
      instr.isTerminator = true ↔ (f.instsOf b).getLast? = some j := by
    obtain ⟨us, vs, hl⟩ := List.append_of_mem hj
    rw [hw.terminator b us j vs instr hl hinst, hlast (hc.nodup b) hl]
  have hmoved : ∀ {instr}, f.inst? i = some instr → instr.isTerminator = false := fun hinst => by
    rw [Bool.eq_false_iff]
    intro hterm
    exact h.rest ((hw.terminator src xs i ys _ h.source hinst).1 hterm)
  refine ⟨?_, fun b hb => ?_, fun b j => (hc'.mem_iff j b).1, fun b us j vs instr hl hinst => ?_,
    fun b j hj instr hinst => ?_, fun b j hj instr hinst => ?_⟩
  · obtain ⟨e, he, hb⟩ := hw.entry
    exact ⟨e, by rw [h.eq]; exact he, by rw [h.hasBlock_eq]; exact hb⟩
  · rw [h.hasBlock_eq] at hb
    intro hnil
    have hlast := h.getLast?_eq b
    rw [hnil, List.getLast?_nil, eq_comm, List.getLast?_eq_none_iff] at hlast
    exact hw.nonempty b hb hlast
  · rw [h.inst?_eq] at hinst
    rw [hlast (hc'.nodup b) hl, h.getLast?_eq]
    have hj : j ∈ g.instsOf b := by rw [hl]; simp
    by_cases hji : j = i
    · subst hji
      obtain rfl := (h.mem_iff_self hc).1 hj
      rw [hmoved hinst, h.target, List.getLast?_concat]
      simp [h.ne_last hc]
    · exact hold ((h.mem_iff_of_ne hji).1 hj) hinst
  · rw [h.inst?_eq] at hinst
    obtain ⟨c, hj⟩ := (h.exists_mem_iff).1 ⟨b, hj⟩
    intro t ht
    rw [h.hasBlock_eq]
    exact hw.named c j hj instr hinst t ht
  · rw [h.inst?_eq] at hinst
    obtain ⟨c, hj⟩ := (h.exists_mem_iff).1 ⟨b, hj⟩
    intro v hv
    rw [h.isBound_eq]
    exact hw.bound c j hj instr hinst v hv

end Coherent

end Relocates

end Function

end LoopHoist
