import LoopHoist.Code.Builder

/-!
# What every edit keeps

The arenas, the blocks and the table of values of a function describe each other: a block lists
exactly the instructions that it owns, each once, and what the table says of a value is so
(`Coherent`). The functions that can be made at all are those that edits make, under any signature
that keeps the parameters that values come from (`Built`), and all of them are coherent, since each
edit keeps coherence (`Built.coherent`).
-/

namespace LoopHoist

namespace Function

variable {f : Function} {b c dest src : BlockId} {i j : InstId} {v : ValueId} {instr : Instruction}

/-- Whether the parts of a function describe each other. -/
structure Coherent (f : Function) : Prop where
  /-- A block lists no instruction twice. -/
  nodup : ∀ b, (f.instsOf b).Nodup
  /-- A block lists what it owns. -/
  mem_iff : ∀ i b, i ∈ f.instsOf b ↔ f.owner? i = some b
  /-- A value that comes from an instruction is written by it. -/
  def_inst : ∀ v i, f.def? v = some (.inst i) → ∃ instr, f.inst? i = some instr ∧
    instr.def? = some v
  /-- A value that comes from a parameter is bound to it. -/
  def_param : ∀ v k, f.def? v = some (.param k) → ∃ p, f.params[k]? = some p ∧ p.value = v
  /-- A value that comes from a global is the one that stands for it. -/
  def_global : ∀ v name, f.def? v = some (.global name) → f.global? name = some v

/-! ## Look-ups after an edit -/

/-- An existing block can be looked up. -/
theorem exists_block? (hb : f.hasBlock b = true) : ∃ block, f.block? b = some block :=
  ⟨_, Array.getElem?_eq_getElem (of_decide_eq_true hb)⟩

/-- An instruction of the arena has an owner and a content. -/
theorem isSome_owner?_iff : (f.owner? i).isSome = (f.inst? i).isSome := by
  simp only [owner?, inst?, Option.isSome_map]

/-- The next instruction is not in the arena yet. -/
@[simp] theorem inst?_nextInst (f : Function) : f.inst? f.nextInst = none := by
  simp [inst?, nextInst]

/-- The next instruction has no owner yet. -/
@[simp] theorem owner?_nextInst (f : Function) : f.owner? f.nextInst = none := by
  simp [owner?, nextInst]

/-- Only the block appended to lists more than before. -/
@[simp] theorem instsOf_append (f : Function) (b c : BlockId) (instr : Instruction) :
    (f.append b instr).instsOf c =
      if c = b ∧ f.hasBlock b = true then f.instsOf c ++ [f.nextInst] else f.instsOf c := by
  unfold instsOf
  rw [block?_append]
  by_cases hcb : c = b
  · subst hcb
    by_cases hb : f.hasBlock c = true
    · obtain ⟨block, hblock⟩ := exists_block? hb
      rw [if_pos rfl, if_pos ⟨rfl, hb⟩, hblock]
      rfl
    · have hn : f.block? c = none := Array.getElem?_eq_none (Nat.le_of_not_lt fun h =>
        hb (decide_eq_true h))
      rw [if_pos rfl, if_neg fun h => hb h.2, hn]
      rfl
  · rw [if_neg hcb, if_neg fun h => hcb h.1]

/-- What a block lists when an instruction was taken out of `src`. -/
def instsWithout (f : Function) (i : InstId) (src b : BlockId) : List InstId :=
  if b = src then (f.instsOf b).erase i else f.instsOf b

/-- The instructions of a block after a relocation. -/
@[simp] theorem instsOf_relocate (f : Function) (i : InstId) (src dest b : BlockId)
    (hdest : f.hasBlock dest = true) :
    (f.relocate i src dest).instsOf b =
      if b = dest then
        (f.instsWithout i src b).dropLast ++ i :: (f.instsWithout i src b).getLast?.toList
      else f.instsWithout i src b := by
  unfold instsWithout instsOf
  rw [block?_relocate]
  cases hb : f.block? b with
  | none =>
    have hne : b ≠ dest := fun h => by
      obtain ⟨block, hblock⟩ := exists_block? hdest
      rw [h, hblock] at hb
      cases hb
    simp only [Option.map_none, List.erase_nil, ite_self, if_neg hne]
  | some block =>
    simp only [Option.map_some]
    by_cases hs : b = src
    · simp only [if_pos hs]
      split <;> rfl
    · simp only [if_neg hs]
      split <;> rfl

/-- A new block lists nothing, and the others what they did. -/
@[simp] theorem instsOf_addBlock (f : Function) (label : String) (b : BlockId) :
    (f.addBlock label).instsOf b = f.instsOf b := by
  obtain ⟨b⟩ := b
  simp only [instsOf, addBlock, block?, Array.getElem?_push]
  by_cases hb : b = f.blocks.size
  · simp [hb]
  · rw [if_neg hb]

/-- A new value comes from the given place. -/
@[simp] theorem def?_addValue (f : Function) (origin : ValueDef) (v : ValueId) :
    (f.addValue origin).def? v = if v = f.nextValue then some origin else f.def? v := by
  obtain ⟨v⟩ := v
  by_cases hv : v = f.values.size <;> simp [def?, addValue, nextValue, Array.getElem?_push, hv]

/-- Replacing the edges of a phi gives another content to the instruction that its value comes from,
and changes nothing else. -/
theorem exists_phi_of_setPhi {g : Function} {phi : ValueId} {incoming : List (BlockId × Operand)}
    (h : f.setPhi phi incoming = .ok g) :
    ∃ i dst ty old, f.def? phi = some (.inst i) ∧ f.inst? i = some (.phi dst ty old) ∧
      (∀ j, g.inst? j = if j = i then some (.phi dst ty incoming) else f.inst? j) ∧
      (∀ j, g.owner? j = f.owner? j) ∧
      ∃ insts : Array Node, insts.size = f.insts.size ∧ g = { f with insts } := by
  unfold setPhi at h
  split at h
  · cases h
  · next i hi =>
    split at h
    · next dst ty old hphi =>
      obtain rfl := Except.ok.inj h
      -- Only the content of `i` is other; the owner of each entry of the arena stays.
      refine ⟨i, dst, ty, old, ?_, hphi, fun j => ?_, fun j => ?_, _, Array.size_modify, rfl⟩
      · unfold definingInst? at hi
        split at hi
        · next k hk => rw [hk, Option.some.inj hi]
        · cases hi
      · obtain ⟨node, hnode, -⟩ := Option.map_eq_some_iff.1 hphi
        obtain ⟨i⟩ := i
        obtain ⟨j⟩ := j
        by_cases hij : j = i
        · subst hij
          simp only [inst?, Array.getElem?_modify, if_pos, hnode, Option.map_some]
        · simp [inst?, Array.getElem?_modify, hij, Ne.symm hij]
      · simp only [owner?, Array.getElem?_modify]
        split <;> simp [Function.comp_def]
    · cases h

namespace Coherent

/-- An owner exists. -/
theorem hasBlock_of_owner? (h : f.Coherent) (hi : f.owner? i = some b) : f.hasBlock b = true := by
  have hmem := (h.mem_iff i b).2 hi
  unfold instsOf at hmem
  split at hmem
  · next block hb => exact decide_eq_true (Array.getElem?_eq_some_iff.1 hb).1
  · cases hmem

/-- An instruction is listed by its owner only. -/
theorem eq_of_owner? (h : f.Coherent) (hi : f.owner? i = some b) (hmem : i ∈ f.instsOf c) :
    b = c :=
  Option.some.inj (hi.symm.trans ((h.mem_iff i c).1 hmem))

/-- A function without instructions and values is coherent. -/
theorem new (name : String) (params : List Param) (ret : Option Ty) :
    ({ name, params, ret } : Function).Coherent := by
  constructor <;> simp [instsOf, block?, owner?, def?]

/-- Adding a block keeps coherence. -/
theorem addBlock (h : f.Coherent) (label : String) : (f.addBlock label).Coherent where
  nodup b := by rw [instsOf_addBlock]; exact h.nodup b
  mem_iff i b := by rw [instsOf_addBlock]; exact h.mem_iff i b
  def_inst := h.def_inst
  def_param := h.def_param
  def_global := h.def_global

/-- Adding a value that comes from nowhere keeps coherence. -/
theorem addValue (h : f.Coherent) : (f.addValue .unbound).Coherent where
  nodup := h.nodup
  mem_iff := h.mem_iff
  def_inst v i hv := by
    rw [def?_addValue] at hv
    split at hv
    · cases hv
    · exact h.def_inst v i hv
  def_param v k hv := by
    rw [def?_addValue] at hv
    split at hv
    · cases hv
    · exact h.def_param v k hv
  def_global v name hv := by
    rw [def?_addValue] at hv
    split at hv
    · cases hv
    · exact h.def_global v name hv

/-- Adding a parameter keeps coherence. -/
theorem addParam (h : f.Coherent) (ty : Ty) : (f.addParam ty).Coherent := by
  have hdef : ∀ v, (f.addParam ty).def? v =
      if v = f.nextValue then some (.param f.params.length) else f.def? v := fun v =>
    def?_addValue f _ v
  refine ⟨h.nodup, h.mem_iff, fun v i hv => ?_, fun v k hv => ?_, fun v name hv => ?_⟩
  · rw [hdef] at hv
    split at hv
    · cases hv
    · exact h.def_inst v i hv
  · rw [hdef] at hv
    simp only [Function.addParam]
    split at hv
    · next hnew =>
      obtain rfl : f.params.length = k := by simpa using hv
      exact ⟨⟨f.nextValue, ty⟩, by simp, hnew.symm⟩
    · obtain ⟨p, hp, hpv⟩ := h.def_param v k hv
      refine ⟨p, ?_, hpv⟩
      rw [List.getElem?_append_left (List.getElem?_eq_some_iff.1 hp).1]
      exact hp
  · rw [hdef] at hv
    split at hv
    · cases hv
    · exact h.def_global v name hv

/-- Adding a global keeps coherence. -/
theorem addGlobal (h : f.Coherent) (name : String) : (f.addGlobal name).Coherent := by
  unfold Function.addGlobal
  split
  · exact h
  · next hnone =>
    refine ⟨h.nodup, h.mem_iff, fun v i hv => ?_, fun v k hv => ?_, fun v n hv => ?_⟩
    · replace hv : (f.addValue (.global name)).def? v = some (.inst i) := hv
      rw [def?_addValue] at hv
      split at hv
      · cases hv
      · exact h.def_inst v i hv
    · replace hv : (f.addValue (.global name)).def? v = some (.param k) := hv
      rw [def?_addValue] at hv
      split at hv
      · cases hv
      · exact h.def_param v k hv
    · replace hv : (f.addValue (.global name)).def? v = some (.global n) := hv
      rw [def?_addValue] at hv
      simp only [global?, List.lookup_append]
      split at hv
      · next hnew =>
        obtain rfl : name = n := by simpa using hv
        rw [global?] at hnone
        simp [hnone, hnew]
      · rw [show f.globals.lookup n = some v from h.def_global v n hv]
        rfl

/-- Appending to an existing block keeps coherence. -/
theorem append (h : f.Coherent) (hb : f.hasBlock b = true) (instr : Instruction) :
    (f.append b instr).Coherent := by
  -- The handle that is issued has no owner yet, so no block lists it.
  have hnew : ∀ c, f.nextInst ∉ f.instsOf c := fun c hc => by
    have := (h.mem_iff _ c).1 hc
    rw [owner?_nextInst] at this
    cases this
  refine ⟨fun c => ?_, fun i c => ?_, fun v i hv => ?_, fun v k hv => ?_, fun v name hv => ?_⟩
  · rw [instsOf_append]
    split
    · refine List.nodup_append.2 ⟨h.nodup c, by simp, fun i hi j hj hij => hnew c ?_⟩
      rw [← List.mem_singleton.1 hj, ← hij]
      exact hi
    · exact h.nodup c
  · rw [instsOf_append, owner?_append]
    by_cases hi : i = f.nextInst
    · subst hi
      rw [if_pos rfl, Option.some.injEq]
      split
      · next hc => simp [hc.1]
      · next hc => exact ⟨fun hm => absurd hm (hnew c), fun hbc => absurd ⟨hbc.symm, hb⟩ hc⟩
    · rw [if_neg hi, ← h.mem_iff i c]
      split
      · simp [hi]
      · exact Iff.rfl
  -- The value of the new instruction is bound to it; all others keep their definition.
  · rw [def?_append] at hv
    rw [inst?_append]
    split at hv
    · next hd =>
      obtain ⟨-, -, heq⟩ := Option.map_eq_some_iff.1 hv
      obtain rfl : f.nextInst = i := by simpa using heq
      exact ⟨instr, by rw [if_pos rfl], hd⟩
    · obtain ⟨instr', hi, hd⟩ := h.def_inst v i hv
      refine ⟨instr', ?_, hd⟩
      rw [if_neg fun hn => ?_, hi]
      rw [hn, inst?_nextInst] at hi
      cases hi
  · rw [def?_append] at hv
    split at hv
    · obtain ⟨-, -, heq⟩ := Option.map_eq_some_iff.1 hv
      cases heq
    · exact h.def_param v k hv
  · rw [def?_append] at hv
    split at hv
    · obtain ⟨-, -, heq⟩ := Option.map_eq_some_iff.1 hv
      cases heq
    · exact h.def_global v name hv

/-- Replacing the edges of a phi keeps coherence. -/
theorem setPhi {g : Function} {phi : ValueId} {incoming : List (BlockId × Operand)}
    (h : f.Coherent) (hg : f.setPhi phi incoming = .ok g) : g.Coherent := by
  obtain ⟨i, dst, ty, old, -, hold, hinst, howner, insts, -, rfl⟩ := exists_phi_of_setPhi hg
  refine ⟨h.nodup, fun j b => ?_, fun v j hv => ?_, h.def_param, h.def_global⟩
  · rw [howner]
    exact h.mem_iff j b
  · obtain ⟨instr, hj, hd⟩ := h.def_inst v j hv
    rw [hinst]
    split
    · next hji =>
      -- The edges change, the result stays.
      rw [hji, hold] at hj
      obtain rfl := Option.some.inj hj
      exact ⟨_, rfl, hd⟩
    · exact ⟨instr, hj, hd⟩

/-- Relocating an instruction keeps coherence. -/
theorem relocate (h : f.Coherent) (hi : f.owner? i = some src) (hdest : f.hasBlock dest = true) :
    (f.relocate i src dest).Coherent := by
  -- What is left in a block after `i` was taken out has no `i`.
  have hrest : ∀ b, i ∉ f.instsWithout i src b ∧ (f.instsWithout i src b).Nodup := fun b => by
    unfold instsWithout
    split
    · exact ⟨fun hm => ((h.nodup b).mem_erase_iff.1 hm).1 rfl, (h.nodup b).erase i⟩
    · next hb =>
      refine ⟨fun hm => hb ?_, h.nodup b⟩
      have := (h.mem_iff i b).1 hm
      rw [hi] at this
      exact (Option.some.inj this).symm
  have hperm (l : List InstId) : (l.dropLast ++ i :: l.getLast?.toList).Perm (i :: l) := by
    refine List.perm_middle.trans (.cons i ?_)
    rcases List.eq_nil_or_concat l with rfl | ⟨l', x, rfl⟩ <;> simp
  refine ⟨fun b => ?_, fun j b => ?_, fun v j hv => ?_, h.def_param, h.def_global⟩
  · rw [instsOf_relocate f i src dest b hdest]
    obtain ⟨hn, hnd⟩ := hrest b
    split
    · exact (hperm _).nodup_iff.2 (List.nodup_cons.2 ⟨hn, hnd⟩)
    · exact hnd
  · rw [instsOf_relocate f i src dest b hdest, owner?_relocate]
    obtain ⟨hn, -⟩ := hrest b
    by_cases hji : j = i
    · subst hji
      rw [if_pos rfl, hi, Option.map_some, Option.some.injEq]
      split
      · next hb => exact ⟨fun _ => hb.symm, fun _ => (hperm _).mem_iff.2 List.mem_cons_self⟩
      · next hb => exact ⟨fun hm => absurd hm hn, fun hd => absurd hd.symm hb⟩
    · have hj : j ∈ f.instsWithout i src b ↔ f.owner? j = some b := by
        rw [← h.mem_iff j b, instsWithout]
        split
        · exact List.mem_erase_of_ne hji
        · exact Iff.rfl
      rw [if_neg hji, ← hj]
      split
      · rw [(hperm _).mem_iff, List.mem_cons]
        exact or_iff_right hji
      · exact Iff.rfl
  · rw [inst?_relocate]
    exact h.def_inst v j hv

end Coherent

/-- A move that succeeds is a relocation out of the owner. -/
theorem exists_relocate_of_move {g : Function} (h : f.move i dest = .ok g) :
    ∃ src instr, f.owner? i = some src ∧ f.inst? i = some instr ∧ instr.isTerminator = false ∧
      f.hasBlock dest = true ∧ g = f.relocate i src dest := by
  unfold move at h
  split at h
  · cases h
  · next block hblock =>
    split at h
    · cases h
    · cases h
    · split at h
      · cases h
      · next node hnode =>
        split at h
        · cases h
        · next ht =>
          split at h
          · refine ⟨node.owner, node.instr, by simp [owner?, hnode], by simp [inst?, hnode],
              by simpa using ht, ?_, (Except.ok.inj h).symm⟩
            exact decide_eq_true (Array.getElem?_eq_some_iff.1 hblock).1
          · cases h

/-- The functions that edits make: what an edit of one gives is one, unless the edit faults. The
signature may be overwritten at any time, as long as a value that comes from a parameter is still
bound to it. -/
inductive Built : Function → Prop where
  /-- A function without blocks. -/
  | new (name : String) (params : List Param) (ret : Option Ty) :
    Built { name, params, ret }
  /-- What an edit makes of it. -/
  | edit {f : Function} (h : Built f) (e : Edit)
    (hf : ∀ fault, (f.edit e).2 ≠ .error (.fault fault)) : Built (f.edit e).1
  /-- The function under another signature. -/
  | sign {f : Function} (h : Built f) (name : String) (params : List Param) (ret : Option Ty)
    (hparams : ∀ v k, f.def? v = some (.param k) → ∃ p, params[k]? = some p ∧ p.value = v) :
    Built { f with name, params, ret }

/-- The functions that edits make are coherent. -/
theorem Built.coherent (h : f.Built) : f.Coherent := by
  induction h with
  | new name params ret => exact .new name params ret
  | @edit f _ e hf ih =>
    cases e with
    | addBlock label => exact ih.addBlock label
    | addParam ty => exact ih.addParam ty
    | addGlobal name => exact ih.addGlobal name
    | addValue => exact ih.addValue
    | append b instr =>
      by_cases hb : f.hasBlock b = true
      · exact ih.append hb instr
      -- Only the append to a missing block leaves an arena that is not coherent, and it faults.
      · exact absurd (by simp [Function.edit, hb]) (hf .outOfBounds)
    | setEntry b => exact ⟨ih.nodup, ih.mem_iff, ih.def_inst, ih.def_param, ih.def_global⟩
    | setReturn ty => exact ⟨ih.nodup, ih.mem_iff, ih.def_inst, ih.def_param, ih.def_global⟩
    | setPhi phi incoming =>
      simp only [Function.edit]
      split
      · next hg => exact ih.setPhi hg
      · exact ih
    | move i dest =>
      simp only [Function.edit]
      split
      · next hg =>
        obtain ⟨src, -, hi, -, -, hdest, rfl⟩ := exists_relocate_of_move hg
        exact ih.relocate hi hdest
      · exact ih
  | sign _ name params ret hparams ih =>
    exact ⟨ih.nodup, ih.mem_iff, ih.def_inst, hparams, ih.def_global⟩

/-- Whether no edit of a list faults when they are made one after the other. -/
def editsCleanly (f : Function) : List Edit → Bool
  | [] => true
  | e :: es =>
    (match (f.edit e).2 with | .error (.fault _) => false | _ => true) &&
      (f.edit e).1.editsCleanly es

/-- A list of edits of which none faults makes such a function. -/
theorem Built.edits (h : f.Built) (es : List Edit) (hc : f.editsCleanly es = true) :
    (f.edits es).Built := by
  induction es generalizing f with
  | nil => exact h
  | cons e es ih =>
    rw [editsCleanly, Bool.and_eq_true] at hc
    refine ih (h.edit e fun fault hf => ?_) hc.2
    rw [hf] at hc
    exact absurd hc.1 (by simp)

end Function

end LoopHoist
