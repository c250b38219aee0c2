import LoopHoist.Code.WellFormed
import LoopHoist.Proofs.Code.Coherence
import LoopHoist.Proofs.Code.Lookup

/-!
# What a passed check says

`violation?` walks over the blocks and the instructions of each. `WellFormed` says the same without
the walk, and the two agree (`violation?_eq_none_iff`), so that the check can be both used on the
function that enters the pass and established for the one that leaves it.
-/

namespace LoopHoist

namespace Function

variable {f : Function} {b c e : BlockId} {i j : InstId} {v : ValueId} {instr : Instruction}
  {label : String}

/-- Whether a function is well-formed. -/
structure WellFormed (f : Function) : Prop where
  /-- The entry exists. -/
  entry : ∃ e, f.entry = some e ∧ f.hasBlock e = true
  /-- No block is empty. -/
  nonempty : ∀ b, f.hasBlock b = true → f.instsOf b ≠ []
  /-- A block owns what it lists. -/
  owned : ∀ b, ∀ i ∈ f.instsOf b, f.owner? i = some b
  /-- The last instruction of a block and no other is a terminator. -/
  terminator : ∀ b xs i ys instr, f.instsOf b = xs ++ i :: ys → f.inst? i = some instr →
    (instr.isTerminator = true ↔ ys = [])
  /-- Every block that a listed instruction names exists. -/
  named : ∀ b, ∀ i ∈ f.instsOf b, ∀ instr, f.inst? i = some instr →
    ∀ t ∈ instr.namedBlocks, f.hasBlock t = true
  /-- Every value that a listed instruction uses is bound. -/
  bound : ∀ b, ∀ i ∈ f.instsOf b, ∀ instr, f.inst? i = some instr →
    ∀ v ∈ instr.usedValues, f.isBound v = true

/-! ## The walk -/

/-- What the check asks of one listed instruction. -/
structure FitsAt (f : Function) (b : BlockId) (isLast : Bool) (i : InstId) (instr : Instruction) :
    Prop where
  /-- The instruction is in the arena. -/
  content : f.inst? i = some instr
  /-- The block owns it. -/
  owned : f.owner? i = some b
  /-- It is a terminator exactly when it is the last one. -/
  terminator : instr.isTerminator = isLast
  /-- The blocks that it names exist. -/
  named : ∀ t ∈ instr.namedBlocks, f.hasBlock t = true
  /-- The values that it uses are bound. -/
  bound : ∀ v ∈ instr.usedValues, f.isBound v = true

/-- No rule is broken at an instruction exactly when it fits. -/
theorem violationAt?_eq_none_iff (isLast : Bool) :
    f.violationAt? b label isLast i = none ↔ ∃ instr, f.FitsAt b isLast i instr := by
  unfold violationAt?
  split
  · next hn =>
    refine ⟨fun h => (by cases h), fun ⟨instr, h⟩ => ?_⟩
    have := h.content
    rw [inst?, hn] at this
    cases this
  · next node hnode =>
    have hcontent : f.inst? i = some node.instr := by rw [inst?, hnode]; rfl
    have howner : f.owner? i = some node.owner := by rw [owner?, hnode]; rfl
    constructor
    -- The check asks in this order for owner, misplaced and missing terminator, blocks, values.
    · intro h
      split at h
      · cases h
      · next ho =>
        split at h
        · cases h
        · next hmisplaced =>
          split at h
          · cases h
          · next hmissing =>
            split at h
            · cases h
            · next hnamed =>
              refine ⟨node.instr, hcontent, ?_, ?_, ?_, ?_⟩
              · rw [howner, Classical.not_not.1 ho]
              · cases ht : node.instr.isTerminator <;> cases isLast <;> simp_all
              · simpa using hnamed
              · simpa using h
    · rintro ⟨instr, h⟩
      obtain rfl : node.instr = instr := Option.some.inj (hcontent.symm.trans h.content)
      obtain rfl : node.owner = b := Option.some.inj (howner.symm.trans h.owned)
      have hnamed : node.instr.namedBlocks.find? (fun t => !f.hasBlock t) = none := by
        simpa using h.named
      have hbound : node.instr.usedValues.find? (fun v => !f.isBound v) = none := by
        simpa using h.bound
      rw [← h.terminator, hnamed, hbound]
      cases node.instr.isTerminator <;> simp

/-- No rule is broken in a list exactly when each of its instructions fits, the last one as the
last. -/
theorem violationIn?_eq_none_iff (l : List InstId) :
    f.violationIn? b label l = none ↔
      ∀ xs i ys, l = xs ++ i :: ys → ∃ instr, f.FitsAt b ys.isEmpty i instr := by
  induction l with
  | nil => simp [violationIn?]
  | cons i rest ih =>
    have hsplit : f.violationIn? b label (i :: rest) = none ↔
        f.violationAt? b label rest.isEmpty i = none ∧ f.violationIn? b label rest = none := by
      rw [violationIn?]
      cases f.violationAt? b label rest.isEmpty i <;> simp
    rw [hsplit, ih, violationAt?_eq_none_iff]
    constructor
    · rintro ⟨hi, hrest⟩ xs j ys hl
      cases xs with
      | nil =>
        obtain ⟨rfl, rfl⟩ := List.cons.inj hl
        exact hi
      | cons x xs => exact hrest xs j ys (List.cons.inj hl).2
    · intro h
      exact ⟨h [] i rest rfl, fun xs j ys hl => h (i :: xs) j ys (by rw [hl, List.cons_append])⟩

/-- No rule is broken in a block exactly when it is not empty and its instructions fit. -/
theorem blockViolation?_eq_none_iff (hb : f.hasBlock b = true) :
    f.blockViolation? b = none ↔ f.instsOf b ≠ [] ∧
      ∀ xs i ys, f.instsOf b = xs ++ i :: ys → ∃ instr, f.FitsAt b ys.isEmpty i instr := by
  unfold blockViolation? instsOf
  obtain ⟨block, hblock⟩ := exists_block? hb
  simp only [hblock]
  by_cases he : block.insts = []
  · simp [he]
  · have hemp : block.insts.isEmpty = false := by simpa using he
    rw [hemp, if_neg (by simp), violationIn?_eq_none_iff]
    exact ⟨fun h => ⟨he, h⟩, And.right⟩

/-- A block that lists something exists. -/
theorem hasBlock_of_mem_instsOf (hi : i ∈ f.instsOf b) : f.hasBlock b = true := by
  unfold instsOf at hi
  split at hi
  · next block hb => exact decide_eq_true (Array.getElem?_eq_some_iff.1 hb).1
  · cases hi

/-- The check passes exactly on the well-formed functions. -/
theorem violation?_eq_none_iff : f.violation? = none ↔ f.WellFormed := by
  have hentry : f.hasEntry = true ↔ ∃ e, f.entry = some e ∧ f.hasBlock e = true := by
    unfold hasEntry
    cases f.entry <;> simp
  have hblocks : f.blockIds.findSome? f.blockViolation? = none ↔
      ∀ b, f.hasBlock b = true → f.blockViolation? b = none := by
    rw [List.findSome?_eq_none_iff]
    exact forall_congr' fun b => by rw [mem_blockIds]
  unfold violation?
  constructor
  · intro h
    split at h
    · next he =>
      rw [hblocks] at h
      -- A block that lists something exists, so it was checked.
      have hfit : ∀ b xs i ys, f.instsOf b = xs ++ i :: ys →
          ∃ instr, f.FitsAt b ys.isEmpty i instr := fun b xs i ys hl => by
        have hi : i ∈ f.instsOf b := by rw [hl]; simp
        have hb : f.hasBlock b = true := hasBlock_of_mem_instsOf hi
        exact ((blockViolation?_eq_none_iff hb).1 (h b hb)).2 xs i ys hl
      have hmem : ∀ b, ∀ i ∈ f.instsOf b, ∃ isLast instr, f.FitsAt b isLast i instr :=
        fun b i hi => by
          obtain ⟨xs, ys, hl⟩ := List.append_of_mem hi
          exact ⟨_, hfit b xs i ys hl⟩
      refine ⟨hentry.1 he, fun b hb => ((blockViolation?_eq_none_iff hb).1 (h b hb)).1,
        fun b i hi => ?_, fun b xs i ys instr hl hi => ?_, fun b i hi instr hinst => ?_,
        fun b i hi instr hinst => ?_⟩
      · obtain ⟨_, _, hat⟩ := hmem b i hi
        exact hat.owned
      · obtain ⟨instr', hat⟩ := hfit b xs i ys hl
        obtain rfl := Option.some.inj (hi.symm.trans hat.content)
        rw [hat.terminator, List.isEmpty_iff]
      · obtain ⟨_, instr', hat⟩ := hmem b i hi
        obtain rfl := Option.some.inj (hinst.symm.trans hat.content)
        exact hat.named
      · obtain ⟨_, instr', hat⟩ := hmem b i hi
        obtain rfl := Option.some.inj (hinst.symm.trans hat.content)
        exact hat.bound
    · cases h
  · intro h
    rw [if_pos (hentry.2 h.entry), hblocks]
    refine fun b hb => (blockViolation?_eq_none_iff hb).2 ⟨h.nonempty b hb, fun xs i ys hl => ?_⟩
    have hi : i ∈ f.instsOf b := by rw [hl]; simp
    have howner := h.owned b i hi
    obtain ⟨instr, hinst⟩ := Option.isSome_iff_exists.1
      (isSome_owner?_iff.symm.trans (by rw [howner]; rfl))
    refine ⟨instr, hinst, howner, ?_, h.named b i hi instr hinst, h.bound b i hi instr hinst⟩
    rw [Bool.eq_iff_iff, h.terminator b xs i ys instr hl hinst, List.isEmpty_iff]

/-! ## Blocks of a well-formed function -/

/-- The terminator of a block by the list of its instructions. -/
theorem terminator?_eq (f : Function) (b : BlockId) :
    f.terminator? b = ((f.instsOf b).getLast?.bind f.inst?).filter Instruction.isTerminator := by
  unfold terminator? instsOf
  cases f.block? b with
  | none => rfl
  | some block =>
    simp only [Option.bind_some, Block.last?]
    cases block.insts.getLast? <;> rfl

namespace WellFormed

variable (h : f.WellFormed)
include h

/-- What a block lists is in the arena. -/
theorem exists_inst? (hi : i ∈ f.instsOf b) : ∃ instr, f.inst? i = some instr := by
  refine Option.isSome_iff_exists.1 (isSome_owner?_iff.symm.trans ?_)
  rw [h.owned b i hi]
  rfl

/-- All that goes by look-ups in a block is found. -/
theorem resolves (hb : f.hasBlock b = true) : f.Resolves b := ⟨hb, fun _ hi => h.exists_inst? hi⟩

/-- A block ends in its terminator. -/
theorem exists_terminator (hb : f.hasBlock b = true) :
    ∃ xs t instr, f.instsOf b = xs ++ [t] ∧ f.inst? t = some instr ∧ instr.isTerminator = true ∧
      f.terminator? b = some instr := by
  obtain ⟨xs, t, hl⟩ := (List.eq_nil_or_concat _).resolve_left (h.nonempty b hb)
  rw [List.concat_eq_append] at hl
  obtain ⟨instr, ht⟩ := h.exists_inst? (b := b) (i := t) (by rw [hl]; simp)
  have hterm : instr.isTerminator = true := (h.terminator b xs t [] instr hl ht).2 rfl
  refine ⟨xs, t, instr, hl, ht, hterm, ?_⟩
  rw [terminator?_eq, hl, List.getLast?_concat, Option.bind_some, ht, Option.filter_some,
    if_pos hterm]

/-- The successors of a block are those of its last instruction. -/
theorem successors_eq {before : List InstId} (hl : f.instsOf b = before ++ [i])
    (hi : f.inst? i = some instr) : f.successors b = instr.successors := by
  have hterm : instr.isTerminator = true := (h.terminator b before i [] instr hl hi).2 rfl
  rw [successors, terminator?_eq, hl, List.getLast?_concat, Option.bind_some, hi,
    Option.filter_some, if_pos hterm]

/-- A well-formed function branches only to existing blocks. -/
theorem hasBlock_of_mem_successors (hc : c ∈ f.successors b) : f.hasBlock c = true := by
  unfold successors at hc
  split at hc
  · next instr ht =>
    rw [terminator?_eq] at ht
    obtain ⟨hbind, -⟩ := Option.filter_eq_some_iff.1 ht
    obtain ⟨t, hlast, hinst⟩ := Option.bind_eq_some_iff.1 hbind
    refine h.named b t (List.mem_of_getLast? hlast) instr hinst c ?_
    cases instr <;> simp_all [Instruction.namedBlocks, Instruction.successors]
  · cases hc

end WellFormed

end Function

end LoopHoist
