import LoopHoist.Proofs.Code.Validity
import Mathlib.Data.List.Pairwise

/-!
# What the check answers

The check asks an instruction for its owner where the rule asks for a block that lists it. On a
function that edits make the two agree (`Coherent.isBound_iff`), so the rules can be said by what
blocks list and the table of values holds: `FitBlock` says them of one block. `validate_answers`
says that the check passes exactly if they hold of all blocks and the entry exists, and that
otherwise it reports the first place that breaks a rule (`Violation.First`).

The proof follows the walk of the check: first for one instruction, then for the first one of a
block, then for the first block.
-/

namespace LoopHoist

namespace Function

variable {f : Function} {b : BlockId} {i : InstId} {v : ValueId} {instr : Instruction}
  {label : String} {isLast : Bool} {e : Violation} {xs ys : List InstId}

/-! ## The rules -/

/-- Whether a value is allocated and comes from a parameter, a global, or an instruction that some
block lists. -/
def Bound (f : Function) (v : ValueId) : Prop :=
  (∃ n, f.def? v = some (.param n)) ∨ (∃ name, f.def? v = some (.global name)) ∨
    ∃ i b, f.def? v = some (.inst i) ∧ i ∈ f.instsOf b

/-- Whether an instruction may stand in a block, as its last one or before that. -/
structure Fit (f : Function) (isLast : Bool) (instr : Instruction) : Prop where
  /-- It is a terminator exactly when it is the last one. -/
  terminator : instr.isTerminator = isLast
  /-- The blocks that it may pass control to exist. -/
  targets : ∀ t ∈ instr.successors, f.hasBlock t = true
  /-- If it is a phi, the blocks that it takes values from exist. -/
  sources : ∀ dst ty ins, instr = .phi dst ty ins → ∀ q ∈ ins, f.hasBlock q.1 = true
  /-- The values that it uses are bound. -/
  bound : ∀ v ∈ instr.usedValues, f.Bound v

/-- Whether what a handle stands for may stand in a block. -/
def FitInst (f : Function) (isLast : Bool) (i : InstId) : Prop :=
  ∃ instr, f.inst? i = some instr ∧ f.Fit isLast instr

/-- Whether a block is fit: it is some instructions and a last one, all of which may stand there. -/
def FitBlock (f : Function) (b : BlockId) : Prop :=
  ∃ xs t, f.instsOf b = xs ++ [t] ∧ (∀ j ∈ xs, f.FitInst false j) ∧ f.FitInst true t

/-- Whether the entry of a function exists. -/
def EntryExists (f : Function) : Prop := ∃ e, f.entry = some e ∧ f.hasBlock e = true

/-- Whether no rule is broken before a place in a block: the entry exists, the blocks before it are
fit, and so are the instructions of the block before the place. -/
structure FitBefore (f : Function) (b : BlockId) (xs : List InstId) : Prop where
  /-- The entry exists. -/
  entry : f.EntryExists
  /-- The blocks before are fit. -/
  blocks : ∀ c, c.index < b.index → f.FitBlock c
  /-- The instructions before are fit. -/
  insts : ∀ j ∈ xs, f.FitInst false j

end Function

/-- Whether a violation tells the first place of a function that breaks a rule, and what is broken
there. There is no case for a detached instruction, and none for a value that is no phi. -/
inductive Violation.First (f : Function) : Violation → Prop where
  /-- The entry does not exist. -/
  | missingEntryBlock (h : ¬ f.EntryExists) : First f (.missingEntryBlock f.name)
  /-- A block is empty. -/
  | emptyBlock {b : BlockId} {label : String} (block : f.block? b = some { label, insts := [] })
    (before : f.FitBefore b []) : First f (.emptyBlock b label)
  /-- The last instruction of a block is no terminator. -/
  | missingTerminator {b : BlockId} {label : String} {xs : List InstId} {i : InstId}
    {instr : Instruction} (block : f.block? b = some { label, insts := xs ++ [i] })
    (content : f.inst? i = some instr) (h : instr.isTerminator = false)
    (before : f.FitBefore b xs) : First f (.missingTerminator b label)
  /-- An instruction that is not the last one of its block is a terminator. -/
  | misplacedTerminator {b : BlockId} {xs ys : List InstId} {i : InstId} {instr : Instruction}
    (list : f.instsOf b = xs ++ i :: ys) (content : f.inst? i = some instr) (more : ys ≠ [])
    (h : instr.isTerminator = true) (before : f.FitBefore b xs) : First f (.misplacedTerminator b i)
  /-- An instruction names a block that does not exist. -/
  | unknownBlock {b t : BlockId} {xs ys : List InstId} {i : InstId} {instr : Instruction}
    (list : f.instsOf b = xs ++ i :: ys) (content : f.inst? i = some instr)
    (named : t ∈ instr.successors ∨ ∃ dst ty ins, instr = .phi dst ty ins ∧ ∃ q ∈ ins, q.1 = t)
    (h : f.hasBlock t = false) (before : f.FitBefore b xs) : First f (.unknownBlock b i t)
  /-- An instruction uses a value that is not bound. -/
  | danglingOperand {b : BlockId} {xs ys : List InstId} {i : InstId} {instr : Instruction}
    {v : ValueId} (list : f.instsOf b = xs ++ i :: ys) (content : f.inst? i = some instr)
    (used : v ∈ instr.usedValues) (h : ¬ f.Bound v) (before : f.FitBefore b xs) :
    First f (.danglingOperand i v)

/-- Whether handles can name the block and the instruction at which a rule is broken. -/
def Violation.InRange : Violation → Prop
  | .missingEntryBlock _ => True
  | .emptyBlock b _ | .missingTerminator b _ => b.index < handleCount
  | .misplacedTerminator b i | .unknownBlock b i _ => b.index < handleCount ∧ i.index < handleCount
  | .danglingOperand i _ | .detachedInstruction i => i.index < handleCount
  | .notAPhi v => v.index < handleCount

namespace Function

variable {f : Function} {b : BlockId} {i : InstId} {v : ValueId} {instr : Instruction}
  {label : String} {isLast : Bool} {e : Violation} {xs ys l : List InstId}

/-! ## One instruction -/

/-- In a coherent function a value is bound for the check exactly if it is bound. -/
theorem Coherent.isBound_iff (hc : f.Coherent) : f.isBound v = true ↔ f.Bound v := by
  unfold isBound Bound
  cases hd : f.def? v with
  | none => simp
  | some origin =>
    cases origin with
    | param n => simp
    | global name => simp
    | unbound => simp
    | inst i =>
      simp only [Option.isSome_iff_exists, Option.some.injEq, reduceCtorEq, exists_false, false_or,
        ValueDef.inst.injEq]
      constructor
      · rintro ⟨b, hb⟩
        exact ⟨i, b, rfl, (hc.mem_iff i b).2 hb⟩
      · rintro ⟨j, b, rfl, hj⟩
        exact ⟨b, (hc.mem_iff i b).1 hj⟩

/-- The blocks that an instruction names are those that it may pass control to and, for a phi, those
that it takes values from. -/
theorem mem_namedBlocks {t : BlockId} : t ∈ instr.namedBlocks ↔
    t ∈ instr.successors ∨ ∃ dst ty ins, instr = .phi dst ty ins ∧ ∃ q ∈ ins, q.1 = t := by
  cases instr with
  | phi dst ty incoming =>
    simp only [Instruction.namedBlocks, Instruction.successors, List.mem_map, List.not_mem_nil,
      false_or]
    refine ⟨fun ht => ⟨dst, ty, incoming, rfl, ht⟩, ?_⟩
    rintro ⟨_, _, _, heq, ht⟩
    cases heq
    exact ht
  | _ => simp [Instruction.namedBlocks, Instruction.successors]

/-- A listed instruction fits for the check exactly if it may stand there. -/
theorem Coherent.exists_fitsAt_iff (hc : f.Coherent) (hi : i ∈ f.instsOf b) :
    (∃ instr, f.FitsAt b isLast i instr) ↔ f.FitInst isLast i := by
  refine exists_congr fun instr => ⟨fun h => ⟨h.content, h.terminator, ?_, ?_, ?_⟩, fun h => ?_⟩
  · exact fun t ht => h.named t (mem_namedBlocks.2 (.inl ht))
  · exact fun dst ty ins heq q hq =>
      h.named q.1 (mem_namedBlocks.2 (.inr ⟨dst, ty, ins, heq, q, hq, rfl⟩))
  · exact fun v hv => hc.isBound_iff.1 (h.bound v hv)
  · obtain ⟨hinst, hterm, htargets, hsources, hbound⟩ := h
    refine ⟨hinst, (hc.mem_iff i b).1 hi, hterm, fun t ht => ?_,
      fun v hv => hc.isBound_iff.2 (hbound v hv)⟩
    rcases mem_namedBlocks.1 ht with ht | ⟨dst, ty, ins, heq, q, hq, rfl⟩
    · exact htargets t ht
    · exact hsources dst ty ins heq q hq

/-- What the check reports at one listed instruction is so. -/
theorem violationAt?_eq_some (howner : f.owner? i = some b)
    (h : f.violationAt? b label isLast i = some e) : ∃ instr, f.inst? i = some instr ∧
      (e = .misplacedTerminator b i ∧ isLast = false ∧ instr.isTerminator = true ∨
        e = .missingTerminator b label ∧ isLast = true ∧ instr.isTerminator = false ∨
        (∃ t ∈ instr.namedBlocks, f.hasBlock t = false ∧ e = .unknownBlock b i t) ∨
        ∃ v ∈ instr.usedValues, f.isBound v = false ∧ e = .danglingOperand i v) := by
  obtain ⟨node, hnode, hb⟩ := Option.map_eq_some_iff.1 howner
  refine ⟨node.instr, by rw [inst?, hnode]; rfl, ?_⟩
  unfold violationAt? at h
  rw [hnode] at h
  dsimp only at h
  rw [if_neg fun hn => hn hb] at h
  split at h
  · next hmis =>
    obtain ⟨ht, hl⟩ := (Bool.and_eq_true _ _).mp hmis
    exact .inl ⟨(Option.some.inj h).symm, by simpa using hl, ht⟩
  · split at h
    · next hmissing =>
      obtain ⟨hl, ht⟩ := (Bool.and_eq_true _ _).mp hmissing
      exact .inr (.inl ⟨(Option.some.inj h).symm, hl, by simpa using ht⟩)
    · split at h
      · next t ht =>
        have hno : f.hasBlock t = false := by simpa using List.find?_some ht
        exact .inr (.inr (.inl ⟨t, List.mem_of_find?_eq_some ht, hno, (Option.some.inj h).symm⟩))
      · obtain ⟨v, hv, heq⟩ := Option.map_eq_some_iff.1 h
        have hno : f.isBound v = false := by simpa using List.find?_some hv
        exact .inr (.inr (.inr ⟨v, List.mem_of_find?_eq_some hv, hno, heq.symm⟩))

/-! ## One block -/

/-- What the check reports in a list is what it reports at the first of its instructions at which it
reports something. -/
theorem violationIn?_eq_some (h : f.violationIn? b label l = some e) :
    ∃ xs i ys, l = xs ++ i :: ys ∧ (∀ j ∈ xs, f.violationAt? b label false j = none) ∧
      f.violationAt? b label ys.isEmpty i = some e := by
  induction l with
  | nil => cases h
  | cons i rest ih =>
    rw [violationIn?] at h
    split at h
    · next e' he =>
      obtain rfl := Option.some.inj h
      exact ⟨[], i, rest, rfl, by simp, he⟩
    · next hnone =>
      obtain ⟨xs, j, ys, rfl, hbefore, hat⟩ := ih h
      have hmore : (xs ++ j :: ys).isEmpty = false := by cases xs <;> rfl
      rw [hmore] at hnone
      refine ⟨i :: xs, j, ys, rfl, fun k hk => ?_, hat⟩
      rcases List.mem_cons.1 hk with rfl | hk
      · exact hnone
      · exact hbefore k hk

/-- A block passes the check exactly if it is fit. -/
theorem Coherent.blockViolation?_eq_none_iff (hc : f.Coherent) (hb : f.hasBlock b = true) :
    f.blockViolation? b = none ↔ f.FitBlock b := by
  rw [Function.blockViolation?_eq_none_iff hb]
  constructor
  · rintro ⟨hne, hfit⟩
    obtain ⟨xs, t, hl⟩ := (List.eq_nil_or_concat _).resolve_left hne
    rw [List.concat_eq_append] at hl
    have ht : t ∈ f.instsOf b := by rw [hl]; simp
    refine ⟨xs, t, hl, fun j hj => ?_, (hc.exists_fitsAt_iff ht).1 (hfit xs t [] hl)⟩
    obtain ⟨us, vs, rfl⟩ := List.append_of_mem hj
    have hmem : j ∈ f.instsOf b := by rw [hl]; simp
    -- An instruction that something follows was checked as one that is not the last.
    have hmore : (vs ++ [t]).isEmpty = false := by cases vs <;> rfl
    have hat := hfit us j (vs ++ [t]) (by rw [hl]; simp)
    rw [hmore] at hat
    exact (hc.exists_fitsAt_iff hmem).1 hat
  · rintro ⟨xs, t, hl, hxs, ht⟩
    refine ⟨by rw [hl]; simp, fun us j vs hsplit => ?_⟩
    have hj : j ∈ f.instsOf b := by rw [hsplit]; simp
    rw [hc.exists_fitsAt_iff hj]
    rcases List.eq_nil_or_concat vs with rfl | ⟨ws, w, rfl⟩
    · obtain ⟨-, heq⟩ := List.append_inj' (hl.symm.trans hsplit) rfl
      exact List.singleton_inj.1 heq ▸ ht
    · have hmore : (ws.concat w).isEmpty = false := by cases ws <;> rfl
      rw [hmore]
      refine hxs j ?_
      have hcat : xs ++ [t] = (us ++ j :: ws) ++ [w] := by rw [← hl, hsplit]; simp
      rw [(List.append_inj' hcat rfl).1]
      simp

/-- What the check reports in a block is the first broken rule, if none is broken before. -/
theorem Coherent.first_of_blockViolation? (hc : f.Coherent) (he : f.EntryExists)
    (hblocks : ∀ c, c.index < b.index → f.FitBlock c) (h : f.blockViolation? b = some e) :
    e.First f := by
  unfold blockViolation? at h
  split at h
  · cases h
  · next block hblock =>
    obtain ⟨label, insts⟩ := block
    have hinsts : f.instsOf b = insts := by rw [instsOf, hblock]
    split at h
    · next hempty =>
      obtain rfl := List.isEmpty_iff.1 hempty
      obtain rfl := Option.some.inj h
      exact .emptyBlock hblock ⟨he, hblocks, by simp⟩
    · obtain ⟨xs, i, ys, rfl, hxs, hat⟩ := violationIn?_eq_some h
      -- The instructions before the one reported passed, so they fit and nothing is broken before.
      have hmem : ∀ {j}, j ∈ xs ++ i :: ys → j ∈ f.instsOf b := fun hj => by rwa [hinsts]
      have hbefore : f.FitBefore b xs := ⟨he, hblocks, fun j hj =>
        (hc.exists_fitsAt_iff (hmem (List.mem_append_left _ hj))).1
          (violationAt?_eq_none_iff false |>.1 (hxs j hj))⟩
      have howner := (hc.mem_iff i b).1 (hmem (by simp))
      obtain ⟨instr, hinst, hcase⟩ := violationAt?_eq_some howner hat
      rcases hcase with ⟨rfl, hlast, ht⟩ | ⟨rfl, hlast, ht⟩ | ⟨t, ht, hno, rfl⟩ | ⟨v, hv, hno, rfl⟩
      · exact .misplacedTerminator hinsts hinst (fun hnil => by simp [hnil] at hlast) ht hbefore
      · rw [List.isEmpty_iff.1 hlast] at hblock
        exact .missingTerminator hblock hinst ht hbefore
      · exact .unknownBlock hinsts hinst (mem_namedBlocks.1 ht) hno hbefore
      · refine .danglingOperand hinsts hinst hv (fun hbound => ?_) hbefore
        rw [hc.isBound_iff.2 hbound] at hno
        cases hno

/-! ## The function -/

/-- The blocks before one in program order are those of smaller index. -/
theorem mem_of_blockIds_eq {bs cs : List BlockId} {c : BlockId} (h : f.blockIds = bs ++ b :: cs)
    (hc : c.index < b.index) : c ∈ bs := by
  have hsorted : (bs ++ b :: cs).Pairwise fun c d => c.index < d.index := by
    rw [← h, blockIds, List.pairwise_map]
    exact List.pairwise_lt_range
  have hb : f.hasBlock b = true := mem_blockIds.1 (by rw [h]; simp)
  have hmem : c ∈ bs ++ b :: cs := by
    rw [← h, mem_blockIds]
    exact decide_eq_true (Nat.lt_trans hc (of_decide_eq_true hb))
  rcases List.mem_append.1 hmem with hmem | hmem
  · exact hmem
  · have hle : b.index ≤ c.index := by
      rcases List.mem_cons.1 hmem with rfl | hmem
      · exact Nat.le_refl _
      · exact Nat.le_of_lt
          ((List.pairwise_cons.1 (List.pairwise_append.1 hsorted).2.1).1 c hmem)
    omega

/-- The entry exists exactly when the check finds one. -/
theorem hasEntry_iff : f.hasEntry = true ↔ f.EntryExists := by
  unfold hasEntry EntryExists
  cases f.entry <;> simp

/-- On a coherent function the check passes exactly if the entry exists and every block is fit. -/
theorem Coherent.violation?_eq_none_iff (hc : f.Coherent) : f.violation? = none ↔
    f.EntryExists ∧ ∀ b, f.hasBlock b = true → f.FitBlock b := by
  unfold violation?
  rw [← hasEntry_iff]
  cases f.hasEntry with
  | false => simp
  | true =>
    rw [if_pos rfl, List.findSome?_eq_none_iff, and_iff_right rfl]
    refine forall_congr' fun b => ?_
    rw [mem_blockIds]
    exact forall_congr' fun hb => hc.blockViolation?_eq_none_iff hb

/-- What the check of a coherent function reports is the first broken rule. -/
theorem Coherent.first_of_violation? (hc : f.Coherent) (h : f.violation? = some e) :
    e.First f := by
  unfold violation? at h
  split at h
  · next he =>
    obtain ⟨bs, b, cs, hsplit, hat, hbefore⟩ := List.findSome?_eq_some_iff.1 h
    refine hc.first_of_blockViolation? (hasEntry_iff.1 he) (fun c hlt => ?_) hat
    have hmem := mem_of_blockIds_eq hsplit hlt
    have hb : f.hasBlock c = true := mem_blockIds.1 (by rw [hsplit]; simp [hmem])
    exact (hc.blockViolation?_eq_none_iff hb).1 (hbefore c hmem)
  · next he =>
    obtain rfl := Option.some.inj h
    exact .missingEntryBlock fun hentry => he (hasEntry_iff.2 hentry)

/-- The handle of a block is in the range, if the arenas are no longer than it. -/
theorem Nameable.block_lt (hn : f.Nameable) (hb : f.hasBlock b = true) : b.index < handleCount :=
  Nat.lt_of_lt_of_le (of_decide_eq_true hb) hn.blocks

/-- The handle of an instruction is in the range, if the arenas are no longer than it. -/
theorem Nameable.inst_lt (hn : f.Nameable) (hi : f.inst? i = some instr) :
    i.index < handleCount := by
  obtain ⟨node, hnode, -⟩ := Option.map_eq_some_iff.1 hi
  exact Nat.lt_of_lt_of_le (Array.getElem?_eq_some_iff.1 hnode).1 hn.insts

end Function

/-- The place of the first broken rule exists, so handles can name it. -/
theorem Violation.First.inRange {f : Function} {e : Violation} (h : e.First f)
    (hn : f.Nameable) : e.InRange := by
  have hblock {b : BlockId} {block : Block} (hb : f.block? b = some block) :
      b.index < handleCount :=
    hn.block_lt (decide_eq_true (Array.getElem?_eq_some_iff.1 hb).1)
  have hlist {b : BlockId} {xs ys : List InstId} {i : InstId}
      (hl : f.instsOf b = xs ++ i :: ys) : b.index < handleCount :=
    hn.block_lt (Function.hasBlock_of_mem_instsOf (i := i) (by rw [hl]; simp))
  cases h with
  | missingEntryBlock _ => trivial
  | emptyBlock hb _ => exact hblock hb
  | missingTerminator hb _ _ _ => exact hblock hb
  | misplacedTerminator hl hi _ _ _ => exact ⟨hlist hl, hn.inst_lt hi⟩
  | unknownBlock hl hi _ _ _ => exact ⟨hlist hl, hn.inst_lt hi⟩
  | danglingOperand _ hi _ _ _ => exact hn.inst_lt hi

/-- The check accepts exactly the well-formed functions. On every function that edits make it passes
if and only if the entry exists and each block is fit. Otherwise it reports a rule that is really
broken, at the first place where one is, which handles can name as long as the arenas are no longer
than their range; and it never reports a detached instruction. -/
theorem validate_answers (f : Function) (hb : f.Built) :
    (f.validate = .ok () ↔ f.EntryExists ∧ ∀ b, f.hasBlock b = true → f.FitBlock b) ∧
      (∀ e, f.validate = .error e → e.First f) ∧
      (f.Nameable → ∀ e, f.validate = .error e → e.InRange) ∧
      ∀ i, f.validate ≠ .error (.detachedInstruction i) := by
  have hc := hb.coherent
  have hfirst : ∀ e, f.validate = .error e → e.First f := fun e he => by
    refine hc.first_of_violation? ?_
    unfold Function.validate at he
    split at he
    · next e' heq =>
      obtain rfl := Except.error.inj he
      exact heq
    · cases he
  refine ⟨Function.validate_eq_ok_iff.trans hc.violation?_eq_none_iff, hfirst,
    fun hn e he => (hfirst e he).inRange hn, fun i hi => ?_⟩
  cases hfirst _ hi

/-- A draft with three faults: the loop branches on a value that nothing writes yet, its terminator
may go to a block that does not exist, and the exit, a block after it, is empty. -/
def draft : Function :=
  Function.edits { name := "draft" }
    [.addParam .i64, .addValue, .addBlock "entry", .addBlock "loop", .addBlock "exit",
      .append ⟨0⟩ (.jump ⟨1⟩), .append ⟨1⟩ (.branch (.value ⟨1⟩) ⟨1⟩ ⟨3⟩)]

/-- The draft mended: the exit is filled, a block is added that the loop may go to, and the missing
value is written in the exit and moved to the entry. -/
def mended : Function :=
  draft.edits
    [.addBlock "done", .append ⟨3⟩ (.ret none),
      .append ⟨2⟩ (.compute ⟨1⟩ (.copy .i64 (.value ⟨0⟩))), .append ⟨2⟩ .unreachable,
      .move ⟨3⟩ ⟨0⟩]

/-- The check of the draft names the unknown block, the first fault in the order of the check, and
it accepts the mended function. -/
theorem validate_answers_draft :
    draft.Built ∧ draft.validate = .error (.unknownBlock ⟨1⟩ ⟨1⟩ ⟨3⟩) ∧
      (Violation.unknownBlock ⟨1⟩ ⟨1⟩ ⟨3⟩).First draft ∧
      (Violation.unknownBlock ⟨1⟩ ⟨1⟩ ⟨3⟩).InRange ∧
      ¬ (∀ b, draft.hasBlock b = true → draft.FitBlock b) ∧
      mended.Built ∧ mended.validate = .ok () ∧
      ∀ b, mended.hasBlock b = true → mended.FitBlock b := by
  have hd : draft.Built := Function.Built.edits (.new "draft" [] none) _ (by decide)
  have hm : mended.Built := hd.edits _ (by decide)
  have herr : draft.validate = .error (.unknownBlock ⟨1⟩ ⟨1⟩ ⟨3⟩) := rfl
  have hok : mended.validate = .ok () := Function.validate_eq_ok_iff.2 (by decide)
  have hn : draft.Nameable := ⟨by decide, by decide, by decide⟩
  refine ⟨hd, herr, (validate_answers draft hd).2.1 _ herr,
    (validate_answers draft hd).2.2.1 hn _ herr, fun hfit => ?_, hm, hok,
    ((validate_answers mended hm).1.1 hok).2⟩
  have hentry : draft.EntryExists := ⟨⟨0⟩, rfl, rfl⟩
  rw [(validate_answers draft hd).1.2 ⟨hentry, hfit⟩] at herr
  cases herr

end LoopHoist
