import LoopHoist.Proofs.Code.Validity
import Mathlib.Data.List.Nodup

/-!
# Every history of a function

A function is made by a list of commands to a builder. `Builder.history` records, for each
instruction that they append, its handle, its content and how many values were allocated at that
time. The arenas are compared with that record: `Function.Follows` says that each recorded handle is
listed once, by its owner, that a value is bound to the last recorded instruction that writes it,
and that no two globals share a value.

`history_consistent` says that this holds after every list of commands of which none faults, from a
function without blocks, also while blocks are empty or terminators stand in the middle. In such a
function a refused command changes nothing, a move does what `MovesTo` says and nothing else, and a
reply tells what the command did (`Builder.Tells`).
-/

namespace LoopHoist

/-! ## What is recorded -/

/-- An instruction as it was appended. -/
structure Appended where
  /-- The handle that it got. -/
  inst : InstId
  /-- The instruction. -/
  instr : Instruction
  /-- The number of values that were allocated then. -/
  values : Nat
deriving DecidableEq

/-- Whether an instruction binds a value by being appended: it writes it, and the value was
allocated then. -/
def Appended.binds (a : Appended) (v : ValueId) : Bool :=
  a.instr.def? == some v && decide (v.index < a.values)

/-- An instruction binds what it writes, if that was allocated. -/
theorem Appended.binds_iff {a : Appended} {v : ValueId} :
    a.binds v = true ↔ a.instr.def? = some v ∧ v.index < a.values := by
  simp [binds]

/-- The last of the recorded instructions that bind a value. -/
def lastBinding? (log : List Appended) (v : ValueId) : Option Appended :=
  (log.filter (·.binds v)).getLast?

/-- The record of an instruction that is appended to a function. -/
def Function.record (f : Function) (instr : Instruction) : Appended :=
  ⟨f.nextInst, instr, f.values.size⟩

/-- What an edit adds to the record. -/
def Function.recordOf (f : Function) : Edit → List Appended
  | .append _ instr => [f.record instr]
  | _ => []

/-- A command to a builder. An instruction with a fresh result is given by what it is for each
result. -/
inductive Command where
  /-- Edits the function. -/
  | edit (e : Edit)
  /-- Selects the block that new instructions go to. -/
  | switchTo (block : BlockId)
  /-- Adds an instruction to the selected block. -/
  | emit (instr : Instruction)
  /-- Allocates a value and adds an instruction that writes it to the selected block. -/
  | define (instr : ValueId → Instruction)

namespace Builder

/-- The builder after a command, with the reply. -/
def run (b : Builder) : Command → Builder × Except Failure Reply
  | .edit e => b.edit e
  | .switchTo block => (b.switchTo block, .ok .done)
  | .emit instr => b.emit instr
  | .define instr => b.define instr

/-- What a command adds to the record. -/
def recordOf (b : Builder) : Command → List Appended
  | .edit e => b.function.recordOf e
  | .switchTo _ => []
  | .emit instr => [b.function.record instr]
  | .define instr => [(b.function.addValue .unbound).record (instr b.function.nextValue)]

/-- The builder after a list of commands, whatever they reply. -/
def runs (b : Builder) (cs : List Command) : Builder := cs.foldl (fun b c => (b.run c).1) b

/-- What a list of commands records. -/
def history (b : Builder) : List Command → List Appended
  | [] => []
  | c :: cs => b.recordOf c ++ (b.run c).1.history cs

/-- Whether no command of a list faults; a violation is no fault. -/
def runsCleanly (b : Builder) : List Command → Bool
  | [] => true
  | c :: cs =>
    (match (b.run c).2 with | .error (.fault _) => false | _ => true) && (b.run c).1.runsCleanly cs

end Builder

namespace Function

/-! ## What is claimed of a function with its record -/

/-- Whether the arenas of a function are as the record of the appended instructions says. -/
structure Follows (f : Function) (log : List Appended) : Prop where
  /-- Each recorded handle is listed once, by the block that owns it. -/
  listed : ∀ a ∈ log, ∃ b, f.hasBlock b = true ∧ f.owner? a.inst = some b ∧
    ∀ c, (f.instsOf c).count a.inst = if c = b then 1 else 0
  /-- Blocks list recorded handles only, and only those have owners. -/
  recorded : ∀ i b, i ∈ f.instsOf b ∨ f.owner? i = some b → ∃ a ∈ log, a.inst = i
  /-- No handle is recorded twice. -/
  distinct : (log.map Appended.inst).Nodup
  /-- A value comes from an instruction exactly if that is the last one that bound it. -/
  bound : ∀ v i, f.def? v = some (.inst i) ↔ ∃ a, lastBinding? log v = some a ∧ a.inst = i
  /-- The values of two globals differ. -/
  globals : ∀ m n v, f.global? m = some v → f.global? n = some v → m = n

/-- Whether one function is another with an instruction moved to just before the last one of a
block, and nothing else changed. -/
structure MovesTo (f g : Function) (i : InstId) (dest : BlockId) : Prop where
  /-- The destination lists what it did, with the instruction directly before the last one. -/
  place : ∃ xs t, (f.instsOf dest).getLast? = some t ∧ (f.instsOf dest).erase i = xs ++ [t] ∧
    g.instsOf dest = xs ++ [i, t]
  /-- The other blocks list what they did, without the instruction. -/
  elsewhere : ∀ b, b ≠ dest → g.instsOf b = (f.instsOf b).erase i
  /-- The destination owns the instruction, and the other owners stay. -/
  owner : ∀ j, g.owner? j = if j = i then some dest else f.owner? j
  /-- The instructions stay. -/
  content : ∀ j, g.inst? j = f.inst? j
  /-- The blocks and their labels stay. -/
  label : ∀ b, (g.block? b).map Block.label = (f.block? b).map Block.label
  /-- The values, the globals, the signature and the entry stay. -/
  rest : g = { f with blocks := g.blocks, insts := g.insts }

/-- Whether a reply tells what an edit made of a function: the handle of a block, a value or an
instruction was free before and stands for what was added, and the value that it gives for a global
is the one that stands for it, now as before. -/
def Tells (f g : Function) : Edit → Reply → Prop
  | .addBlock label, .block b => f.block? b = none ∧ g.block? b = some { label }
  | .addParam ty, .value v => f.def? v = none ∧ g.params = f.params ++ [⟨v, ty⟩]
  | .addGlobal name, .value v =>
    g.global? name = some v ∧ ∀ w, f.global? name = some w → w = v
  | .addValue, .value v => f.def? v = none ∧ g.def? v = some .unbound
  | .append b instr, .inst i =>
    f.recordOf (.append b instr) = [⟨i, instr, f.values.size⟩] ∧ f.inst? i = none ∧
      g.inst? i = some instr ∧ (g.instsOf b).getLast? = some i
  | .setEntry b, .done => g.entry = some b
  | .setReturn ty, .done => g.ret = some ty
  | .setPhi phi incoming, .done =>
    ∃ i dst ty, f.def? phi = some (.inst i) ∧ g.inst? i = some (.phi dst ty incoming)
  | .move i dest, .done => g.owner? i = some dest
  | _, _ => False

end Function

/-- Whether a reply tells what a command made of a builder. -/
def Builder.Tells (b c : Builder) : Command → Reply → Prop
  | .edit e, r => b.function.Tells c.function e r
  | .switchTo block, .done => c.current = some block
  | .emit instr, .inst i =>
    ∃ block, b.current = some block ∧ b.function.Tells c.function (.append block instr) (.inst i)
  | .define instr, .value v =>
    ∃ block i, b.current = some block ∧
      b.function.Tells (b.function.addValue .unbound) .addValue (.value v) ∧
      (b.function.addValue .unbound).Tells c.function (.append block (instr v)) (.inst i)
  | _, _ => False

namespace Function

variable {f g : Function} {log : List Appended} {b : BlockId} {i : InstId} {dest : BlockId}
  {v : ValueId} {instr : Instruction} {e : Edit} {r : Reply}

/-! ## The step -/

/-- What every edit keeps of a function and its record. -/
structure Recorded (f : Function) (log : List Appended) : Prop where
  /-- The function is made by edits. -/
  built : f.Built
  /-- The handles are issued in order. -/
  handles : log.map Appended.inst = (List.range f.insts.size).map InstId.mk
  /-- A value comes from an instruction exactly if that is the last one that bound it. -/
  bound : ∀ v i, f.def? v = some (.inst i) ↔ ∃ a, lastBinding? log v = some a ∧ a.inst = i
  /-- No value stands for two globals. -/
  nodup : (f.globals.map Prod.snd).Nodup
  /-- The values that stand for globals are allocated. -/
  allocated : ∀ q ∈ f.globals, q.2.index < f.values.size

/-- A function without blocks has an empty record. -/
theorem Recorded.new (name : String) (params : List Param) (ret : Option Ty) :
    Recorded { name, params, ret } [] where
  built := .new name params ret
  handles := rfl
  bound v i := by simp [def?, lastBinding?]
  nodup := List.nodup_nil
  allocated := by simp

/-- The record stays good for a function with the same instructions and globals in which no more
values come from instructions. -/
theorem Recorded.of_keeps (h : f.Recorded log) (hb : g.Built)
    (hinsts : g.insts.size = f.insts.size)
    (hdef : ∀ v i, g.def? v = some (.inst i) ↔ f.def? v = some (.inst i))
    (hglobals : g.globals = f.globals) (hvalues : f.values.size ≤ g.values.size) :
    g.Recorded log where
  built := hb
  handles := by rw [hinsts]; exact h.handles
  bound v i := (hdef v i).trans (h.bound v i)
  nodup := by rw [hglobals]; exact h.nodup
  allocated q hq := Nat.lt_of_lt_of_le (h.allocated q (hglobals ▸ hq)) hvalues

/-- A new value that comes from no instruction leaves those that do as they are. -/
theorem def_inst_addValue {origin : ValueDef} (ho : ∀ i, origin ≠ .inst i) (v : ValueId)
    (i : InstId) : (f.addValue origin).def? v = some (.inst i) ↔ f.def? v = some (.inst i) := by
  rw [def?_addValue]
  split
  · next hv =>
    have hnone : f.def? v = none := by simp [hv, def?, nextValue]
    simp [hnone, ho i]
  · exact Iff.rfl

/-- What is said of a value once an instruction was appended: the instruction is its source if it
binds the value, and else what was its source before. -/
theorem def_inst_append (v : ValueId) (i : InstId) :
    (f.append b instr).def? v = some (.inst i) ↔
      if (f.record instr).binds v then f.nextInst = i else f.def? v = some (.inst i) := by
  have hbinds : (f.record instr).binds v = true ↔
      instr.def? = some v ∧ v.index < f.values.size := Appended.binds_iff
  rw [def?_append]
  by_cases hd : instr.def? = some v
  · by_cases hv : v.index < f.values.size
    · rw [if_pos hd, if_pos (hbinds.2 ⟨hd, hv⟩), def?, Array.getElem?_eq_getElem hv]
      simp
    · rw [if_pos hd, if_neg fun hb => hv (hbinds.1 hb).2, def?,
        Array.getElem?_eq_none (Nat.le_of_not_lt hv)]
      rfl
  · rw [if_neg hd, if_neg fun hb => hd (hbinds.1 hb).1]

/-- The last binding once an instruction was appended. -/
theorem lastBinding?_append (log : List Appended) (a : Appended) (v : ValueId) :
    lastBinding? (log ++ [a]) v = if a.binds v then some a else lastBinding? log v := by
  unfold lastBinding?
  rw [List.filter_append]
  cases ha : a.binds v <;> simp [ha]

/-- Appending allocates no value. -/
theorem size_values_append (f : Function) (b : BlockId) (instr : Instruction) :
    (f.append b instr).values.size = f.values.size := by
  simp only [append]
  split <;> simp

/-- An appended instruction is recorded. -/
theorem Recorded.append (h : f.Recorded log) (hb : (f.append b instr).Built) :
    (f.append b instr).Recorded (log ++ [f.record instr]) where
  built := hb
  handles := by
    rw [show (f.append b instr).insts.size = f.insts.size + 1 by simp [Function.append],
      List.range_succ, List.map_append, List.map_append, h.handles]
    rfl
  bound v i := by
    rw [def_inst_append, lastBinding?_append]
    split
    · simp [record]
    · exact h.bound v i
  nodup := h.nodup
  allocated q hq := by
    rw [size_values_append]
    exact h.allocated q hq

/-- A new global gets a value that stands for no other. -/
theorem Recorded.addGlobal (h : f.Recorded log) (name : String)
    (hb : (f.addGlobal name).Built) : (f.addGlobal name).Recorded log := by
  unfold Function.addGlobal at hb ⊢
  split at hb
  · exact h
  · refine ⟨hb, h.handles, fun v i => ?_, ?_, ?_⟩
    · exact (def_inst_addValue (by simp) v i).trans (h.bound v i)
    · simp only [List.map_append, List.nodup_append]
      refine ⟨h.nodup, by simp, fun v hv w hw heq => ?_⟩
      obtain ⟨q, hq, rfl⟩ := List.mem_map.1 hv
      have hlt := h.allocated q hq
      rw [heq, show w = f.nextValue by simpa using hw] at hlt
      exact Nat.lt_irrefl _ hlt
    · intro q hq
      simp only [addValue, Array.size_push]
      rcases List.mem_append.1 hq with hq | hq
      · exact Nat.lt_succ_of_lt (h.allocated q hq)
      · rw [List.mem_singleton.1 hq]
        exact Nat.lt_succ_self _

/-- What an edit appends is recorded, and all else that the record says stays. -/
theorem Recorded.edit (h : f.Recorded log) (e : Edit)
    (hf : ∀ fault, (f.edit e).2 ≠ .error (.fault fault)) :
    (f.edit e).1.Recorded (log ++ f.recordOf e) := by
  have hb : (f.edit e).1.Built := h.built.edit e hf
  cases e with
  | append b instr => exact h.append hb
  | addGlobal name =>
    simp only [recordOf, List.append_nil]
    exact h.addGlobal name hb
  | addParam ty =>
    simp only [recordOf, List.append_nil]
    exact h.of_keeps hb rfl (def_inst_addValue (by simp)) rfl
      (by simp [Function.edit, addParam, addValue])
  | addValue =>
    simp only [recordOf, List.append_nil]
    exact h.of_keeps hb rfl (def_inst_addValue (by simp)) rfl (by simp [Function.edit, addValue])
  | setPhi phi incoming =>
    simp only [recordOf, List.append_nil]
    simp only [Function.edit] at hb ⊢
    split at hb
    · next hg =>
      obtain ⟨-, -, -, -, -, -, -, -, insts, hsize, rfl⟩ := exists_phi_of_setPhi hg
      exact h.of_keeps hb hsize (fun _ _ => Iff.rfl) rfl (Nat.le_refl _)
    · exact h
  | move i dest =>
    simp only [recordOf, List.append_nil]
    simp only [Function.edit] at hb ⊢
    split at hb
    · next hg =>
      obtain ⟨src, -, -, -, -, -, rfl⟩ := exists_relocate_of_move hg
      exact h.of_keeps hb (by simp [relocate]) (fun _ _ => Iff.rfl) rfl (Nat.le_refl _)
    · exact h
  | addBlock label | setEntry block | setReturn ty =>
    simp only [recordOf, List.append_nil]
    exact h.of_keeps hb rfl (fun _ _ => Iff.rfl) rfl (Nat.le_refl _)

end Function

namespace Builder

variable {b : Builder} {log : List Appended}

/-- So does a command to a builder, which is at most two edits. -/
theorem recorded_run (h : b.function.Recorded log) (c : Command)
    (hf : ∀ fault, (b.run c).2 ≠ .error (.fault fault)) :
    (b.run c).1.function.Recorded (log ++ b.recordOf c) := by
  -- Said of any builder, since a definition emits from the one that has the new value already.
  have hemit (b : Builder) (log : List Appended) (instr : Instruction)
      (h : b.function.Recorded log) (hf : ∀ fault, (b.emit instr).2 ≠ .error (.fault fault)) :
      (b.emit instr).1.function.Recorded (log ++ [b.function.record instr]) := by
    unfold emit at hf ⊢
    cases hcur : b.current with
    | none =>
      rw [hcur] at hf
      exact absurd rfl (hf .noCurrentBlock)
    | some block =>
      rw [hcur] at hf
      exact h.edit (.append block instr) hf
  cases c with
  | edit e => exact h.edit e hf
  | switchTo block =>
    simp only [recordOf, List.append_nil]
    exact h
  | emit instr => exact hemit b log instr h hf
  | define instr =>
    have hvalue : (b.edit .addValue).1.function.Recorded log := by
      have hstep := h.edit .addValue fun fault hv => by cases hv
      simp only [Function.recordOf, List.append_nil] at hstep
      exact hstep
    refine hemit _ log _ hvalue fun fault hemit => hf fault ?_
    simp only [run, define, hemit, Except.map]

/-- The record stays good along a list of commands of which none faults. -/
theorem recorded_runs (h : b.function.Recorded log) (cs : List Command)
    (hc : b.runsCleanly cs = true) :
    (b.runs cs).function.Recorded (log ++ b.history cs) := by
  induction cs generalizing b log with
  | nil =>
    rw [history, List.append_nil]
    exact h
  | cons c cs ih =>
    rw [runsCleanly, Bool.and_eq_true] at hc
    rw [history, ← List.append_assoc]
    refine ih (recorded_run h c fun fault hf => ?_) hc.2
    rw [hf] at hc
    exact absurd hc.1 (by simp)

/-- A command that is refused leaves the builder as it was. -/
theorem run_of_violation {c : Command} {violation : Violation}
    (h : (b.run c).2 = .error (.violation violation)) : (b.run c).1 = b := by
  -- To emit is never refused: it succeeds, or it faults for want of a block.
  have hemit (b : Builder) (instr : Instruction) :
      (b.emit instr).2 ≠ .error (.violation violation) := by
    unfold emit edit Function.edit
    cases b.current with
    | none => simp
    | some block =>
      dsimp only
      split <;> simp
  cases c with
  | edit e =>
    have hedit : (b.function.edit e).1 = b.function :=
      Function.edit_of_violation (Prod.ext rfl h)
    simp only [run, edit, hedit]
  | switchTo block => cases h
  | emit instr => exact absurd h (hemit b instr)
  | define instr =>
    refine absurd ?_ (hemit (b.edit .addValue).1 (instr b.function.nextValue))
    simp only [run, define] at h
    cases hr : ((b.edit .addValue).1.emit (instr b.function.nextValue)).2 with
    | ok r => rw [hr] at h; cases h
    | error e => rw [hr] at h; exact h

end Builder

namespace Function

variable {f g : Function} {log : List Appended} {i : InstId} {dest : BlockId}

/-! ## What the record says of the arenas -/

/-- A handle is recorded exactly if it is in the arena. -/
theorem Recorded.exists_mem_iff (h : f.Recorded log) :
    (∃ a ∈ log, a.inst = i) ↔ i.index < f.insts.size := by
  obtain ⟨i⟩ := i
  rw [← List.mem_map, h.handles]
  simp

/-- A recorded function follows its record. -/
theorem Recorded.follows (h : f.Recorded log) : f.Follows log where
  listed a ha := by
    have hlt := h.exists_mem_iff.1 ⟨a, ha, rfl⟩
    have howner : f.owner? a.inst = some f.insts[a.inst.index].owner := by
      rw [owner?, Array.getElem?_eq_getElem hlt]
      rfl
    -- A block lists each handle at most once, so listed by its owner means listed there once.
    refine ⟨_, h.built.coherent.hasBlock_of_owner? howner, howner, fun c => ?_⟩
    have hmem := h.built.coherent.mem_iff a.inst c
    rw [howner, Option.some.injEq] at hmem
    split
    · next hc =>
      exact List.count_eq_one_of_mem (h.built.coherent.nodup c) (hmem.2 hc.symm)
    · next hc => exact List.count_eq_zero_of_not_mem fun hm => hc (hmem.1 hm).symm
  recorded i b hi := by
    have howner : f.owner? i = some b := hi.elim (h.built.coherent.mem_iff i b).1 id
    obtain ⟨node, hnode, -⟩ := Option.map_eq_some_iff.1 howner
    exact h.exists_mem_iff.2 (Array.getElem?_eq_some_iff.1 hnode).1
  distinct := by
    rw [h.handles]
    exact List.nodup_range.map fun m n hmn => congrArg InstId.index hmn
  bound := h.bound
  globals m n v hm hn := by
    obtain ⟨xs, ys, hl, -⟩ := List.lookup_eq_some_iff.1 hm
    obtain ⟨xs', ys', hl', -⟩ := List.lookup_eq_some_iff.1 hn
    have hmem : (m, v) ∈ f.globals := by rw [hl]; simp
    have hmem' : (n, v) ∈ f.globals := by rw [hl']; simp
    exact congrArg Prod.fst (List.inj_on_of_nodup_map h.nodup hmem hmem' rfl)

/-! ## What a move does -/

/-- A move succeeds only into a block that has a terminator. -/
theorem exists_terminator_of_move (h : f.move i dest = .ok g) :
    ∃ xs t instr, f.instsOf dest = xs ++ [t] ∧ f.inst? t = some instr ∧
      instr.isTerminator = true := by
  unfold move at h
  split at h
  · cases h
  · split at h
    · cases h
    · cases h
    · next instr hfound =>
      have hinstr := (eq_terminator?_of_terminatorAt hfound).symm
      rw [terminator?_eq] at hinstr
      obtain ⟨hbind, hterm⟩ := Option.filter_eq_some_iff.1 hinstr
      obtain ⟨t, hlast, ht⟩ := Option.bind_eq_some_iff.1 hbind
      obtain ⟨xs, hl⟩ := List.getLast?_eq_some_iff.1 hlast
      exact ⟨xs, t, instr, hl, ht, hterm⟩

/-- Taking an instruction out of its owner takes it out of every list. -/
theorem Coherent.instsWithout_eq {src : BlockId} (h : f.Coherent) (hi : f.owner? i = some src)
    (b : BlockId) : f.instsWithout i src b = (f.instsOf b).erase i := by
  unfold instsWithout
  split
  · rfl
  · next hb =>
    exact (List.erase_of_not_mem fun hm => hb (h.eq_of_owner? hi hm).symm).symm

/-- A move that succeeds moves the instruction and changes nothing else. -/
theorem Coherent.movesTo (h : f.Coherent) (hg : f.move i dest = .ok g) : f.MovesTo g i dest := by
  obtain ⟨xs, t, last, hl, ht, hlast⟩ := exists_terminator_of_move hg
  obtain ⟨src, instr, howner, hinst, hterm, hdest, rfl⟩ := exists_relocate_of_move hg
  -- The last instruction is a terminator, so it is not the one that moves.
  have hne : i ≠ t := by
    rintro rfl
    rw [Option.some.inj (hinst.symm.trans ht), hlast] at hterm
    cases hterm
  have herase : (f.instsOf dest).erase i = xs.erase i ++ [t] := by
    rw [hl, List.erase_append]
    split
    · rfl
    · next hx => rw [List.erase_of_not_mem hx, List.erase_of_not_mem (by simpa using hne)]
  refine ⟨⟨xs.erase i, t, by rw [hl, List.getLast?_concat], herase, ?_⟩, fun b hb => ?_,
    fun j => ?_, inst?_relocate f i src dest, fun b => ?_, rfl⟩
  · rw [instsOf_relocate f i src dest dest hdest, if_pos rfl, h.instsWithout_eq howner, herase,
      List.dropLast_concat, List.getLast?_concat]
    rfl
  · rw [instsOf_relocate f i src dest b hdest, if_neg hb, h.instsWithout_eq howner]
  · rw [owner?_relocate]
    split
    · next hj => rw [hj, howner]; rfl
    · rfl
  · rw [block?_relocate, Option.map_map]
    congr 1
    funext block
    simp only [Function.comp_apply]
    split <;> split <;> rfl

/-! ## What the replies tell -/

/-- The reply to an edit that succeeds tells what it did. -/
theorem tells_edit (h : (f.edit e).2 = .ok r) : f.Tells (f.edit e).1 e r := by
  cases e with
  | addBlock label =>
    obtain rfl := Except.ok.inj h
    simp [Tells, Function.edit, addBlock, nextBlock, block?]
  | addParam ty =>
    obtain rfl := Except.ok.inj h
    simp [Tells, Function.edit, addParam, addValue, nextValue, def?]
  | addGlobal name =>
    obtain rfl := Except.ok.inj h
    -- A global that is there already keeps its value, a new one is found at the end of the table.
    simp only [Tells, Function.edit, addGlobal]
    cases hname : f.global? name with
    | some v => simp [hname]
    | none =>
      rw [global?] at hname
      simp [global?, List.lookup_append, hname]
  | addValue =>
    obtain rfl := Except.ok.inj h
    simp [Tells, Function.edit, addValue, nextValue, def?]
  | append b instr =>
    simp only [Function.edit] at h
    split at h
    · next hb =>
      obtain rfl := Except.ok.inj h
      refine ⟨rfl, inst?_nextInst f, ?_, ?_⟩
      · simp [Function.edit]
      · simp [Function.edit, hb]
    · cases h
  | setEntry b | setReturn ty =>
    obtain rfl := Except.ok.inj h
    rfl
  | setPhi phi incoming =>
    simp only [Function.edit] at h ⊢
    split at h
    · next g hg =>
      obtain rfl := Except.ok.inj h
      obtain ⟨i, dst, ty, -, hphi, -, hinst, -⟩ := exists_phi_of_setPhi hg
      exact ⟨i, dst, ty, hphi, by rw [hinst, if_pos rfl]⟩
    · cases h
  | move i dest =>
    simp only [Function.edit] at h ⊢
    split at h
    · next g hg =>
      obtain rfl := Except.ok.inj h
      obtain ⟨src, -, howner, -, -, -, rfl⟩ := exists_relocate_of_move hg
      simp only [Tells, owner?_relocate, howner, Option.map_some, if_true]
    · cases h

/-- A handle that an edit replies is in the range, as long as the arenas are no longer than it. -/
theorem Recorded.inRange_reply (hf : f.Recorded log) (h : (f.edit e).2 = .ok r)
    (hn : (f.edit e).1.Nameable) : r.InRange := by
  obtain ⟨hblocks, hinsts, hvalues⟩ := hn
  cases e with
  | addBlock label =>
    obtain rfl := Except.ok.inj h
    simp only [Function.edit, size, Function.addBlock, Array.size_push] at hblocks
    exact hblocks
  | addParam ty | addValue =>
    obtain rfl := Except.ok.inj h
    simp only [Function.edit, Function.addParam, addValue, Array.size_push] at hvalues
    exact hvalues
  | addGlobal name =>
    obtain rfl := Except.ok.inj h
    simp only [Function.edit] at hvalues
    unfold Function.addGlobal at hvalues
    cases hname : f.global? name with
    -- The value of an old global is no new handle; the record has it among those allocated.
    | some v =>
      obtain ⟨xs, ys, hl, -⟩ := List.lookup_eq_some_iff.1 hname
      have hlt := hf.allocated (name, v) (by rw [hl]; simp)
      rw [hname] at hvalues
      exact Nat.lt_of_lt_of_le hlt hvalues
    | none =>
      simp only [hname, addValue, Array.size_push] at hvalues
      exact hvalues
  | append b instr =>
    simp only [Function.edit] at h
    split at h
    · obtain rfl := Except.ok.inj h
      simp only [Function.edit, Function.append, Array.size_push] at hinsts
      exact hinsts
    · cases h
  | setEntry b | setReturn ty =>
    obtain rfl := Except.ok.inj h
    trivial
  | setPhi phi incoming | move i dest =>
    simp only [Function.edit] at h
    split at h
    · obtain rfl := Except.ok.inj h
      trivial
    · cases h

end Function

namespace Builder

variable {b : Builder} {log : List Appended} {c : Command} {instr : Instruction} {r : Reply}

/-- An instruction is added to the current block, if that succeeds. -/
theorem exists_append_of_emit (h : (b.emit instr).2 = .ok r) : ∃ block, b.current = some block ∧
    (b.emit instr).1.function = (b.function.edit (.append block instr)).1 ∧
      r = .inst b.function.nextInst ∧ (b.function.edit (.append block instr)).2 = .ok r := by
  unfold emit at h ⊢
  cases hcur : b.current with
  | none =>
    rw [hcur] at h
    cases h
  | some block =>
    rw [hcur] at h
    refine ⟨block, rfl, rfl, ?_, h⟩
    simp only [edit, Function.edit] at h
    split at h
    · exact (Except.ok.inj h).symm
    · cases h

/-- The reply to a command that succeeds tells what it did. -/
theorem tells_run (h : (b.run c).2 = .ok r) : b.Tells (b.run c).1 c r := by
  cases c with
  | edit e => exact Function.tells_edit h
  | switchTo block =>
    obtain rfl := Except.ok.inj h
    rfl
  | emit instr =>
    obtain ⟨block, hcur, hfun, rfl, hedit⟩ := exists_append_of_emit h
    have htells := Function.tells_edit hedit
    rw [← hfun] at htells
    exact ⟨block, hcur, htells⟩
  | define instr =>
    simp only [run, define] at h ⊢
    cases hemit : ((b.edit .addValue).1.emit (instr b.function.nextValue)).2 with
    | error e =>
      rw [hemit] at h
      cases h
    | ok reply =>
      rw [hemit] at h
      obtain rfl := Except.ok.inj h
      obtain ⟨block, hcur, hfun, rfl, hedit⟩ := exists_append_of_emit hemit
      have hvalue : b.function.Tells (b.function.edit .addValue).1 .addValue
          (.value b.function.nextValue) := Function.tells_edit rfl
      have htells := Function.tells_edit hedit
      rw [← hfun] at htells
      exact ⟨block, _, hcur, hvalue, htells⟩

/-- A handle that a command replies is in the range, as long as the arenas are no longer than it. -/
theorem inRange_reply (hf : b.function.Recorded log) (h : (b.run c).2 = .ok r)
    (hn : (b.run c).1.function.Nameable) : r.InRange := by
  cases c with
  | edit e => exact hf.inRange_reply h hn
  | switchTo block =>
    obtain rfl := Except.ok.inj h
    trivial
  | emit instr =>
    obtain ⟨block, -, hfun, -, hedit⟩ := exists_append_of_emit h
    refine hf.inRange_reply hedit ?_
    rwa [show (b.run (.emit instr)).1.function = _ from hfun] at hn
  | define instr =>
    simp only [run, define] at h hn
    cases hemit : ((b.edit .addValue).1.emit (instr b.function.nextValue)).2 with
    | error e =>
      rw [hemit] at h
      cases h
    | ok reply =>
      rw [hemit] at h
      obtain rfl := Except.ok.inj h
      obtain ⟨block, -, hfun, -, -⟩ := exists_append_of_emit hemit
      -- The value is allocated first, so it is in the arena of values that the emission leaves.
      have hvalues := hn.values
      rw [hfun] at hvalues
      simp only [edit, Function.edit, Function.size_values_append, Function.addValue,
        Array.size_push] at hvalues
      exact hvalues

end Builder

/-- The arenas of a function are consistent after every history. After every list of commands of
which none faults, from a function without blocks, each issued handle is listed exactly once, by its
owner, each value is bound to the last instruction that wrote it once it was allocated, and globals
have values of their own. A command that is refused then leaves everything as it is, a move that
succeeds does what it says and nothing else, and the reply to any command that succeeds tells what
it did, by a handle of the range as long as the arenas are no longer than that. -/
theorem history_consistent (name : String) (params : List Param) (ret : Option Ty)
    (cs : List Command) (hc : Builder.runsCleanly { function := { name, params, ret } } cs = true) :
    let b : Builder := { function := { name, params, ret } }
    (b.runs cs).function.Follows (b.history cs) ∧
      (∀ c violation, ((b.runs cs).run c).2 = .error (.violation violation) →
        ((b.runs cs).run c).1 = b.runs cs) ∧
      (∀ i dest reply, ((b.runs cs).run (.edit (.move i dest))).2 = .ok reply →
        (b.runs cs).function.MovesTo ((b.runs cs).run (.edit (.move i dest))).1.function i
          dest) ∧
      ∀ c reply, ((b.runs cs).run c).2 = .ok reply →
        (b.runs cs).Tells ((b.runs cs).run c).1 c reply ∧
          (((b.runs cs).run c).1.function.Nameable → reply.InRange) := by
  intro b
  have h := Builder.recorded_runs (Function.Recorded.new name params ret) cs hc
  refine ⟨by simpa using h.follows, fun c violation => Builder.run_of_violation,
    fun i dest reply hr => ?_,
    fun c reply hr => ⟨Builder.tells_run hr, Builder.inRange_reply h hr⟩⟩
  simp only [Builder.run, Builder.edit, Function.edit] at hr ⊢
  split at hr
  · next g hg => exact h.built.coherent.movesTo hg
  · cases hr

/-- A history in which value 2 is bound twice, an instruction writes a value that is not allocated,
two edits are refused, and an instruction moves down within its block, while the entry stays empty
all the time. -/
def rehearsal : List Command :=
  [.edit (.addParam .i64), .edit (.addGlobal "bell"), .edit (.addBlock "entry"),
    .edit (.addBlock "stage"), .switchTo ⟨1⟩,
    .define (.compute · (.copy .i64 (.value ⟨0⟩))), .define (.load · .i64 (.value ⟨1⟩) {}),
    .edit (.append ⟨1⟩ (.compute ⟨2⟩ (.copy .i64 (.value ⟨3⟩)))),
    .edit (.append ⟨1⟩ (.compute ⟨9⟩ (.copy .i64 (.value ⟨2⟩)))), .emit (.jump ⟨1⟩),
    .edit (.move ⟨0⟩ ⟨0⟩), .edit (.setPhi ⟨0⟩ []), .edit (.addGlobal "bell"),
    .edit (.addGlobal "horn"), .edit (.move ⟨0⟩ ⟨1⟩)]

/-- After the rehearsal the second writer is the source of value 2, a move into the empty entry
changes nothing, a move within the stage changes the order there only, and who asks for the horn is
told the value that stands for it. -/
theorem history_consistent_rehearsal :
    (Builder.new "play").runsCleanly rehearsal = true ∧
      let b := (Builder.new "play").runs rehearsal
      b.function.layout = [[], [⟨1⟩, ⟨2⟩, ⟨3⟩, ⟨0⟩, ⟨4⟩]] ∧ b.function.def? ⟨2⟩ = some (.inst ⟨2⟩) ∧
        b.function.Follows ((Builder.new "play").history rehearsal) ∧
        (b.run (.edit (.move ⟨1⟩ ⟨0⟩))).1 = b ∧
        b.function.MovesTo (b.run (.edit (.move ⟨1⟩ ⟨1⟩))).1.function ⟨1⟩ ⟨1⟩ ∧
        (b.run (.edit (.addGlobal "horn"))).2 = .ok (.value ⟨4⟩) ∧
        (b.run (.edit (.addGlobal "horn"))).1.function.global? "horn" = some ⟨4⟩ := by
  have hc : (Builder.new "play").runsCleanly rehearsal = true := by decide
  obtain ⟨hfollows, hrefused, hmoved, htold⟩ := history_consistent "play" [] none rehearsal hc
  exact ⟨hc, by decide, (hfollows.bound ⟨2⟩ ⟨2⟩).2 ⟨_, rfl, rfl⟩, hfollows, hrefused _ _ rfl,
    hmoved _ _ .done rfl, rfl, (htold (.edit (.addGlobal "horn")) (.value ⟨4⟩) rfl).1.1⟩

end LoopHoist
