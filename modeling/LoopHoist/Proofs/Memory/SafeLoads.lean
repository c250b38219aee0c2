import LoopHoist.Proofs.Motion.Verdicts

/-!
# Loads that are safe in a loop

What the rules for aliases say of a function. A slot is private when no instruction passes its
address on; a load that is safe in a loop is from a global that no store of the loop may name, or
from a private slot that none of them names (`LoopState.loadIsSafe_cases`).
-/

namespace LoopHoist

variable {f g : Function} {settings : Settings} {l : Loop} {b : BlockId} {i : InstId} {v : ValueId}
  {addr : Operand} {slots : StackSlots}

/-- The value of a slot is the result of the instruction that makes it. -/
theorem Instruction.def?_of_slot? {instr : Instruction} (h : instr.slot? = some v) :
    instr.def? = some v := by
  cases instr <;> simp_all [slot?, def?]

namespace Function

/-- Whether a value holds the address of a stack slot. -/
def Slot (f : Function) (v : ValueId) : Prop := ∃ p ∈ f.placed, p.2.slot? = some v

/-- Whether a value holds the address of a stack slot that no instruction passes on. -/
def Private (f : Function) (v : ValueId) : Prop :=
  f.Slot v ∧ ∀ p ∈ f.placed, v ∉ p.2.published

namespace Rearranged

variable (h : f.Rearranged g)
include h

/-- The same slots are made. -/
theorem slot_iff : g.Slot v ↔ f.Slot v :=
  exists_congr fun _ => and_congr_left fun _ => h.mem_placed_iff

/-- The same slots are private. -/
theorem private_iff : g.Private v ↔ f.Private v :=
  and_congr h.slot_iff (forall_congr' fun _ => imp_congr_left h.mem_placed_iff)

end Rearranged

end Function

/-! ## What is found -/

/-- The slots that are found are those that the function makes. -/
theorem StackSlots.isSlot_iff : (ofFunction f).isSlot v = true ↔ f.Slot v := by
  simp [isSlot, ofFunction, ofPlaced, Function.Slot]

/-- The slots that are found to be private are so. -/
theorem StackSlots.isPrivate_iff : (ofFunction f).isPrivate v = true ↔ f.Private v := by
  have hslot : (ofFunction f).slots.contains v = true ↔ f.Slot v := isSlot_iff
  have hescaped : (ofFunction f).escaped.contains v = true ↔
      (∃ p ∈ f.placed, v ∈ p.2.published) ∧ (ofFunction f).slots.contains v = true := by
    rw [List.contains_iff_mem]
    show v ∈ (f.placed.flatMap fun p => p.2.published).filter _ ↔ _
    rw [List.mem_filter, List.mem_flatMap]
    rfl
  unfold isPrivate Function.Private
  rw [Bool.and_eq_true, Bool.not_eq_true', Bool.eq_false_iff, Ne, hescaped, hslot]
  constructor
  · exact fun ⟨hs, hn⟩ => ⟨hs, fun p hp hv => hn ⟨⟨p, hp, hv⟩, hs⟩⟩
  · exact fun ⟨hs, hn⟩ => ⟨hs, fun ⟨⟨p, hp, hv⟩, _⟩ => hn p hp hv⟩

/-- An address that names an object is a value: that of a global, or that of a slot. -/
theorem Function.object?_eq_some {t : MemObject}
    (h : f.object? (.ofFunction f) addr = some t) :
    ∃ v, addr = .value v ∧ ((∃ name, f.def? v = some (.global name)) ∧ t = .global v ∨
      (∃ i, f.def? v = some (.inst i)) ∧ f.Slot v ∧ t = .stack v) := by
  unfold Function.object? at h
  cases addr with
  | imm i => cases h
  | value v =>
    dsimp only [Operand.value?] at h
    refine ⟨v, rfl, ?_⟩
    split at h
    · next name hname => exact .inl ⟨⟨name, hname⟩, (Option.some.inj h).symm⟩
    · next i hi =>
      split at h
      · next hs => exact .inr ⟨⟨i, hi⟩, StackSlots.isSlot_iff.1 hs, (Option.some.inj h).symm⟩
      · cases h
    · cases h

/-- No store of a loop that may not write an object names it, and only for a private slot does one
name no object. -/
theorem LoopMemory.of_mayWrite_eq_false {m : LoopMemory} {t : MemObject}
    (h : m.mayWrite slots t = false) : ∀ o ∈ m.stores, o ≠ some t ∧
      (o = none → ∃ v, t = .stack v ∧ slots.isPrivate v = true) := by
  intro o ho
  unfold mayWrite at h
  rw [Bool.or_eq_false_iff, List.any_eq_false] at h
  have hany := h.2 o ho
  cases o with
  | none =>
    refine ⟨by simp, fun _ => ?_⟩
    cases t with
    | global v => simp at hany
    | stack v => exact ⟨v, rfl, by simpa using hany⟩
  | some t' => exact ⟨fun heq => hany (by simpa using heq), fun hn => by cases hn⟩

/-- A loop that neither stores nor calls writes nothing. -/
theorem LoopMemory.mayWrite_eq_false_of_quiet {m : LoopMemory} (hstore : m.hasStore = false)
    (hcall : m.hasCall = false) (o : MemObject) : m.mayWrite slots o = false := by
  rw [LoopMemory.hasStore, Bool.not_eq_false', List.isEmpty_iff] at hstore
  unfold mayWrite
  simp only [hstore, hcall, Bool.and_false, List.any_nil, Bool.or_false]

/-- A load that is safe in a loop is from an object that nothing in the loop may write, and from no
slot but a private one. -/
theorem LoopState.exists_object_of_loadIsSafe
    (h : (LoopState.start f slots settings l).loadIsSafe f addr = true) :
    ∃ t, f.object? slots addr = some t ∧ (LoopMemory.ofLoop f slots l).mayWrite slots t = false ∧
      ∀ v, t = .stack v → slots.isPrivate v = true := by
  unfold loadIsSafe at h
  split at h
  · cases h
  · next hobject =>
    -- Under this policy there are neither stores nor calls.
    rw [Bool.and_eq_true, Bool.not_eq_true', Bool.not_eq_true'] at h
    exact ⟨_, hobject, LoopMemory.mayWrite_eq_false_of_quiet h.1 h.2 _, by rintro v ⟨⟩⟩
  · cases h
  · next hobject =>
    rw [Bool.not_eq_true'] at h
    exact ⟨_, hobject, h, by rintro v ⟨⟩⟩
  · next hobject =>
    rw [Bool.and_eq_true, Bool.not_eq_true'] at h
    exact ⟨_, hobject, h.2, by rintro v ⟨⟩; exact h.1⟩

/-- A load that is safe in a loop is from a global that every store in the loop knows not to be its
object, or from a private slot that no store in the loop names. -/
theorem LoopState.loadIsSafe_cases
    (h : (LoopState.start f (.ofFunction f) settings l).loadIsSafe f addr = true) :
    ∃ v, addr = .value v ∧
      ((∃ name, f.def? v = some (.global name)) ∧
        (∀ o ∈ (LoopMemory.ofLoop f (.ofFunction f) l).stores, ∃ t, o = some t ∧ t ≠ .global v) ∨
      f.Private v ∧ (∃ i, f.def? v = some (.inst i)) ∧
        some (.stack v) ∉ (LoopMemory.ofLoop f (.ofFunction f) l).stores) := by
  obtain ⟨t, hobject, hnot, hpriv⟩ := exists_object_of_loadIsSafe h
  have hstores := LoopMemory.of_mayWrite_eq_false hnot
  obtain ⟨v, rfl, ⟨hname, rfl⟩ | ⟨hi, -, rfl⟩⟩ := Function.object?_eq_some hobject
  · refine ⟨v, rfl, .inl ⟨hname, fun o ho => ?_⟩⟩
    obtain ⟨hne, hnone⟩ := hstores o ho
    cases o with
    | none =>
      obtain ⟨w, hw, -⟩ := hnone rfl
      cases hw
    | some t => exact ⟨t, rfl, fun ht => hne (congrArg some ht)⟩
  · exact ⟨v, rfl, .inr ⟨StackSlots.isPrivate_iff.1 (hpriv v rfl), hi,
      fun ho => (hstores _ ho).1 rfl⟩⟩

/-- The instructions of a block of a loop are in its body. -/
theorem Function.mem_bodyOf {instr : Instruction} (hb : b ∈ l.blocks) (hi : i ∈ f.instsOf b)
    (hinst : f.inst? i = some instr) : instr ∈ (f.bodyOf l).map (·.2) :=
  List.mem_map.2 ⟨(i, instr), List.mem_flatMap.2 ⟨b, hb, mem_placedIn.2 ⟨hi, hinst⟩⟩, rfl⟩

/-- The object of a store in a loop is among those that the loop stores to. -/
theorem LoopMemory.mem_stores {ty : Ty} {src' : Operand} {access : Access} (hb : b ∈ l.blocks)
    (hi : i ∈ f.instsOf b) (hinst : f.inst? i = some (.store ty src' addr access)) :
    f.object? slots addr ∈ (ofLoop f slots l).stores :=
  List.mem_map.2 ⟨addr, List.mem_filterMap.2 ⟨_, Function.mem_bodyOf hb hi hinst, rfl⟩, rfl⟩

end LoopHoist
