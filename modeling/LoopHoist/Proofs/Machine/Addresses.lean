import LoopHoist.Proofs.Machine.Steps
import LoopHoist.Proofs.Memory.SafeLoads
import LoopHoist.Proofs.Motion.SingleAssignment

/-!
# Where the addresses of stack objects are

An address is held by a register, by a memory cell or by an argument of a recorded call
(`Holder`). `Machine.Carries` says all that one move of a run does with the addresses of stack
objects: an address stays where it was, or it comes from a place from which it can be passed on, or
the move makes a new object for one slot. An instruction, the phis of a block, and whatever else
changes memory without making up addresses are such moves. Where addresses may be made up, `honest`
is false, and what is left of a move is that it leaves the registers of the slots alone.

What holds of objects is derived from that alone. `Machine.Owned` says that an object belongs to a
slot: no other slot leads to it, and if the slot is private and moves are honest nothing else does.
It is kept by every move (`Owned.carries`), so it holds for the rest of the run of every object that
a slot ever had. `Machine.Orderly` says that each slot owns its present object. The start has this
property, and every move keeps it, as long as no value is written by two instructions.
-/

namespace LoopHoist

variable {f : Function} {m m' : Machine} {instr : Instruction} {i : InstId} {v w : ValueId}
  {o : Operand} {a : Val} {k : Nat} {b : BlockId} {came : Option BlockId}
  {vals : List (ValueId × Val)} {made : Option ValueId} {honest : Prop}

/-- The region of an address. -/
def Val.region? : Val → Option MemRegion
  | ptr p => some p.region
  | _ => none

/-- An instruction that writes the value of a slot makes that slot. -/
theorem Function.WritesOnce.slot?_eq (hf : f.WritesOnce) (hp : (i, instr) ∈ f.placed)
    (hv : instr.def? = some v) (hs : f.Slot v) : instr.slot? = some v := by
  obtain ⟨⟨j, instr'⟩, hq, hslot⟩ := hs
  obtain ⟨⟨b, hi⟩, hinst⟩ := mem_placed.1 hp
  obtain ⟨⟨c, hj⟩, hinst'⟩ := mem_placed.1 hq
  have hv' : instr'.def? = some v := Instruction.def?_of_slot? hslot
  obtain rfl : i = j := hf b c i j instr instr' v hi hj hinst hinst' hv hv'
  obtain rfl := Option.some.inj (hinst.symm.trans hinst')
  exact hslot

/-- What can hold an address. -/
inductive Holder where
  /-- The register of a value. -/
  | reg (v : ValueId)
  /-- A memory cell. -/
  | cell (p : Address)
  /-- An argument of a recorded call. -/
  | arg

/-- Whether some instruction passes a value on. -/
def Function.Published (f : Function) (v : ValueId) : Prop := ∃ p ∈ f.placed, v ∈ p.2.published

/-- A private slot is not published. -/
theorem Function.not_published_of_private (h : f.Private v) : ¬ f.Published v :=
  fun ⟨p, hp, hv⟩ => h.2 p hp hv

namespace Machine

/-- Whether an address of a stack object is in a place. -/
def Leads (m : Machine) (k : Nat) : Holder → Prop
  | .reg v => ∃ a, m.reg? v = some a ∧ a.region? = some (.stack k)
  | .cell p => (m.cell p).region? = some (.stack k)
  | .arg => ∃ c ∈ m.calls, ∃ a ∈ c.args, a.region? = some (.stack k)

/-- Whether an address of a stack object is in a place from which it can be passed on. -/
def Loose (f : Function) (m : Machine) (k : Nat) : Prop :=
  ∃ x, m.Leads k x ∧ ∀ v, x = .reg v → f.Published v

/-- What one move of a run does with the addresses of stack objects, when it makes a new object for
the given slot, if for any. An honest move makes up no address. -/
structure Carries (f : Function) (honest : Prop) (made : Option ValueId) (m m' : Machine) :
    Prop where
  /-- The objects are numbered in order. -/
  nextSlot : m'.nextSlot = if made.isSome then m.nextSlot + 1 else m.nextSlot
  /-- An address was there before, or could be passed on, or is that of the new object. -/
  leads : honest → ∀ x k, m'.Leads k x →
    m.Leads k x ∨ m.Loose f k ∨ ∃ v, made = some v ∧ x = .reg v ∧ k = m.nextSlot
  /-- The registers of the other slots stay. -/
  slots : ∀ v, f.Slot v →
    m'.reg? v = if made = some v then some (.ptr ⟨.stack m.nextSlot, 0⟩) else m.reg? v

/-! ## Instructions -/

/-- An instruction records a call of the values of its arguments, or no call. -/
theorem calls_perform (h : m.perform f instr = .ok m') : m'.calls = m.calls ∨
    ∃ dst callee args vals, instr = .call dst callee args ∧ args.mapM (m.get f) = .ok vals ∧
      m'.calls = m.calls.push ⟨callee, vals⟩ := by
  cases instr with
  | compute dst c =>
    obtain ⟨a, -, h⟩ := exists_of_bind_eq_ok h
    obtain rfl := Except.ok.inj h
    exact .inl rfl
  | load dst ty addr access =>
    obtain ⟨b, -, h⟩ := exists_of_bind_eq_ok h
    obtain ⟨p, -, h⟩ := exists_of_bind_eq_ok h
    obtain rfl := Except.ok.inj h
    exact .inl rfl
  | store ty src addr access =>
    obtain ⟨b, -, h⟩ := exists_of_bind_eq_ok h
    obtain ⟨p, -, h⟩ := exists_of_bind_eq_ok h
    obtain ⟨a, -, h⟩ := exists_of_bind_eq_ok h
    obtain rfl := Except.ok.inj h
    exact .inl rfl
  | call dst callee args =>
    obtain ⟨vals, hvals, h⟩ := exists_of_bind_eq_ok h
    obtain rfl := Except.ok.inj h
    refine .inr ⟨dst, callee, args, vals, rfl, hvals, ?_⟩
    cases dst <;> rfl
  | _ =>
    obtain rfl := Except.ok.inj h
    exact .inl rfl

/-- An operand that stands for an address of a stack object is a value that holds it. -/
theorem leads_of_get (h : m.get f o = .ok a) (hk : a.region? = some (.stack k)) :
    ∃ v, o = .value v ∧ m.Leads k (.reg v) := by
  rcases get_eq_ok h with ⟨i, rfl, rfl⟩ | ⟨v, name, rfl, -, rfl⟩ | ⟨v, rfl, hv⟩
  · cases i <;> cases hk
  · cases hk
  · exact ⟨v, rfl, a, hv, hk⟩

/-- An address that an operand of a publishing instruction stands for can be passed on. -/
theorem loose_of_get (hp : (i, instr) ∈ f.placed) (hpub : ∀ v, o = .value v → v ∈ instr.published)
    (h : m.get f o = .ok a) (hk : a.region? = some (.stack k)) : m.Loose f k := by
  obtain ⟨v, rfl, hv⟩ := leads_of_get h hk
  exact ⟨.reg v, hv, fun w hw => ⟨_, hp, Holder.reg.inj hw ▸ hpub v rfl⟩⟩

/-- An address that a computation gives can be passed on. -/
theorem loose_of_eval {dst : ValueId} {c : Computation}
    (hp : (i, Instruction.compute dst c) ∈ f.placed) (ha : c.eval (m.get f) = .ok a)
    (hk : a.region? = some (.stack k)) : m.Loose f k := by
  have hop : ∀ o ∈ c.operands, ∀ b, m.get f o = .ok b → b.region? = some (.stack k) →
      m.Loose f k := fun o ho b hb hbk =>
    loose_of_get hp (fun v hv => Instruction.mem_usedValues ho hv) hb hbk
  have hfrom := Computation.eval_eq_ok ha
  cases c with
  | int op ty lhs rhs | compare op ty lhs rhs =>
    obtain ⟨n, rfl⟩ := hfrom
    cases hk
  | float op ty lhs rhs =>
    obtain ⟨bits, rfl⟩ := hfrom
    cases hk
  | select ty cond ifTrue ifFalse =>
    rcases hfrom with h | h
    · exact hop ifTrue (by simp [Computation.operands]) a h hk
    · exact hop ifFalse (by simp [Computation.operands]) a h hk
  | copy ty src => exact hop src (by simp [Computation.operands]) a hfrom hk
  | lea base offset =>
    obtain ⟨q, delta, hq, rfl⟩ := hfrom
    exact hop base (by simp [Computation.operands]) _ hq hk

/-- An address that an instruction writes into a register can be passed on, or it is that of the
object that the instruction makes. -/
theorem Gives.loose_or_new (h : m.Gives f instr a) (hp : (i, instr) ∈ f.placed)
    (hv : instr.def? = some v) (hk : a.region? = some (.stack k)) :
    m.Loose f k ∨ instr.slot? = some v ∧ k = m.nextSlot := by
  cases h with
  | compute hc => exact .inl (loose_of_eval hp hc hk)
  | alloca dst ty =>
    obtain rfl : m.nextSlot = k := by simpa [Val.region?] using hk
    exact .inr ⟨hv, rfl⟩
  | @load dst ty addr access q hq => exact .inl ⟨.cell q, hk, by simp⟩
  | call dst callee args n => cases hk

/-- An address among the arguments of a call was there before, or could be passed on. -/
theorem leads_arg_of_perform (hp : (i, instr) ∈ f.placed) (h : m.perform f instr = .ok m')
    (harg : m'.Leads k .arg) : m.Leads k .arg ∨ m.Loose f k := by
  obtain ⟨c, hc, a, ha, hk⟩ := harg
  rcases calls_perform h with hcalls | ⟨dst, callee, args, vals, rfl, hvals, hcalls⟩
  · exact .inl ⟨c, hcalls ▸ hc, a, ha, hk⟩
  · rw [hcalls] at hc
    rcases Array.mem_push.1 hc with hc | rfl
    · exact .inl ⟨c, hc, a, ha, hk⟩
    · obtain ⟨o, ho, hget⟩ := (mem_of_mapM_eq_ok hvals).1 a ha
      exact .inr (loose_of_get hp (fun v hv => Instruction.mem_usedValues ho hv) hget hk)

/-- Where an address of a stack object is after an instruction. -/
theorem leads_of_perform (hp : (i, instr) ∈ f.placed) (h : m.perform f instr = .ok m')
    {x : Holder} (hx : m'.Leads k x) :
    m.Leads k x ∨ m.Loose f k ∨ ∃ v, instr.slot? = some v ∧ x = .reg v ∧ k = m.nextSlot := by
  cases x with
  | reg w =>
    obtain ⟨b, hb, hk⟩ := hx
    rcases (perform_cases h).2 with ⟨dst, a, hdst, -, hgives, hreg, -⟩ |
        ⟨_, _, _, _, c, q, -, -, -, rfl⟩ | ⟨-, hregs, -⟩
    · rw [hreg] at hb
      split at hb
      · next heq =>
        obtain rfl := Option.some.inj hb
        refine .inr ((hgives.loose_or_new hp hdst hk).imp_right fun ⟨hslot, hnew⟩ => ?_)
        exact ⟨dst, hslot, congrArg Holder.reg heq.symm, hnew⟩
      · exact .inl ⟨b, hb, hk⟩
    · exact .inl ⟨b, hb, hk⟩
    · exact .inl ⟨b, by rw [reg?, ← hregs]; exact hb, hk⟩
  | cell p =>
    rcases (perform_cases h).2 with ⟨-, -, -, -, -, -, hmem⟩ |
        ⟨ty, src, addr, access, a, q, rfl, -, hsrc, rfl⟩ | ⟨-, -, hmem⟩
    · exact .inl (by rw [Leads, ← cell_congr hmem]; exact hx)
    · rw [Leads, cell_setCell] at hx
      split at hx
      · refine .inr (.inl (loose_of_get hp (fun v hv => ?_) hsrc hx))
        subst hv
        exact List.mem_singleton.2 rfl
      · exact .inl hx
    · exact .inl (by rw [Leads, ← cell_congr hmem]; exact hx)
  | arg => exact (leads_arg_of_perform hp h hx).imp_right .inl

/-- An instruction makes an object for the slot that it writes. -/
theorem carries_perform (hf : f.WritesOnce) (hp : (i, instr) ∈ f.placed)
    (h : m.perform f instr = .ok m') : m.Carries f honest instr.slot? m' where
  nextSlot := (perform_cases h).1
  leads _ _ _ := leads_of_perform hp h
  slots v hv := by
    by_cases hslot : instr.slot? = some v
    · rw [if_pos hslot]
      cases instr with
      | alloca dst ty =>
        obtain rfl := Option.some.inj hslot
        obtain rfl := Except.ok.inj h
        show (m.setReg dst _).reg? dst = _
        simp
      | _ => cases hslot
    · rw [if_neg hslot]
      exact reg?_perform h fun hdef => hslot (hf.slot?_eq hp hdef hv)

/-! ## Phis -/

/-- Writing registers changes the registers alone. -/
theorem exists_regs_setAll (m : Machine) (vals : List (ValueId × Val)) :
    ∃ regs, m.setAll vals = { m with regs } := by
  induction vals generalizing m with
  | nil => exact ⟨m.regs, rfl⟩
  | cons p vals ih => exact ih (m.setReg p.1 p.2)

/-- The phis of a block make no object. -/
theorem carries_setPhis (hf : f.WritesOnce) (h : m.phiValues f came b = .ok vals) :
    m.Carries f honest none (m.setAll vals) := by
  obtain ⟨hvals, -⟩ := phiValues_eq_ok h
  obtain ⟨regs, hregs⟩ := exists_regs_setAll m vals
  refine ⟨by rw [hregs]; rfl, fun _ x k hx => ?_, fun v hv => ?_⟩
  · cases x with
    | reg w =>
      obtain ⟨a, ha, hk⟩ := hx
      rcases of_reg?_setAll ha with ha | ha
      · exact .inl ⟨a, ha, hk⟩
      · obtain ⟨i, ty, ins, c, o, hi, hinst, -, ho, hget⟩ := hvals _ ha
        refine .inr (.inl (loose_of_get (Function.mem_placed.2 ⟨⟨b, hi⟩, hinst⟩)
          (fun u hu => ?_) hget hk))
        exact Instruction.mem_usedValues (List.mem_map.2 ⟨(c, o), ho, rfl⟩) hu
    | cell p => exact .inl (by rw [Leads, ← cell_congr (memory_setAll m vals)]; exact hx)
    | arg =>
      rw [hregs] at hx
      exact .inl hx
  · rw [if_neg (by simp)]
    refine reg?_setAll fun p hp heq => ?_
    obtain ⟨i, ty, ins, -, -, hi, hinst, -⟩ := hvals p hp
    cases hf.slot?_eq (Function.mem_placed.2 ⟨⟨b, hi⟩, hinst⟩) (congrArg some heq) hv

/-! ## Objects and their slots -/

/-- Whether a stack object is one that a slot has or had. -/
structure Owned (f : Function) (honest : Prop) (m : Machine) (v : ValueId) (k : Nat) : Prop where
  /-- The object has been made. -/
  lt : k < m.nextSlot
  /-- No other slot leads to it. -/
  slots : ∀ w, f.Slot w → m.Leads k (.reg w) → w = v
  /-- If the slot is private, nothing else leads to it. -/
  secret : honest → f.Private v → ∀ x, m.Leads k x → x = .reg v

/-- The object of a private slot cannot be passed on. -/
theorem Owned.not_loose (h : m.Owned f honest v k) (hh : honest) (hv : f.Private v) :
    ¬ m.Loose f k :=
  fun ⟨x, hx, hpub⟩ => Function.not_published_of_private hv (hpub v (h.secret hh hv x hx))

/-- A slot keeps the objects that it has or had. -/
theorem Owned.carries (h : m.Owned f honest v k) (hc : m.Carries f honest made m') :
    m'.Owned f honest v k where
  lt := by
    have := h.lt
    rw [hc.nextSlot]
    split <;> omega
  slots w hw hlead := by
    obtain ⟨a, ha, hk⟩ := hlead
    rw [hc.slots w hw] at ha
    split at ha
    · -- The object that is made is a new one.
      obtain rfl := Option.some.inj ha
      obtain rfl : m.nextSlot = k := by simpa [Val.region?] using hk
      exact absurd h.lt (Nat.lt_irrefl _)
    · exact h.slots w hw ⟨a, ha, hk⟩
  secret hh hv x hx := by
    rcases hc.leads hh x k hx with hx | hloose | ⟨-, -, -, rfl⟩
    · exact h.secret hh hv x hx
    · exact absurd hloose (h.not_loose hh hv)
    · exact absurd h.lt (Nat.lt_irrefl _)

/-- What holds of the objects at any time of a run. -/
structure Orderly (f : Function) (honest : Prop) (m : Machine) : Prop where
  /-- There is no address of an object that has not been made. -/
  dated : honest → ∀ x k, m.Leads k x → k < m.nextSlot
  /-- An address in the register of a slot is the start of a stack object. -/
  start : ∀ v p, f.Slot v → m.reg? v = some (.ptr p) → ∃ k, p = ⟨.stack k, 0⟩
  /-- A slot owns its present object. -/
  owned : ∀ v k, f.Slot v → m.Leads k (.reg v) → m.Owned f honest v k

/-- Every move keeps the objects in order. -/
theorem Orderly.carries (h : m.Orderly f honest) (hc : m.Carries f honest made m') :
    m'.Orderly f honest where
  dated hh x k hx := by
    have hnext := hc.nextSlot
    rcases hc.leads hh x k hx with hx | ⟨y, hy, -⟩ | ⟨v, rfl, -, rfl⟩
    · have := h.dated hh x k hx
      split at hnext <;> omega
    · have := h.dated hh y k hy
      split at hnext <;> omega
    · rw [Option.isSome_some, if_pos rfl] at hnext
      omega
  start v p hv hp := by
    rw [hc.slots v hv] at hp
    split at hp
    · exact ⟨m.nextSlot, (Val.ptr.inj (Option.some.inj hp)).symm⟩
    · exact h.start v p hv hp
  owned v k hv hlead := by
    obtain ⟨a, ha, hk⟩ := hlead
    rw [hc.slots v hv] at ha
    split at ha
    · next hmade =>
      obtain rfl := Option.some.inj ha
      obtain rfl : m.nextSlot = k := by simpa [Val.region?] using hk
      refine ⟨?_, fun w hw hlead => ?_, fun hh _ x hx => ?_⟩
      · rw [hc.nextSlot, hmade]
        exact Nat.lt_succ_self _
      · -- The other slots lead to objects that they had before.
        obtain ⟨b, hb, hbk⟩ := hlead
        rw [hc.slots w hw] at hb
        split at hb
        · next hmade' => exact Option.some.inj (hmade'.symm.trans hmade)
        · exact absurd (h.owned w _ hw ⟨b, hb, hbk⟩).lt (Nat.lt_irrefl _)
      · -- Before the object was made there was no address of it.
        rcases hc.leads hh x _ hx with hx | ⟨y, hy, -⟩ | ⟨u, hu, rfl, -⟩
        · exact absurd (h.dated hh x _ hx) (Nat.lt_irrefl _)
        · exact absurd (h.dated hh y _ hy) (Nat.lt_irrefl _)
        · rw [hmade] at hu
          rw [Option.some.inj hu]
    · exact (h.owned v k hv ⟨a, ha, hk⟩).carries hc

/-! ## The start -/

/-- Loading integers into memory leaves integers in it, and the registers as they are. -/
theorem cell_load (l : List (String × Int64)) (h : ∀ p, ∃ n, m.cell p = .int n) :
    (∀ p, ∃ n, (l.foldl (fun s e => s.setCell ⟨.global e.1, 0⟩ (.int e.2)) m).cell p = .int n) ∧
      (l.foldl (fun s e => s.setCell ⟨.global e.1, 0⟩ (.int e.2)) m).regs = m.regs := by
  induction l generalizing m with
  | nil => exact ⟨h, rfl⟩
  | cons e l ih =>
    refine ih fun p => ?_
    rw [cell_setCell]
    split
    · exact ⟨e.2, rfl⟩
    · exact h p

/-- At the start cells hold integers, and registers the arguments of parameters. -/
theorem start_spec (module : Module) (f : Function) (args : List Int64) :
    (∀ p, ∃ n, (start module f args).cell p = .int n) ∧
      (∀ v a, (start module f args).reg? v = some a →
        (∃ q ∈ f.params, q.value = v) ∧ ∃ n, a = .int n) ∧
      ∀ q n, (q, n) ∈ f.params.zip args → ∃ a, (start module f args).reg? q.value = some a := by
  obtain ⟨hcells, hregs⟩ := cell_load (m := {}) module.initialValues.toList fun p => ⟨0, rfl⟩
  generalize hloaded : module.initialValues.toList.foldl
    (fun s e => s.setCell ⟨.global e.1, 0⟩ (.int e.2)) ({} : Machine) = loaded at hcells hregs
  have hstart : start module f args =
      loaded.setAll ((f.params.zip args).map fun p => (p.1.value, .int p.2)) := by
    unfold start setAll
    rw [hloaded, List.foldl_map]
  rw [hstart]
  refine ⟨fun p => ?_, fun v a h => ?_, fun q n hq => ?_⟩
  · rw [cell_congr (memory_setAll _ _)]
    exact hcells p
  · rcases of_reg?_setAll h with h | h
    · rw [reg?, hregs] at h
      simp at h
    · obtain ⟨⟨q, n⟩, hmem, heq⟩ := List.mem_map.1 h
      obtain ⟨rfl, rfl⟩ := Prod.mk.inj heq
      exact ⟨⟨q, (List.of_mem_zip hmem).1, rfl⟩, n, rfl⟩
  · exact exists_reg?_setAll (.inr ⟨.int n, List.mem_map.2 ⟨(q, n), hq, rfl⟩⟩)

/-- At the start no calls have been made. -/
theorem calls_start (module : Module) (f : Function) (args : List Int64) :
    (start module f args).calls = #[] := by
  refine List.foldlRecOn (motive := fun m : Machine => m.calls = #[]) _ _ ?_ fun _ h _ _ => h
  exact List.foldlRecOn (motive := fun m : Machine => m.calls = #[]) _ _ rfl fun _ h _ _ => h

/-- At the start of a run there are no objects. -/
theorem orderly_start (module : Module) (f : Function) (args : List Int64) :
    (start module f args).Orderly f honest := by
  obtain ⟨hcells, hregs, -⟩ := start_spec module f args
  have hcalls := calls_start module f args
  have hnone : ∀ x k, ¬ (start module f args).Leads k x := fun x k hx => by
    cases x with
    | reg v =>
      obtain ⟨a, ha, hk⟩ := hx
      obtain ⟨-, n, rfl⟩ := hregs v a ha
      cases hk
    | cell p =>
      obtain ⟨n, hn⟩ := hcells p
      rw [Leads, hn] at hx
      cases hx
    | arg =>
      obtain ⟨c, hc, -⟩ := hx
      rw [hcalls] at hc
      simp at hc
  refine ⟨fun _ x k hx => absurd hx (hnone x k), fun v p _ hp => ?_,
    fun v k _ hx => absurd hx (hnone _ k)⟩
  obtain ⟨-, n, hn⟩ := hregs v _ hp
  cases hn

end Machine

end LoopHoist
