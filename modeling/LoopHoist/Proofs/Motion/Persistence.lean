import LoopHoist.Proofs.Motion.SingleAssignment
import Mathlib.Logic.Relation

/-!
# Invariance only grows

While a loop is judged, instructions are marked as hoisted and instructions are moved to blocks
outside the loop. The pass moves and marks what it accepts, but nothing here depends on that:
whatever is marked or moved out, in whatever order (`LoopState.Event`), no instruction comes back
into the loop and nothing that a verdict asks for is revoked (`LoopState.Grows`). So what is
invariant stays invariant, and what is accepted stays accepted as what it is.
-/

namespace LoopHoist

namespace LoopState

variable {s : LoopState} {g k : Function} {p q r : LoopState × Function} {v : ValueId}
  {x : InstId} {dest : BlockId} {instr : Instruction} {kind : HoistKind}

/-- One event while a loop is judged, on the state of the loop and the function: an instruction is
marked as hoisted, or one is moved to a block outside the loop. -/
inductive Event : LoopState × Function → LoopState × Function → Prop where
  /-- An instruction is marked, whether it was accepted or not. -/
  | mark (s : LoopState) (g : Function) (x : InstId) : Event (s, g) (s.mark x, g)
  /-- An instruction is moved, whether it was marked or not. -/
  | move {s : LoopState} {g k : Function} {x : InstId} {dest : BlockId}
    (hmove : g.move x dest = .ok k) (hdest : s.loop.contains dest = false) : Event (s, g) (s, k)

/-- Events in any number and order. -/
def Events : LoopState × Function → LoopState × Function → Prop := Relation.ReflTransGen Event

/-- What holds of any later moment: the analyses are the ones made at first, values come from where
they came from, and what is out of the loop, hoisted or placed outside, stays out of it. -/
structure Grows (p q : LoopState × Function) : Prop where
  /-- The loop is the same. -/
  loop : q.1.loop = p.1.loop
  /-- The settings are the same. -/
  settings : q.1.settings = p.1.settings
  /-- The stack slots are the same. -/
  slots : q.1.slots = p.1.slots
  /-- What the loop does to memory is the same. -/
  memory : q.1.memory = p.1.memory
  /-- Values come from the same places. -/
  def? : ∀ v, q.2.def? v = p.2.def? v
  /-- The instructions are the same. -/
  content : ∀ x, q.2.inst? x = p.2.inst? x
  /-- What is out of the loop stays out of it. -/
  outside : ∀ j, p.1.isHoisted j = true ∨ p.1.isOutside p.2 j = true →
    q.1.isHoisted j = true ∨ q.1.isOutside q.2 j = true

namespace Grows

/-- A moment is as late as itself. -/
theorem refl (p : LoopState × Function) : Grows p p :=
  ⟨rfl, rfl, rfl, rfl, fun _ => rfl, fun _ => rfl, fun _ h => h⟩

/-- Later than later is later. -/
theorem trans (h : Grows p q) (h' : Grows q r) : Grows p r where
  loop := h'.loop.trans h.loop
  settings := h'.settings.trans h.settings
  slots := h'.slots.trans h.slots
  memory := h'.memory.trans h.memory
  def? v := (h'.def? v).trans (h.def? v)
  content x := (h'.content x).trans (h.content x)
  outside j hj := h'.outside j (h.outside j hj)

/-- Marking takes no mark away. -/
theorem mark (s : LoopState) (g : Function) (x : InstId) : Grows (s, g) (s.mark x, g) where
  loop := rfl
  settings := rfl
  slots := rfl
  memory := rfl
  def? _ := rfl
  content _ := rfl
  outside j hj := by
    exact hj.imp_left fun hmarked => by simp [hmarked]

/-- Moving an instruction to a block outside the loop takes nothing into the loop. -/
theorem move (hmove : g.move x dest = .ok k) (hdest : s.loop.contains dest = false) :
    Grows (s, g) (s, k) := by
  obtain ⟨src, -, -, -, -, -, rfl⟩ := Function.exists_relocate_of_move hmove
  exact
    { loop := rfl
      settings := rfl
      slots := rfl
      memory := rfl
      def? := by simp
      content := by simp
      outside := fun j hj => by
        refine hj.imp_right fun hout => ?_
        simp only [isOutside, Function.owner?_relocate] at hout ⊢
        cases hown : g.owner? j with
        | none => simp [hown] at hout
        | some b =>
          rw [hown] at hout
          by_cases hjx : j = x
          · simp only [if_pos hjx, Option.map_some, hdest, Bool.not_false]
          · simpa only [if_neg hjx] using hout }

end Grows

/-- One event makes a later moment. -/
theorem Event.grows (h : Event p q) : Grows p q := by
  cases h with
  | mark s g x => exact .mark s g x
  | move hmove hdest => exact .move hmove hdest

/-- So do any number of them. -/
theorem Events.grows (h : Events p q) : Grows p q := by
  induction h with
  | refl => exact .refl p
  | tail _ hevent ih => exact ih.trans hevent.grows

namespace Grows

variable (h : Grows p q)
include h

/-- An invariant value stays invariant. -/
theorem invariantValue (hv : p.1.invariantValue p.2 v = true) :
    q.1.invariantValue q.2 v = true := by
  unfold LoopState.invariantValue at hv ⊢
  rw [h.def?]
  cases hdef : p.2.def? v with
  | none => simp [hdef] at hv
  | some origin =>
    rw [hdef] at hv
    cases origin with
    | inst j =>
      rw [Bool.or_eq_true] at hv ⊢
      exact h.outside j hv
    | _ => exact hv

/-- Loads are as safe as before. -/
theorem loadIsSafe_eq (addr : Operand) : q.1.loadIsSafe q.2 addr = p.1.loadIsSafe p.2 addr :=
  loadIsSafe_congr h.settings (fun _ => by rw [h.slots]) (fun _ => by rw [h.slots])
    (fun _ => by rw [h.memory]) (by rw [h.memory]) h.def? addr

/-- Content that is accepted stays accepted as what it is. -/
theorem verdictOf (hv : p.1.verdictOf p.2 instr = .ok kind) :
    q.1.verdictOf q.2 instr = .ok kind := by
  have hnone : p.1.variantOperand? p.2 instr = none := (verdictOf_eq_ok hv).1
  have hnone' : q.1.variantOperand? q.2 instr = none :=
    variantOperand?_eq_none_iff.2 fun v hused =>
      h.invariantValue (variantOperand?_eq_none_iff.1 hnone v hused)
  rw [← hv]
  unfold LoopState.verdictOf
  simp only [hnone, hnone', h.settings, h.loadIsSafe_eq]

/-- An instruction that is accepted stays accepted as what it is. -/
theorem verdict (hx : p.1.verdict p.2 x = .ok (.ok kind)) :
    q.1.verdict q.2 x = .ok (.ok kind) := by
  obtain ⟨instr, hinst, hv⟩ := verdict_eq_ok_iff.1 hx
  exact verdict_eq_ok_iff.2 ⟨instr, (h.content x).trans hinst, h.verdictOf hv⟩

end Grows

/-- Whatever is marked as hoisted or moved out of the loop, and in whatever order, from any state of
a loop and any function on: a value that was invariant stays invariant, and an instruction that was
accepted stays accepted as what it was. -/
theorem invariance_grows (p q : LoopState × Function) (h : Events p q) :
    (∀ v, p.1.invariantValue p.2 v = true → q.1.invariantValue q.2 v = true) ∧
      ∀ x kind, p.1.verdict p.2 x = .ok (.ok kind) → q.1.verdict q.2 x = .ok (.ok kind) := by
  have hgrows : Grows p q := h.grows
  exact ⟨fun v hv => hgrows.invariantValue hv, fun x kind hx => hgrows.verdict hx⟩

/-- In the loop of the squares the double is accepted once the square is in the entry, although the
square was never marked; and it still is when the double is marked itself and the square goes on to
the exit. -/
theorem invariance_grows_squares :
    ∃ a l, squares.analyze = .ok a ∧ a.forest.loop? ⟨0⟩ = some l ∧
      ∃ g k, squares.move ⟨1⟩ ⟨0⟩ = .ok g ∧ g.move ⟨1⟩ ⟨2⟩ = .ok k ∧
        (start squares a.slots {} l).verdict g ⟨2⟩ = .ok (.ok .ordinary) ∧
        ((start squares a.slots {} l).mark ⟨2⟩).verdict k ⟨2⟩ = .ok (.ok .ordinary) := by
  obtain ⟨a, ha, hana⟩ := exists_analyze
    (Function.violation?_eq_none_iff.1 (Function.validate_eq_ok_iff.1 validate_squares))
  have hloop : ∃ l, (squares.analyze.toOption.bind fun a => a.forest.loop? ⟨0⟩) = some l ∧
      l.contains ⟨2⟩ = false ∧ (start squares (.ofFunction squares) {} l).verdict
        (squares.relocate ⟨1⟩ ⟨1⟩ ⟨0⟩) ⟨2⟩ = .ok (.ok .ordinary) :=
    ⟨{ header := ⟨1⟩, latches := [⟨1⟩], blocks := [⟨1⟩], exits := [⟨2⟩], preheader := some ⟨0⟩ },
      by decide +kernel, rfl, by decide +kernel⟩
  obtain ⟨l, hl, hexit, haccepted⟩ := hloop
  rw [ha] at hl
  rw [← hana.slots] at haccepted
  have hmove : (squares.relocate ⟨1⟩ ⟨1⟩ ⟨0⟩).move ⟨1⟩ ⟨2⟩ =
      .ok ((squares.relocate ⟨1⟩ ⟨1⟩ ⟨0⟩).relocate ⟨1⟩ ⟨0⟩ ⟨2⟩) := rfl
  have hevents : Events (start squares a.slots {} l, squares.relocate ⟨1⟩ ⟨1⟩ ⟨0⟩)
      ((start squares a.slots {} l).mark ⟨2⟩,
        (squares.relocate ⟨1⟩ ⟨1⟩ ⟨0⟩).relocate ⟨1⟩ ⟨0⟩ ⟨2⟩) :=
    .tail (.single (.mark _ _ ⟨2⟩)) (.move hmove hexit)
  exact ⟨a, l, ha, hl, _, _, rfl, hmove, haccepted,
    (invariance_grows _ _ hevents).2 ⟨2⟩ .ordinary haccepted⟩

end LoopState

end LoopHoist
