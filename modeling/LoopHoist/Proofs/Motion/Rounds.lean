import LoopHoist.Proofs.Code.Renumbering
import LoopHoist.Proofs.Motion.Turns

/-!
# What a loop gives up

In its turn a loop tries its candidates on a function that changes under it. The changes do not
matter to the verdicts: what was moved out is marked, and what is marked counts as outside wherever
it is. So the candidates that will be accepted can be read off the function as it is when the turn
begins (`harvest`), and the turn lifts them to the preheader one by one and counts them
(`exists_turn_eq`). A verdict depends on few things, and where two states agree in them the harvests
are the same (`LoopState.Alike`).
-/

namespace LoopHoist

variable {f g k : Function} {a : Analysis} {settings : Settings} {l : Loop} {n : LoopId}
  {p b c src : BlockId} {x j : InstId} {xs : List InstId} {instr : Instruction} {kind : HoistKind}

/-! ## Lifting -/

namespace Function

/-- The function with an instruction put directly before the last one of a block. -/
def lift (f : Function) (p : BlockId) (x : InstId) : Function :=
  match f.owner? x with
  | some src => f.relocate x src p
  | none => f

/-- The function with instructions put directly before the last one of a block, one by one. -/
def liftAll (f : Function) (p : BlockId) (xs : List InstId) : Function :=
  xs.foldl (fun g x => g.lift p x) f

/-- Lifting changes no instruction, no origin of a value and no number of blocks. -/
theorem lift_same (f : Function) (p : BlockId) (x : InstId) :
    (∀ i, (f.lift p x).inst? i = f.inst? i) ∧ (∀ v, (f.lift p x).def? v = f.def? v) ∧
      ∀ b, (f.lift p x).hasBlock b = f.hasBlock b := by
  unfold lift
  cases f.owner? x with
  | none => exact ⟨fun _ => rfl, fun _ => rfl, fun _ => rfl⟩
  | some src =>
    simp

/-- Lifting gives the lifted instruction another owner, and no other one. -/
theorem owner?_lift (f : Function) (p : BlockId) (x j : InstId) :
    (f.lift p x).owner? j = if j = x then (f.owner? j).map fun _ => p else f.owner? j := by
  cases hx : f.owner? x with
  | none =>
    have hlift : f.lift p x = f := by
      unfold lift
      rw [hx]
    rw [hlift]
    split
    · next hj => rw [hj, hx, Option.map_none]
    · rfl
  | some src =>
    have hlift : f.lift p x = f.relocate x src p := by
      unfold lift
      rw [hx]
    simp [hlift]

/-- A block that does not hold the lifted instruction, and is not the one that it goes to, lists
what it listed. -/
theorem instsOf_lift_of_ne (hp : f.hasBlock p = true) (hb : b ≠ p) (hx : f.owner? x ≠ some b) :
    (f.lift p x).instsOf b = f.instsOf b := by
  unfold lift
  cases hsrc : f.owner? x with
  | none => rfl
  | some src =>
    have hbs : b ≠ src := fun heq => hx (by rw [hsrc, heq])
    show (f.relocate x src p).instsOf b = f.instsOf b
    simp [hp, hb, hbs, instsWithout]

/-- Nor does lifting several instructions. -/
theorem liftAll_same (f : Function) (p : BlockId) (xs : List InstId) :
    (∀ i, (f.liftAll p xs).inst? i = f.inst? i) ∧ (∀ v, (f.liftAll p xs).def? v = f.def? v) ∧
      ∀ b, (f.liftAll p xs).hasBlock b = f.hasBlock b := by
  induction xs generalizing f with
  | nil => exact ⟨fun _ => rfl, fun _ => rfl, fun _ => rfl⟩
  | cons x xs ih =>
    obtain ⟨hinst, hdef, hhas⟩ := ih (f.lift p x)
    obtain ⟨hinst', hdef', hhas'⟩ := f.lift_same p x
    exact ⟨fun i => (hinst i).trans (hinst' i), fun v => (hdef v).trans (hdef' v),
      fun b => (hhas b).trans (hhas' b)⟩

/-- Lifting several instructions gives these another owner, and no other one. -/
theorem owner?_liftAll (f : Function) (p : BlockId) (xs : List InstId) (j : InstId) :
    (f.liftAll p xs).owner? j = if j ∈ xs then (f.owner? j).map fun _ => p else f.owner? j := by
  induction xs generalizing f with
  | nil => rfl
  | cons x xs ih =>
    show ((f.lift p x).liftAll p xs).owner? j = _
    rw [ih, owner?_lift]
    by_cases hx : j = x
    · have hmem : j ∈ x :: xs := hx ▸ List.mem_cons_self
      rw [if_pos hx, if_pos hmem, Option.map_map]
      split <;> rfl
    · simp only [List.mem_cons, hx, false_or, if_false]

/-- A block that holds none of the lifted instructions, and is not the one that they go to, lists
what it listed. -/
theorem instsOf_liftAll_of_ne (hp : f.hasBlock p = true) (hb : b ≠ p)
    (hxs : ∀ x ∈ xs, f.owner? x ≠ some b) : (f.liftAll p xs).instsOf b = f.instsOf b := by
  induction xs generalizing f with
  | nil => rfl
  | cons x xs ih =>
    have hrest : ∀ y ∈ xs, (f.lift p x).owner? y ≠ some b := fun y hy => by
      rw [owner?_lift]
      split
      · cases f.owner? y with
        | none => exact fun heq => by cases heq
        | some c => exact fun heq => hb (Option.some.inj heq).symm
      · exact hxs y (List.mem_cons_of_mem _ hy)
    show ((f.lift p x).liftAll p xs).instsOf b = f.instsOf b
    rw [ih ((f.lift_same p x).2.2 p ▸ hp) hrest]
    exact instsOf_lift_of_ne hp hb (hxs x List.mem_cons_self)

end Function

/-! ## Judging alike -/

/-- The class of the instructions that are hoisted as a kind. -/
def HoistKind.category : HoistKind → Category
  | ordinary => .ordinary
  | load => .load

/-- The class tells the kinds apart. -/
theorem HoistKind.category_inj {kind kind' : HoistKind} (h : kind.category = kind'.category) :
    kind = kind' := by
  cases kind <;> cases kind' <;> first | rfl | cases h

namespace LoopState

variable {s u : LoopState}

/-- An instruction is hoisted as what it is. -/
theorem category_of_verdictOf (hv : s.verdictOf g instr = .ok kind) :
    instr.category = kind.category := by
  rcases (verdictOf_eq_ok hv).2 with ⟨hcat, rfl⟩ | ⟨hcat, rfl⟩
  · exact hcat
  · exact hcat

/-- No verdict asks which blocks an instruction names. -/
theorem verdictOf_mapBlocks (s : LoopState) (g : Function) (σ : BlockId → BlockId)
    (instr : Instruction) : s.verdictOf g (instr.mapBlocks σ) = s.verdictOf g instr := by
  cases instr <;> rfl

/-- Whether two states of a loop judge alike, `s` in the function `g` and `u` in `k`: they agree in
all that a verdict asks for. -/
structure Alike (s : LoopState) (g : Function) (u : LoopState) (k : Function) : Prop where
  /-- The settings are the same. -/
  settings : u.settings = s.settings
  /-- The same values hold addresses of slots. -/
  isSlot : ∀ v, u.slots.isSlot v = s.slots.isSlot v
  /-- The same slots are private. -/
  isPrivate : ∀ v, u.slots.isPrivate v = s.slots.isPrivate v
  /-- The loop stores to the same objects. -/
  stores : ∀ t, t ∈ u.memory.stores ↔ t ∈ s.memory.stores
  /-- The loop calls or does not. -/
  hasCall : u.memory.hasCall = s.memory.hasCall
  /-- Values come from the same places. -/
  def? : ∀ v, k.def? v = g.def? v
  /-- The instructions are the same but for the blocks that they name. -/
  content : ∀ x, ∃ σ, k.inst? x = (g.inst? x).map (·.mapBlocks σ)
  /-- The same instructions are out of the loop, hoisted or outside from the start. -/
  outside : ∀ j, (u.isHoisted j || u.isOutside k j) = (s.isHoisted j || s.isOutside g j)

namespace Alike

variable (h : s.Alike g u k)
include h

/-- The same loads are safe. -/
theorem loadIsSafe_eq (addr : Operand) : u.loadIsSafe k addr = s.loadIsSafe g addr :=
  loadIsSafe_congr h.settings h.isSlot h.isPrivate h.stores h.hasCall h.def? addr

/-- The same values are invariant. -/
theorem invariantValue_eq (v : ValueId) : u.invariantValue k v = s.invariantValue g v := by
  unfold invariantValue
  rw [h.def?]
  split
  · rfl
  · rfl
  · exact h.outside _
  · rfl
  · rfl

/-- The verdicts are the same. -/
theorem verdict_eq (x : InstId) : u.verdict k x = s.verdict g x := by
  have hvariant : ∀ instr, u.variantOperand? k instr = s.variantOperand? g instr := fun instr => by
    unfold variantOperand?
    simp only [h.invariantValue_eq]
  have hof : ∀ instr, u.verdictOf k instr = s.verdictOf g instr := fun instr => by
    unfold verdictOf
    simp only [h.settings, hvariant, h.loadIsSafe_eq]
  obtain ⟨σ, hinst⟩ := h.content x
  unfold verdict Function.instAt
  rw [hinst]
  cases g.inst? x with
  | none => rfl
  | some instr =>
    show Except.ok (u.verdictOf k (instr.mapBlocks σ)) = Except.ok (s.verdictOf g instr)
    rw [verdictOf_mapBlocks, hof]

/-- Marking an instruction in both keeps them alike. -/
theorem mark (x : InstId) : (s.mark x).Alike g (u.mark x) k where
  settings := h.settings
  isSlot := h.isSlot
  isPrivate := h.isPrivate
  stores := h.stores
  hasCall := h.hasCall
  def? := h.def?
  content := h.content
  outside j := by
    have hout := h.outside j
    show ((u.mark x).isHoisted j || u.isOutside k j) = ((s.mark x).isHoisted j || s.isOutside g j)
    rw [isHoisted_mark, isHoisted_mark, Bool.or_assoc, Bool.or_assoc, hout]

end Alike

/-! ## The harvest -/

/-- The candidates of a list that are accepted, when each is judged in the same function and those
accepted are marked. -/
def accept (s : LoopState) (g : Function) : List InstId → List (InstId × HoistKind)
  | [] => []
  | x :: xs =>
    match s.verdict g x with
    | .ok (.ok kind) => (x, kind) :: (s.mark x).accept g xs
    | _ => s.accept g xs

/-- States that judge alike accept the same candidates. -/
theorem Alike.accept_eq (h : s.Alike g u k) (xs : List InstId) : u.accept k xs = s.accept g xs := by
  induction xs generalizing s u with
  | nil => rfl
  | cons x xs ih =>
    unfold accept
    rw [h.verdict_eq]
    split
    · exact congrArg _ (ih (h.mark x))
    · exact ih h

/-- What is accepted are candidates, in their order. -/
theorem accept_sublist (s : LoopState) (g : Function) (xs : List InstId) :
    ((s.accept g xs).map (·.1)).Sublist xs := by
  induction xs generalizing s with
  | nil => exact List.Sublist.refl []
  | cons x xs ih =>
    unfold accept
    split
    · exact (ih (s.mark x)).cons_cons x
    · exact (ih s).cons x

/-- What is accepted is accepted as what it is. -/
theorem category_of_mem_accept {q : InstId × HoistKind} (hq : q ∈ s.accept g xs) :
    ∃ instr, g.inst? q.1 = some instr ∧ instr.category = q.2.category := by
  induction xs generalizing s with
  | nil => cases hq
  | cons x xs ih =>
    unfold accept at hq
    split at hq
    · next kind hv =>
      rcases List.mem_cons.1 hq with rfl | hq
      · obtain ⟨instr, hinst, hv⟩ := verdict_eq_ok_iff.1 hv
        exact ⟨instr, hinst, category_of_verdictOf hv⟩
      · exact ih hq
    · exact ih hq

end LoopState

/-- What a loop gives up when its turn comes in a function: the candidates that are accepted, in
order, and nothing if the loop has no preheader. -/
def harvest (a : Analysis) (settings : Settings) (g : Function) (l : Loop) :
    List (InstId × HoistKind) :=
  match l.preheader with
  | none => []
  | some _ =>
    (LoopState.start g a.slots settings l).accept g (Hoisting.candidates g a.dominators.order l)

/-- The function after the turn of a loop. -/
def Function.afterTurn (g : Function) (a : Analysis) (settings : Settings) (l : Loop) : Function :=
  match l.preheader with
  | none => g
  | some p => g.liftAll p ((harvest a settings g l).map (·.1))

/-- What the turn of a loop adds to the counters. -/
def Counters.gained (a : Analysis) (settings : Settings) (g : Function) (l : Loop) : Counters :=
  .ofTurn (.ofLoop g a.slots l) l + ((harvest a settings g l).map fun q => ofHoist q.2).sum

/-- The relocation of an instruction out of a loop to its preheader. -/
def Loop.relocation (l : Loop) (n : LoopId) (q : InstId × HoistKind) : Relocation :=
  { inst := q.1, kind := q.2, loop := n, preheader := l.preheader.getD default }

/-- What is harvested are candidates, in their order. -/
theorem harvest_sublist (a : Analysis) (settings : Settings) (g : Function) (l : Loop) :
    ((harvest a settings g l).map (·.1)).Sublist (Hoisting.candidates g a.dominators.order l) := by
  unfold harvest
  split
  · exact List.nil_sublist _
  · exact LoopState.accept_sublist _ g _

/-- What is harvested is taken as what it is. -/
theorem category_of_mem_harvest {q : InstId × HoistKind} (hq : q ∈ harvest a settings g l) :
    ∃ instr, g.inst? q.1 = some instr ∧ instr.category = q.2.category := by
  unfold harvest at hq
  split at hq
  · cases hq
  · exact LoopState.category_of_mem_accept hq

/-! ## The turn -/

/-- What the turn of a loop makes of what the turns before it have left: it lifts the harvest to the
preheader, counts it with the loop, and notes it. -/
structure TurnEq (a : Analysis) (settings : Settings) (n : LoopId) (l : Loop) (h h' : Hoisting) :
    Prop where
  /-- The harvest is lifted. -/
  function : h'.function = h.function.afterTurn a settings l
  /-- The loop and the harvest are counted. -/
  counters : h'.counters = h.counters + .gained a settings h.function l
  /-- The harvest is noted. -/
  moves : h'.moves =
    ((harvest a settings h.function l).map (l.relocation n)).reverse ++ h.moves

/-- Moving an instruction that is marked keeps a state alike: it counts as outside already. -/
theorem LoopState.Alike.relocate {s : LoopState} (h : s.Alike g s k) (x : InstId)
    (src p : BlockId) : (s.mark x).Alike g (s.mark x) (k.relocate x src p) where
  settings := rfl
  isSlot _ := rfl
  isPrivate _ := rfl
  stores _ := Iff.rfl
  hasCall := rfl
  def? := h.def?
  content y := by simpa using h.content y
  outside j := by
    by_cases hj : j = x
    · simp [hj]
    · rw [← (h.mark x).outside j]
      simp [isOutside, hj]

/-- Candidates that are tried one by one give up what is accepted when all are judged in the
function of the start. -/
theorem exists_foldlM_tryHoist {h : Hoisting} (ha : Analyzed f a) (hl : a.forest.loop? n = some l)
    (hp : l.preheader = some p) {s : LoopState} (hs : s.loop = l) (hg : f.Rearranged h.function)
    (halike : s.Alike g s h.function) (hnd : xs.Nodup)
    (hin : ∀ x ∈ xs, ∃ c, h.function.owner? x = some c ∧ l.contains c = true) :
    ∃ h' s', xs.foldlM (Hoisting.tryHoist n p) (h, s) = .ok (h', s') ∧
      h'.function = h.function.liftAll p ((s.accept g xs).map (·.1)) ∧
      h'.counters = h.counters + ((s.accept g xs).map fun q => Counters.ofHoist q.2).sum ∧
      h'.moves = ((s.accept g xs).map (l.relocation n)).reverse ++ h.moves ∧
      f.Rearranged h'.function := by
  induction xs generalizing h s with
  | nil => exact ⟨h, s, rfl, rfl, (add_zero _).symm, rfl, hg⟩
  | cons x xs ih =>
    obtain ⟨hx, hnd⟩ := List.nodup_cons.1 hnd
    obtain ⟨src, hsrc, hsin⟩ := hin x List.mem_cons_self
    obtain ⟨instr, hinst⟩ := hg.wellFormed.exists_inst? ((hg.coherent.mem_iff x src).2 hsrc)
    have hverdict : s.verdict h.function x = .ok (s.verdictOf h.function instr) :=
      LoopState.verdict_eq_ok_iff.2 ⟨instr, hinst, rfl⟩
    rw [List.foldlM_cons]
    unfold LoopState.accept
    rw [← halike.verdict_eq x, hverdict]
    cases hv : s.verdictOf h.function instr with
    | error reason =>
      have hstay : Hoisting.tryHoist n p (h, s) x = .ok (h, s) := by
        simp only [Hoisting.tryHoist, hverdict, hv]
      rw [hstay]
      exact ih hs hg halike hnd fun y hy => hin y (List.mem_cons_of_mem _ hy)
    | ok kind =>
      -- The instruction is movable, so the move is a relocation to the preheader.
      have hmov : instr.category.movable = true := by
        rw [LoopState.category_of_verdictOf hv]
        cases kind <;> rfl
      have hterm := (exists_def_of_movable hmov).1
      have hdest : h.function.hasBlock p = true := by
        rw [hg.hasBlock]
        exact ha.hasBlock_preheader hl hp
      have hout := ha.not_contains_preheader hl hp
      have hne : src ≠ p := fun heq => by
        rw [← heq, hsin] at hout
        cases hout
      obtain ⟨_, _, _, _, hrel⟩ := Function.exists_relocates hg.coherent hg.wellFormed hsrc hinst
        hterm hne hdest
      let h₁ : Hoisting :=
        { function := h.function.relocate x src p
          counters := h.counters + .ofHoist kind
          moves := { inst := x, kind, loop := n, preheader := p } :: h.moves }
      have hmove : Hoisting.tryHoist n p (h, s) x = .ok (h₁, s.mark x) := by
        simp only [Hoisting.tryHoist, hverdict, hv, Function.move_eq_ok hg.coherent hg.wellFormed
          hsrc hinst hterm hdest, h₁]
      have hin₁ : ∀ y ∈ xs, ∃ c, h₁.function.owner? y = some c ∧ l.contains c = true := by
        intro y hy
        obtain ⟨c, hyc, hc⟩ := hin y (List.mem_cons_of_mem _ hy)
        have hyx : y ≠ x := by
          rintro rfl
          exact hx hy
        exact ⟨c, by simpa [h₁, hyx] using hyc, hc⟩
      obtain ⟨h', s', heq, hfun, hcount, hmoves, hg'⟩ := ih (h := h₁) (s := s.mark x) hs
        (hg.trans (hrel.rearranged hg.coherent hg.wellFormed hinst hmov))
        (halike.relocate x src p) hnd hin₁
      rw [hmove]
      refine ⟨h', s', heq, ?_, ?_, ?_, hg'⟩
      · have hlift : h.function.lift p x = h₁.function := by
          unfold Function.lift
          rw [hsrc]
        show h'.function = (h.function.lift p x).liftAll p _
        rw [hlift]
        exact hfun
      · show h'.counters = h.counters +
          (((x, kind) :: (s.mark x).accept g xs).map fun q => Counters.ofHoist q.2).sum
        rw [hcount, List.map_cons, List.sum_cons, ← add_assoc]
      · have hhead : l.relocation n (x, kind) =
            { inst := x, kind, loop := n, preheader := p } := by
          unfold Loop.relocation
          rw [hp, Option.getD_some]
        rw [hmoves, List.map_cons, List.reverse_cons, hhead, List.append_assoc]
        rfl

/-- A turn of a loop in a rearrangement does not fail, and does what it should. -/
theorem exists_turn_eq {h : Hoisting} (settings : Settings) (ha : Analyzed f a)
    (hl : a.forest.loop? n = some l) (hg : f.Rearranged h.function) :
    ∃ h', Hoisting.processLoop a settings h n = .ok h' ∧
      TurnEq a settings n l h h' ∧ f.Rearranged h'.function := by
  cases hp : l.preheader with
  | none =>
    let h' : Hoisting := { h with
      counters := h.counters + .ofLoop (.ofLoop h.function a.slots l) + { noPreheader := 1 } }
    refine ⟨h', processLoop_of_noPreheader ha hl hg hp, ⟨?_, ?_, ?_⟩, hg⟩
    · simp only [Function.afterTurn, hp, h']
    · simp only [Counters.gained, harvest, Counters.ofTurn, hp, List.map_nil, List.sum_nil,
        add_zero, Option.isNone_none, if_true, add_assoc, h']
    · simp only [harvest, hp, List.map_nil, List.reverse_nil, List.nil_append, h']
  | some p =>
    -- The worklist is of the function at the start of the turn, which is what the round walks.
    let state := LoopState.start h.function a.slots settings l
    obtain ⟨h', s', heq, hfun, hcount, hmoves, hg'⟩ := exists_foldlM_tryHoist
      (h := { h with counters := h.counters + .ofLoop state.memory }) (g := h.function) (s := state)
      ha hl hp rfl hg ⟨rfl, fun _ => rfl, fun _ => rfl, fun _ => Iff.rfl, rfl, fun _ => rfl,
        fun x => ⟨fun b => b, by simp only [Instruction.mapBlocks_id, Option.map_id']⟩,
        fun _ => rfl⟩
      (candidates_nodup (l := l) ha hg) fun x hx => (mem_candidates ha hl hg).1 hx
    refine ⟨h', ?_, ⟨?_, ?_, ?_⟩, hg'⟩
    · rw [processLoop_of_preheader ha hl hg hp]
      exact congrArg (Except.map (·.1)) heq
    · simp only [Function.afterTurn, harvest, hp]
      exact hfun
    · simp only [Counters.gained, harvest, Counters.ofTurn, hp, Option.isNone_some,
        Bool.false_eq_true, if_false, add_zero, ← add_assoc]
      exact hcount
    · simp only [harvest, hp]
      exact hmoves

end LoopHoist
