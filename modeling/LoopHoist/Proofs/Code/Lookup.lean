import LoopHoist.Code.Function

/-!
# Look-ups

What runs goes through a function by look-ups, which fault on a handle that names nothing. Whatever
such a computation gives is what the lists of the body say (`Function.eq_placedIn_of_placedAt`,
`Function.eq_flatMap_of_bodyAt`). It gives something wherever the handles name something: where the
blocks exist, and the instructions that they list (`Function.Resolves`).
-/

namespace LoopHoist

/-! ## Going through a list -/

section Lists

variable {ε α β : Type} {k : α → Except ε β} {l : List α} {rs : List β}

/-- A step that succeeds hands its result on to the next. -/
@[simp] theorem ok_bind (x : α) : ((Except.ok x : Except ε α) >>= k) = k x := rfl

/-- A sequence of two steps gives what the second makes of the result of the first. -/
theorem exists_of_bind_eq_ok {x : Except ε α} {r : β} (h : (x >>= k) = .ok r) :
    ∃ y, x = .ok y ∧ k y = .ok r := by
  cases x with
  | error e => cases h
  | ok y => exact ⟨y, rfl, h⟩

/-- Doing for each element of a list what always gives a result gives the list of results. -/
theorem mapM_eq_pure {μ : Type → Type} [Monad μ] [LawfulMonad μ] {k : α → μ β} {run : α → β}
    (h : ∀ x ∈ l, k x = pure (run x)) : l.mapM k = pure (l.map run) := by
  induction l with
  | nil => rw [List.mapM_nil, List.map_nil]
  | cons x l ih =>
    rw [List.mapM_cons, h x List.mem_cons_self, ih fun y hy => h y (List.mem_cons_of_mem _ hy),
      pure_bind, pure_bind, List.map_cons]

/-- Doing for each element of a list what succeeds succeeds, with the results in order. -/
theorem mapM_eq_ok {run : α → β} (h : ∀ x ∈ l, k x = .ok (run x)) :
    l.mapM k = .ok (l.map run) := mapM_eq_pure h

/-- Going through a list succeeds if it does for each element. -/
theorem exists_mapM_eq_ok (h : ∀ x ∈ l, ∃ r, k x = .ok r) : ∃ rs, l.mapM k = .ok rs := by
  induction l with
  | nil => exact ⟨[], rfl⟩
  | cons x l ih =>
    obtain ⟨r, hr⟩ := h x List.mem_cons_self
    obtain ⟨rs, hrs⟩ := ih fun y hy => h y (List.mem_cons_of_mem _ hy)
    exact ⟨r :: rs, by rw [List.mapM_cons, hr, ok_bind, hrs]; rfl⟩

/-- Where each result is the only value of a partial function, the results are its values. -/
theorem eq_filterMap_of_mapM_eq_ok {value : α → Option β}
    (hk : ∀ x r, k x = .ok r → value x = some r) (h : l.mapM k = .ok rs) :
    rs = l.filterMap value := by
  induction l generalizing rs with
  | nil => exact (Except.ok.inj h).symm
  | cons x l ih =>
    rw [List.mapM_cons] at h
    obtain ⟨r, hr, h⟩ := exists_of_bind_eq_ok h
    obtain ⟨rs', hrs, h⟩ := exists_of_bind_eq_ok h
    obtain rfl := Except.ok.inj h
    rw [List.filterMap_cons, hk x r hr, ih hrs]

/-- Keeping what a test accepts that always has an answer is filtering. -/
theorem filterM_eq_ok {k : α → Except ε Bool} {test : α → Bool}
    (h : ∀ x ∈ l, k x = .ok (test x)) : l.filterM k = .ok (l.filter test) := by
  have haux : ∀ acc, List.filterAuxM k l acc = .ok ((l.filter test).reverse ++ acc) := by
    induction l with
    | nil => exact fun acc => rfl
    | cons x l ih =>
      intro acc
      have hrest := ih (fun y hy => h y (List.mem_cons_of_mem _ hy))
      rw [List.filterAuxM, h x List.mem_cons_self, ok_bind, hrest]
      cases hx : test x <;> simp [hx]
  rw [List.filterM, haux, ok_bind, List.append_nil, List.reverse_reverse]
  rfl

end Lists

namespace Function

variable {f : Function} {b : BlockId} {bs : List BlockId} {i : InstId} {instr : Instruction}
  {block : Block} {ps : List (InstId × Instruction)}

/-! ## What is found -/

/-- A block that is found has the handle. -/
theorem block?_of_blockAt (h : f.blockAt b = .ok block) : f.block? b = some block := by
  unfold blockAt at h
  split at h
  · next hblock => exact hblock.trans (congrArg some (Except.ok.inj h))
  · cases h

/-- An instruction that is found has the handle. -/
theorem inst?_of_instAt (h : f.instAt i = .ok instr) : f.inst? i = some instr := by
  unfold instAt at h
  split at h
  · next hinst => exact hinst.trans (congrArg some (Except.ok.inj h))
  · cases h

/-- A block that is found lists what the function says it does. -/
theorem instsOf_of_blockAt (h : f.blockAt b = .ok block) : f.instsOf b = block.insts := by
  rw [instsOf, block?_of_blockAt h]

/-- What is found in a block are its instructions. -/
theorem eq_placedIn_of_placedAt (h : f.placedAt b = .ok ps) : ps = f.placedIn b := by
  obtain ⟨block, hblock, h⟩ := exists_of_bind_eq_ok h
  rw [placedIn, instsOf_of_blockAt hblock]
  refine eq_filterMap_of_mapM_eq_ok (fun i p hp => ?_) h
  obtain ⟨instr, hinstr, hp⟩ := exists_of_bind_eq_ok hp
  rw [inst?_of_instAt hinstr, Option.map_some, Except.ok.inj hp]

/-- What is found in several blocks are their instructions, block by block. -/
theorem eq_flatMap_of_bodyAt (h : f.bodyAt bs = .ok ps) : ps = bs.flatMap f.placedIn := by
  obtain ⟨pss, hpss, h⟩ := exists_of_bind_eq_ok h
  have hmap : pss = bs.filterMap fun b => some (f.placedIn b) :=
    eq_filterMap_of_mapM_eq_ok (fun b ps hps => by rw [eq_placedIn_of_placedAt hps]) hpss
  rw [← Except.ok.inj h, hmap, List.filterMap_eq_map', List.flatMap_def]

/-- A terminator that is found is that of the block. -/
theorem eq_terminator?_of_terminatorAt {t : Option Instruction} (h : f.terminatorAt b = .ok t) :
    t = f.terminator? b := by
  obtain ⟨block, hblock, h⟩ := exists_of_bind_eq_ok h
  unfold terminator?
  rw [block?_of_blockAt hblock, Option.bind_some]
  cases hlast : block.last? with
  | none =>
    rw [hlast] at h
    exact (Except.ok.inj h).symm
  | some i =>
    rw [hlast] at h
    obtain ⟨instr, hinstr, h⟩ := exists_of_bind_eq_ok h
    simp only [inst?_of_instAt hinstr, Except.ok.inj h]

/-! ## When it is found -/

/-- Whether a block exists, and every instruction that it lists. -/
structure Resolves (f : Function) (b : BlockId) : Prop where
  /-- The block exists. -/
  block : f.hasBlock b = true
  /-- The instructions exist. -/
  insts : ∀ i ∈ f.instsOf b, ∃ instr, f.inst? i = some instr

namespace Resolves

variable (h : f.Resolves b)
include h

/-- The block is found. -/
theorem exists_blockAt : ∃ block, f.blockAt b = .ok block := by
  have hblock : f.block? b = some _ := Array.getElem?_eq_getElem (of_decide_eq_true h.block)
  exact ⟨_, by rw [blockAt, hblock]⟩

/-- The instructions are found. -/
theorem exists_instAt (hi : i ∈ f.instsOf b) : ∃ instr, f.instAt i = .ok instr := by
  obtain ⟨instr, hinstr⟩ := h.insts i hi
  exact ⟨instr, by rw [instAt, hinstr]⟩

/-- The body of the block is found. -/
theorem placedAt : f.placedAt b = .ok (f.placedIn b) := by
  obtain ⟨block, hblock⟩ := h.exists_blockAt
  obtain ⟨ps, hps⟩ := exists_mapM_eq_ok (l := block.insts)
    (k := fun i => return (i, ← f.instAt i)) fun i hi => by
      obtain ⟨instr, hinstr⟩ := h.exists_instAt (instsOf_of_blockAt hblock ▸ hi)
      exact ⟨(i, instr), by rw [hinstr]; rfl⟩
  have hfound : f.placedAt b = .ok ps := by rw [Function.placedAt, hblock, ok_bind, hps]
  rw [hfound, eq_placedIn_of_placedAt hfound]

/-- The terminator of the block is found, or that there is none. -/
theorem terminatorAt : f.terminatorAt b = .ok (f.terminator? b) := by
  obtain ⟨block, hblock⟩ := h.exists_blockAt
  have hfound : ∃ t, f.terminatorAt b = .ok t := by
    rw [Function.terminatorAt, hblock, ok_bind]
    cases hlast : block.last? with
    | none => exact ⟨_, rfl⟩
    | some i =>
      obtain ⟨instr, hinstr⟩ := h.exists_instAt
        (instsOf_of_blockAt hblock ▸ List.mem_of_getLast? hlast)
      exact ⟨_, by simp only [hinstr, ok_bind]; rfl⟩
  obtain ⟨t, ht⟩ := hfound
  rw [ht, eq_terminator?_of_terminatorAt ht]

/-- The successors of the block are found. -/
theorem successorsAt : f.successorsAt b = .ok (f.successors b) := by
  rw [Function.successorsAt, h.terminatorAt, ok_bind, successors]
  cases f.terminator? b <;> rfl

end Resolves

/-- The bodies of several blocks are found. -/
theorem bodyAt_eq_ok (h : ∀ b ∈ bs, f.Resolves b) : f.bodyAt bs = .ok (bs.flatMap f.placedIn) := by
  rw [bodyAt, mapM_eq_ok fun b hb => (h b hb).placedAt, ok_bind, List.flatMap_def]
  rfl

end Function

end LoopHoist
