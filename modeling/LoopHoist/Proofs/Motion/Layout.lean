import LoopHoist.Proofs.Motion.Ascent

/-!
# What a run leaves as it is

A run changes the places of instructions and nothing else (`Function.SameParts`), and the places in
one pattern: each block keeps some of its instructions in their order, behind them come those that
were lifted into it, and its terminator stays last (`Layout`). One relocation filters the moved
instruction out of its block and puts it behind what was lifted into the preheader before, so it
keeps the pattern (`Layout.filter`, `Layout.lift`), and a run does by induction
(`Trace.exists_layout`).

A block is the preheader of one loop at most, so all that was lifted into it came out of that loop.
An instruction with an effect is never accepted and stays where it is (`Trace.not_moved_of_pinned`).
-/

namespace LoopHoist

/-- Whether an instruction must never move: it has an effect on memory or control, makes a slot, is
tied to its block as a phi is, may trap as a division does whose divisor is not known to be safe, or
is marked volatile. -/
def Instruction.isPinned : Instruction → Bool
  | compute _ (.int op _ _ rhs) => op.canTrap && !op.safeDivisor rhs
  | compute .. => false
  | load _ _ _ access => access.isVolatile
  | alloca .. | phi .. | store .. | call .. | jump _ | branch .. | ret _ | unreachable => true

/-- What may leave a loop is not pinned. -/
theorem Hoistable.not_pinned {f : Function} {slots : StackSlots} {settings : Settings} {l : Loop}
    {instr : Instruction} (h : Hoistable f slots settings l instr) : instr.isPinned = false := by
  rcases h with hord | ⟨dst, ty, addr, access, rfl, -, hvol, -⟩
  · cases instr with
    | compute dst c =>
      simp only [Instruction.category] at hord
      cases c <;> simp_all [Instruction.isPinned, Computation.isTotal]
    | _ => cases hord
  · exact hvol

namespace Function

variable {f g k : Function} {b dest src : BlockId} {i t u : InstId} {us xs ys zs : List InstId}

/-! ## All but the places -/

/-- Whether two functions are one but for the places of their instructions. -/
structure SameParts (f g : Function) : Prop where
  /-- The name stays. -/
  name : g.name = f.name
  /-- The parameters stay. -/
  params : g.params = f.params
  /-- The type of the result stays. -/
  ret : g.ret = f.ret
  /-- The entry stays. -/
  entry : g.entry = f.entry
  /-- Every value comes from where it came from. -/
  values : g.values = f.values
  /-- The values that stand for globals stay. -/
  globals : g.globals = f.globals
  /-- The blocks stay, with their labels. -/
  labels : g.blocks.map (·.label) = f.blocks.map (·.label)
  /-- The instructions stay, with their contents. -/
  contents : g.insts.map (·.instr) = f.insts.map (·.instr)

/-- A function has all its parts. -/
theorem SameParts.refl (f : Function) : f.SameParts f := by
  constructor <;> rfl

/-- What a second change leaves as it is after a first one, both leave as it is. -/
theorem SameParts.trans (h : f.SameParts g) (h' : g.SameParts k) : f.SameParts k where
  name := h'.name.trans h.name
  params := h'.params.trans h.params
  ret := h'.ret.trans h.ret
  entry := h'.entry.trans h.entry
  values := h'.values.trans h.values
  globals := h'.globals.trans h.globals
  labels := h'.labels.trans h.labels
  contents := h'.contents.trans h.contents

/-- Changing an entry of an array does not show in what is read off the entries if it does not show
there. -/
theorem map_modify_of_eq {α β : Type} {read : α → β} {change : α → α}
    (h : ∀ x, read (change x) = read x) (xs : Array α) (n : Nat) :
    (xs.modify n change).map read = xs.map read := by
  apply Array.ext_getElem?
  intro m
  rw [Array.getElem?_map, Array.getElem?_map, Array.getElem?_modify]
  split
  · rw [Option.map_map]
    exact congrArg (Option.map · xs[m]?) (funext h)
  · rfl

/-- A relocation changes places only. -/
theorem sameParts_relocate (f : Function) (i : InstId) (src dest : BlockId) :
    f.SameParts (f.relocate i src dest) where
  name := rfl
  params := rfl
  ret := rfl
  entry := rfl
  values := rfl
  globals := rfl
  labels := by
    show ((f.blocks.modify src.index (·.erase i)).modify dest.index (·.insertBeforeLast i)).map
      (·.label) = _
    rw [map_modify_of_eq, map_modify_of_eq] <;> exact fun _ => rfl
  contents := by
    show (f.insts.modify i.index fun n => { n with owner := dest }).map (·.instr) = _
    rw [map_modify_of_eq]
    exact fun _ => rfl

/-! ## One relocation -/

/-- A relocation filters the instruction out of every block but the destination. -/
theorem Relocates.instsOf_eq_filter (h : f.Relocates g i src dest xs ys zs t) (hc : f.Coherent)
    (hb : b ≠ dest) : g.instsOf b = (f.instsOf b).filter (· != i) := by
  by_cases hs : b = src
  · subst hs
    have hnd := hc.nodup b
    rw [h.source] at hnd ⊢
    rw [h.source_after, ← hnd.erase_eq_filter, List.erase_append_right, List.erase_cons_head]
    intro hi
    exact (List.nodup_append.1 hnd).2.2 i hi i List.mem_cons_self rfl
  · rw [h.other b hs hb, eq_comm, List.filter_eq_self]
    intro j hj
    rw [bne_iff_ne]
    rintro rfl
    exact hs (h.eq_source_of_mem hc hj)

end Function

/-! ## The pattern of a block -/

section Layout

variable {f g : Function} {a : Analysis} {settings : Settings} {rs : List Relocation}
  {b dest src : BlockId} {i t u : InstId} {us ws xs ys zs kept lifted : List InstId}

/-- What a run makes of a block that listed `us` and last `u`: some of `us` in their order, then
instructions that relocations of the run lifted into the block, then `u`. -/
structure Layout (f : Function) (a : Analysis) (rs : List Relocation) (b : BlockId)
    (us : List InstId) (u : InstId) (after kept lifted : List InstId) : Prop where
  /-- The block lists what was kept, what was lifted into it, and its terminator. -/
  eq : after = kept ++ lifted ++ [u]
  /-- What was kept is in its old order. -/
  kept : kept.Sublist us
  /-- What was lifted into the block came out of loops whose preheader the block is. -/
  lifted : ∀ i ∈ lifted, ∃ r ∈ rs, ∃ l c, f.owner? i = some c ∧ Lifts a r l i c b

/-- Filtering one of the other instructions out of a block keeps its pattern. -/
theorem Layout.filter (h : Layout f a rs b us u ws kept lifted) (hu : u ≠ i) :
    Layout f a rs b us u (ws.filter (· != i)) (kept.filter (· != i)) (lifted.filter (· != i)) where
  eq := by
    have hlast : [u].filter (· != i) = [u] := by simp [hu]
    rw [h.eq, List.filter_append, List.filter_append, hlast]
  kept := List.filter_sublist.trans h.kept
  lifted j hj := h.lifted j (List.mem_filter.1 hj).1

/-- Putting a lifted instruction in front of the last one keeps the pattern of a block. -/
theorem Layout.lift {r : Relocation} {l : Loop} {c : BlockId}
    (h : Layout f a rs b us u (zs ++ [t]) kept lifted) (hr : r ∈ rs) (hi : f.owner? i = some c)
    (hlift : Lifts a r l i c b) :
    Layout f a rs b us u (zs ++ [i, t]) kept (lifted ++ [i]) where
  eq := by
    obtain ⟨hzs, ht⟩ := List.append_inj' h.eq rfl
    calc zs ++ [i, t] = zs ++ [i] ++ [t] := by rw [List.append_assoc]; rfl
      _ = kept ++ lifted ++ [i] ++ [u] := by rw [hzs, ht]
      _ = kept ++ (lifted ++ [i]) ++ [u] := by rw [List.append_assoc kept]
  kept := h.kept
  lifted j hj := by
    rcases List.mem_append.1 hj with hj | hj
    · exact h.lifted j hj
    · rw [List.mem_singleton.1 hj]
      exact ⟨r, hr, l, c, hi, hlift⟩

/-- What holds of some relocations holds of more. -/
theorem Layout.mono {rs' : List Relocation} (h : Layout f a rs b us u ws kept lifted)
    (hrs : rs ⊆ rs') : Layout f a rs' b us u ws kept lifted where
  eq := h.eq
  kept := h.kept
  lifted j hj := by
    obtain ⟨r, hr, hlift⟩ := h.lifted j hj
    exact ⟨r, hrs hr, hlift⟩

/-- In a run, every block lists some of its instructions in their old order, then what was lifted
into it, then its old terminator. -/
theorem Trace.exists_layout (h : Trace f a settings rs g) (ha : Analyzed f a) (hc : f.Coherent)
    (hw : f.WellFormed) (hb : f.instsOf b = us ++ [u]) :
    ∃ kept lifted, Layout f a rs b us u (g.instsOf b) kept lifted := by
  induction h with
  | start => exact ⟨us, [], by rw [hb, List.append_nil], List.Sublist.refl us, by simp⟩
  | @step rs g r g' l src instr htrace hr ih =>
    obtain ⟨kept, lifted, hlay⟩ := ih
    have hg := htrace.rearranged ha hc hw
    obtain ⟨xs, ys, zs, t, hrel⟩ := hr.exists_relocates ha hg
    have hlay := hlay.mono (List.subset_append_left rs [r])
    by_cases hd : b = r.preheader
    · -- The instruction comes in, lifted out of its block at first.
      subst hd
      obtain ⟨c, hfc⟩ : ∃ c, f.owner? r.inst = some c := by
        obtain ⟨c, hmem⟩ := (hg.placed r.inst).1 ⟨src, hrel.mem_source⟩
        exact ⟨c, (hc.mem_iff _ _).1 hmem⟩
      obtain ⟨c', hg', hcase⟩ := (htrace.step hr).owner_cases ha hc hw hfc
      have hnow : g'.owner? r.inst = some r.preheader :=
        ((hrel.coherent hg.coherent).mem_iff _ _).1 hrel.mem_target_after
      obtain rfl := Option.some.inj (hg'.symm.trans hnow)
      rcases hcase with ⟨-, hno⟩ | ⟨q, hq, m, hlift⟩
      · exact absurd rfl (hno r (List.mem_append_right _ List.mem_cons_self))
      · rw [hrel.target] at hlay
        rw [hrel.target_after]
        exact ⟨kept, _, hlay.lift hq hfc hlift⟩
    · -- Of any other block the instruction is filtered out, and it is not the last one there.
      have hu : u ≠ r.inst := by
        rintro rfl
        have hlast : (g'.instsOf b).getLast? = some r.inst := by
          rw [hrel.getLast?_eq, hlay.eq, List.getLast?_concat]
        exact hd ((hrel.mem_iff_self hg.coherent).1 (List.mem_of_getLast? hlast))
      rw [hrel.instsOf_eq_filter hg.coherent hd]
      exact ⟨_, _, hlay.filter hu⟩

/-- In a run, all but the places stays. -/
theorem Trace.sameParts (h : Trace f a settings rs g) (ha : Analyzed f a) (hc : f.Coherent)
    (hw : f.WellFormed) : f.SameParts g := by
  induction h with
  | start => exact .refl f
  | @step rs g r g' l src instr htrace hr ih =>
    obtain ⟨_, _, _, _, hrel⟩ := hr.exists_relocates ha (htrace.rearranged ha hc hw)
    rw [hrel.eq]
    exact ih.trans (g.sameParts_relocate r.inst src r.preheader)

/-- A run moves only what may leave the loop that it is moved out of. -/
theorem Trace.exists_hoistable (h : Trace f a settings rs g) (ha : Analyzed f a) (hc : f.Coherent)
    (hw : f.WellFormed) : ∀ r ∈ rs, ∃ l instr, a.forest.loop? r.loop = some l ∧
      f.inst? r.inst = some instr ∧ Hoistable f a.slots settings l instr := by
  induction h with
  | start => exact fun r hr => absurd hr List.not_mem_nil
  | @step rs g r g' l src instr htrace hr ih =>
    intro q hq
    rcases List.mem_append.1 hq with hq | hq
    · exact ih q hq
    · obtain rfl := List.mem_singleton.1 hq
      have hinst := (htrace.rearranged ha hc hw).inst? q.inst
      exact ⟨l, instr, hr.loop, hinst.symm.trans hr.content, hr.hoistable⟩

/-- A run moves no pinned instruction. -/
theorem Trace.not_moved_of_pinned {instr : Instruction} (h : Trace f a settings rs g)
    (ha : Analyzed f a) (hc : f.Coherent) (hw : f.WellFormed) (hi : f.inst? i = some instr)
    (hpin : instr.isPinned = true) : ∀ r ∈ rs, r.inst ≠ i := by
  rintro r hr rfl
  obtain ⟨l, instr', -, hinst, hkind⟩ := h.exists_hoistable ha hc hw r hr
  obtain rfl := Option.some.inj (hi.symm.trans hinst)
  rw [hkind.not_pinned] at hpin
  cases hpin

end Layout

/-! ## The whole run -/

/-- Whether an instruction was hoisted out of a loop into a block: a relocation of the run took it
from the loop to the block, and it was in the loop at first. -/
structure HoistedFrom (f : Function) (rs : List Relocation) (n : LoopId) (l : Loop) (b : BlockId)
    (i : InstId) : Prop where
  /-- A relocation took it there. -/
  moved : ∃ r ∈ rs, r.inst = i ∧ r.loop = n ∧ r.preheader = b
  /-- It was in the loop. -/
  inside : ∃ c, i ∈ f.instsOf c ∧ l.contains c = true

/-- Whether `g` is what relocations make of `f` that lift instructions to preheaders. -/
structure LiftedOnly (f : Function) (a : Analysis) (rs : List Relocation) (g : Function) :
    Prop where
  /-- All but the places stays. -/
  same : f.SameParts g
  /-- Every instruction is in exactly one block. -/
  placed : ∀ i, (f.inst? i).isSome = true → ∃! b, i ∈ g.instsOf b
  /-- No block lists an instruction twice. -/
  nodup : ∀ b, (g.instsOf b).Nodup
  /-- A pinned instruction is in its old block. -/
  pinned : ∀ b i instr, i ∈ f.instsOf b → f.inst? i = some instr → instr.isPinned = true →
    i ∈ g.instsOf b
  /-- A block lists some of its instructions, its terminator apart, in their old order, then what
  was hoisted from the one loop, if any, whose preheader it is, then its terminator. -/
  layout : ∀ b, f.hasBlock b = true → ∃ us u kept lifted, f.instsOf b = us ++ [u] ∧
    (∀ i instr, f.inst? i = some instr → (i ∈ us → instr.isTerminator = false) ∧
      (i = u → instr.isTerminator = true)) ∧
    g.instsOf b = kept ++ lifted ++ [u] ∧ kept.Sublist us ∧
    (lifted = [] ∨ ∃ n l, a.forest.loop? n = some l ∧ l.preheader = some b ∧
      (∀ k m, a.forest.loop? k = some m → m.preheader = some b → k = n) ∧
      ∀ i ∈ lifted, HoistedFrom f rs n l b i)
  /-- An instruction that has left its block is in one that strictly dominates it. -/
  dominates : ∀ i b c, i ∈ f.instsOf b → i ∈ g.instsOf c → c ≠ b →
    (Cfg.ofFunction f).Reachable b ∧ (Cfg.ofFunction f).Dominates c b ∧
      a.dominators.strictlyDominates c b = true

/-- A block is the preheader of one loop at most. -/
theorem Analyzed.eq_of_preheader {f : Function} {a : Analysis} {n k : LoopId} {l m : Loop}
    {b : BlockId} (ha : Analyzed f a) (hl : a.forest.loop? n = some l)
    (hlb : l.preheader = some b) (hm : a.forest.loop? k = some m) (hmb : m.preheader = some b) :
    k = n := by
  rw [ha.forest] at hl hm
  exact (ha.tree.isPreheader hl hlb).unique k m hm hmb

/-- What was lifted into a block was hoisted from the one loop whose preheader the block is. -/
theorem Layout.hoistedFrom {f : Function} {a : Analysis} {rs : List Relocation} {b : BlockId}
    {us after kept lifted : List InstId} {u : InstId} (h : Layout f a rs b us u after kept lifted)
    (ha : Analyzed f a) (hc : f.Coherent) :
    lifted = [] ∨ ∃ n l, a.forest.loop? n = some l ∧ l.preheader = some b ∧
      (∀ k m, a.forest.loop? k = some m → m.preheader = some b → k = n) ∧
      ∀ i ∈ lifted, HoistedFrom f rs n l b i := by
  rcases List.eq_nil_or_concat lifted with rfl | ⟨is, i, rfl⟩
  · exact .inl rfl
  · obtain ⟨r, -, l, _, -, hlift⟩ := h.lifted i (by simp)
    refine .inr ⟨r.loop, l, hlift.loop, hlift.preheader,
      fun k m hm hmb => ha.eq_of_preheader hlift.loop hlift.preheader hm hmb, fun j hj => ?_⟩
    obtain ⟨q, hq, m, c, hjc, hlift'⟩ := h.lifted j hj
    have hloop := ha.eq_of_preheader hlift.loop hlift.preheader hlift'.loop hlift'.preheader
    have hml : m = l := by
      have hm := hlift'.loop
      rw [hloop, hlift.loop] at hm
      exact (Option.some.inj hm).symm
    subst hml
    exact ⟨⟨q, hq, hlift'.inst, hloop, hlift'.target⟩, c, (hc.mem_iff j c).2 hjc, hlift'.inside⟩

/-- A run of the pass only lifts instructions to preheaders. -/
theorem Trace.liftedOnly {f g : Function} {a : Analysis} {settings : Settings}
    {rs : List Relocation} (h : Trace f a settings rs g) (ha : Analyzed f a) (hc : f.Coherent)
    (hw : f.WellFormed) : LiftedOnly f a rs g := by
  have hg := h.rearranged ha hc hw
  have howner : ∀ {i b}, i ∈ f.instsOf b → ∃ c, i ∈ g.instsOf c ∧
      (c = b ∧ (∀ r ∈ rs, r.inst ≠ i) ∨ ∃ r ∈ rs, ∃ l, Lifts a r l i b c) := fun {i b} hi => by
    obtain ⟨c, hgc, hcase⟩ := h.owner_cases ha hc hw ((hc.mem_iff i b).1 hi)
    exact ⟨c, (hg.coherent.mem_iff i c).2 hgc, hcase⟩
  have hunique : ∀ {i b c}, i ∈ g.instsOf b → i ∈ g.instsOf c → b = c := fun {i b c} hb hic =>
    hg.coherent.eq_of_owner? ((hg.coherent.mem_iff i b).1 hb) hic
  refine ⟨h.sameParts ha hc hw, fun i hi => ?_, hg.coherent.nodup,
    fun b i instr hi hinst hpin => ?_, fun b hb => ?_, fun i b c hi hic hne => ?_⟩
  · rw [← hg.inst?, ← Function.isSome_owner?_iff] at hi
    obtain ⟨b, hb⟩ := Option.isSome_iff_exists.1 hi
    have hmem := (hg.coherent.mem_iff i b).2 hb
    exact ⟨b, hmem, fun c hic => hunique hic hmem⟩
  · obtain ⟨c, hic, ⟨rfl, -⟩ | ⟨r, hr, l, hlift⟩⟩ := howner hi
    · exact hic
    · exact absurd hlift.inst (h.not_moved_of_pinned ha hc hw hinst hpin r hr)
  · obtain ⟨us, u, instr, hus, hu, hterm, -⟩ := hw.exists_terminator hb
    obtain ⟨kept, lifted, hlay⟩ := h.exists_layout ha hc hw hus
    refine ⟨us, u, kept, lifted, hus, fun i instr' hi => ⟨fun hmem => ?_, fun hiu => ?_⟩, hlay.eq,
      hlay.kept, hlay.hoistedFrom ha hc⟩
    · -- Something follows it, so it does not end the block.
      obtain ⟨ws, vs, rfl⟩ := List.append_of_mem hmem
      have hiff := hw.terminator b ws i (vs ++ [u]) instr' (by rw [hus]; simp) hi
      rw [Bool.eq_false_iff]
      intro htrue
      exact absurd (hiff.1 htrue) (by simp)
    · subst hiu
      obtain rfl := Option.some.inj (hi.symm.trans hu)
      exact hterm
  · obtain ⟨c', hic', ⟨rfl, -⟩ | ⟨r, hr, l, hlift⟩⟩ := howner hi
    · exact absurd (hunique hic hic') hne
    · obtain rfl := hunique hic hic'
      obtain ⟨-, hrb, hrc, hdom⟩ := hlift.dominates ha
      refine ⟨hrb, hdom, ?_⟩
      rw [Dominators.strictlyDominates, Bool.and_eq_true, bne_iff_ne]
      exact ⟨hne, ha.tree.dominates_iff.2 ⟨hrc, hrb, hdom⟩⟩

/-- The pass changes places only, and in one pattern. On every well-formed function it succeeds, and
of the function that it gives: all but the places of instructions is as before; every instruction is
in exactly one block; what is pinned is in its old block; each block lists some of its old
instructions in their old order, then what was hoisted from the one loop whose preheader it is, then
its old terminator; and an instruction that was moved is in a block that strictly dominates its old
one. -/
theorem hoistInvariants_liftedOnly (f : Function) (hb : f.Built) (hv : f.validate = .ok ())
    (settings : Settings) :
    ∃ a r counters, f.analyze = .ok a ∧ f.hoistInvariants settings = .ok r ∧
      r.result = .ok counters ∧ LiftedOnly f a r.moves r.function := by
  have hw := Function.violation?_eq_none_iff.1 (Function.validate_eq_ok_iff.1 hv)
  obtain ⟨a, r, counters, hanalyze, ha, hr, hres, htrace⟩ :=
    exists_analyzed_run hb.coherent hw settings
  exact ⟨a, r, counters, hanalyze, hr, hres, htrace.liftedOnly ha hb.coherent hw⟩

/-- Two nested loops. In the inner one a square can be computed before both, a load of a global and
a sum before the inner one alone, as the outer one stores to the global, and a division may trap. -/
def cascade : Function :=
  Function.edits { name := "cascade" }
    [.addParam .i64, .addGlobal "count", .addValue, .addValue, .addValue, .addValue,
      .addBlock "entry", .addBlock "outer", .addBlock "gate", .addBlock "inner", .addBlock "back",
      .addBlock "exit",
      .append ⟨0⟩ (.jump ⟨1⟩), .append ⟨1⟩ (.branch (.value ⟨0⟩) ⟨2⟩ ⟨5⟩), .append ⟨2⟩ (.jump ⟨3⟩),
      .append ⟨3⟩ (.compute ⟨2⟩ (.int .mul .i64 (.value ⟨0⟩) (.value ⟨0⟩))),
      .append ⟨3⟩ (.compute ⟨3⟩ (.int .sdiv .i64 (.value ⟨0⟩) (.value ⟨2⟩))),
      .append ⟨3⟩ (.load ⟨4⟩ .i64 (.value ⟨1⟩) {}),
      .append ⟨3⟩ (.compute ⟨5⟩ (.int .add .i64 (.value ⟨4⟩) (.value ⟨2⟩))),
      .append ⟨3⟩ (.branch (.value ⟨0⟩) ⟨3⟩ ⟨4⟩),
      .append ⟨4⟩ (.store .i64 (.value ⟨0⟩) (.value ⟨1⟩) {}), .append ⟨4⟩ (.jump ⟨1⟩),
      .append ⟨5⟩ (.ret none)]

/-- The cascade is made by edits. -/
theorem built_cascade : cascade.Built :=
  (Function.Built.new "cascade" [] none).edits _ (by decide)

/-- The cascade passes the check. -/
theorem validate_cascade : cascade.validate = .ok () :=
  Function.validate_eq_ok_iff.2 (by decide)

/-- Of the cascade the square goes to the entry, the load and the sum stop in front of the inner
loop, and the division stays. -/
theorem hoistInvariants_liftedOnly_cascade :
    ∃ a r, cascade.analyze = .ok a ∧ cascade.hoistInvariants {} = .ok r ∧
      LiftedOnly cascade a r.moves r.function ∧ r.function.layout =
        [[⟨3⟩, ⟨0⟩], [⟨1⟩], [⟨5⟩, ⟨6⟩, ⟨2⟩], [⟨4⟩, ⟨7⟩], [⟨8⟩, ⟨9⟩], [⟨10⟩]] := by
  obtain ⟨a, r, -, ha, hr, -, hlifted⟩ := hoistInvariants_liftedOnly cascade built_cascade
    validate_cascade {}
  have hlayout : (cascade.hoistInvariants {}).map (fun r => r.function.layout) =
      .ok [[⟨3⟩, ⟨0⟩], [⟨1⟩], [⟨5⟩, ⟨6⟩, ⟨2⟩], [⟨4⟩, ⟨7⟩], [⟨8⟩, ⟨9⟩], [⟨10⟩]] := by
    decide +kernel
  rw [hr] at hlayout
  exact ⟨a, r, ha, hr, hlifted, Except.ok.inj hlayout⟩

end LoopHoist
