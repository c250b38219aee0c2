import LoopHoist.Flow.Dominators
import LoopHoist.Proofs.Flow.Paths

/-!
# What the depth-first walk gives

`Cfg.walk` keeps a stack, a set of seen blocks and the finished blocks. `WalkState` is what holds of
the three at every moment: the stack is a path from the entry, every seen block is on the stack or
finished and not both, a finished block has a predecessor that is finished later, and an edge out of
a finished block leads to one that was finished before or back to a block that leads to it. Each
step of the walk keeps it (`WalkState.pop`, `WalkState.push`, `WalkState.pass`), so it holds of the
reverse postorder (`walkState_reversePostorder`).

For a closed graph the reverse postorder lists exactly the reachable blocks
(`mem_reversePostorder_iff`), and every block but the entry after one of its predecessors
(`exists_pred_rank_lt`), hence after everything that dominates it (`rank_lt_of_dominates`).
-/

namespace LoopHoist

namespace Cfg

variable {g : Cfg} {e : BlockId}

/-- The blocks of a stack, the top first. -/
def stackBlocks (stack : List (BlockId × List BlockId)) : List BlockId := stack.map (·.1)

/-- What holds of the walk from `e` at every moment. -/
structure WalkState (g : Cfg) (e : BlockId) (stack : List (BlockId × List BlockId))
    (seen finished : List BlockId) : Prop where
  /-- The stack is a path from the entry to its top. -/
  path : stack = [] ∨ ∃ top, g.Path e top (stackBlocks stack)
  /-- No block is on the stack or finished twice, or both. -/
  nodup : (stackBlocks stack ++ finished).Nodup
  /-- The seen blocks are those on the stack and the finished ones. -/
  mem_seen : ∀ x, x ∈ seen ↔ x ∈ stackBlocks stack ∨ x ∈ finished
  /-- The entry is seen. -/
  entry : e ∈ seen
  /-- Seen blocks exist. -/
  nodes : ∀ x ∈ seen, x ∈ g.nodes
  /-- Seen blocks are reached from the entry. -/
  sound : ∀ x ∈ seen, ∃ bs, g.Path e x bs
  /-- An existing successor of a block on the stack is seen or still left. -/
  left : ∀ frame ∈ stack, ∀ s ∈ g.succ frame.1, s ∈ g.nodes → s ∈ seen ∨ s ∈ frame.2
  /-- What is left of a block are successors of it. -/
  left_succ : ∀ frame ∈ stack, ∀ s ∈ frame.2, s ∈ g.succ frame.1
  /-- A finished block is the entry or has a predecessor that is finished later. -/
  parent : ∀ xs x ys, finished = xs ++ x :: ys →
    x = e ∨ ∃ p, x ∈ g.succ p ∧ (p ∈ stackBlocks stack ∨ p ∈ xs)
  /-- An existing successor of a finished block is seen; it was finished before or leads to it. -/
  back : ∀ xs x ys, finished = xs ++ x :: ys → ∀ s ∈ g.succ x, s ∈ g.nodes →
    s ∈ seen ∧ (s ∈ ys ∨ ∃ bs, g.Path s x bs)

namespace WalkState

variable {stack rest : List (BlockId × List BlockId)} {seen finished left : List BlockId}
  {b s : BlockId}

/-- Before the walk only the entry is seen, with all its successors left. -/
theorem initial (he : g.has e = true) : WalkState g e [(e, g.succ e)] [e] [] where
  path := .inr ⟨e, .here⟩
  nodup := by simp [stackBlocks]
  mem_seen := by simp [stackBlocks]
  entry := List.mem_cons_self
  nodes := by simpa using mem_nodes.2 he
  sound := by
    intro x hx
    obtain rfl := List.mem_singleton.1 hx
    exact ⟨_, .here⟩
  left := by
    intro frame hf s hs _
    obtain rfl := List.mem_singleton.1 hf
    exact .inr hs
  left_succ := by
    intro frame hf s hs
    obtain rfl := List.mem_singleton.1 hf
    exact hs
  parent := fun xs x ys h => absurd h (by simp)
  back := fun xs x ys h => absurd h (by simp)

/-- The stack is a path to its top. -/
theorem path_top (h : WalkState g e ((b, left) :: rest) seen finished) :
    g.Path e b (b :: stackBlocks rest) := by
  obtain ⟨top, hp⟩ := h.path.resolve_left (List.cons_ne_nil _ _)
  obtain rfl : b = top := hp.eq_or_exists_step.1
  exact hp

/-- The path of the stack without its top, and the edge to the top. -/
theorem path_tail (h : WalkState g e ((b, left) :: rest) seen finished) :
    (b = e ∧ rest = []) ∨ ∃ p, g.Path e p (stackBlocks rest) ∧ b ∈ g.succ p := by
  rcases h.path_top.eq_or_exists_step.2 with ⟨he, hr⟩ | hstep
  · exact .inl ⟨he.symm, List.map_eq_nil_iff.1 hr⟩
  · exact .inr hstep

/-- A block on the stack leads to the top. -/
theorem path_to_top (h : WalkState g e ((b, left) :: rest) seen finished)
    (hs : s ∈ stackBlocks ((b, left) :: rest)) : ∃ bs, g.Path s b bs := by
  obtain ⟨cs, q, -⟩ := h.path_top.exists_last_visit hs
  exact ⟨_, q⟩

/-- Finishing the top of the stack. -/
theorem pop (h : WalkState g e ((b, []) :: rest) seen finished) :
    WalkState g e rest seen (b :: finished) where
  path := by
    rcases h.path_tail with ⟨-, hr⟩ | ⟨p, hp, -⟩
    · exact .inl hr
    · exact .inr ⟨p, hp⟩
  nodup := by
    have hn := h.nodup
    simp only [stackBlocks, List.map_cons, List.cons_append] at hn
    exact List.perm_middle.symm.nodup hn
  mem_seen := by
    intro x
    rw [h.mem_seen x]
    simp only [stackBlocks, List.map_cons, List.mem_cons]
    exact ⟨fun hx => by rcases hx with (hx | hx) | hx <;> simp [hx],
      fun hx => by rcases hx with hx | hx | hx <;> simp [hx]⟩
  entry := h.entry
  nodes := h.nodes
  sound := h.sound
  left := fun frame hf => h.left frame (List.mem_cons_of_mem _ hf)
  left_succ := fun frame hf => h.left_succ frame (List.mem_cons_of_mem _ hf)
  parent := by
    intro xs x ys hsplit
    rcases List.cons_eq_append_iff.1 hsplit with ⟨rfl, hx⟩ | ⟨xs, rfl, hx⟩
    · -- The block just finished: its parent is the new top.
      obtain ⟨rfl, rfl⟩ := List.cons.inj hx
      rcases h.path_tail with ⟨hb, -⟩ | ⟨p, hp, hs⟩
      · exact .inl hb
      · exact .inr ⟨p, hs, .inl hp.target_mem⟩
    · refine (h.parent xs x ys hx).imp_right fun ⟨p, hs, hp⟩ => ⟨p, hs, ?_⟩
      simp only [stackBlocks, List.map_cons, List.mem_cons] at hp ⊢
      rcases hp with (hp | hp) | hp
      · exact .inr (.inl hp)
      · exact .inl hp
      · exact .inr (.inr hp)
  back := by
    intro xs x ys hsplit s hs hn
    rcases List.cons_eq_append_iff.1 hsplit with ⟨rfl, hx⟩ | ⟨xs, rfl, hx⟩
    · obtain ⟨rfl, rfl⟩ := List.cons.inj hx
      have hseen : s ∈ seen :=
        (h.left _ List.mem_cons_self s hs hn).resolve_right List.not_mem_nil
      refine ⟨hseen, ?_⟩
      rcases (h.mem_seen s).1 hseen with hs' | hs'
      · exact .inr (h.path_to_top hs')
      · exact .inl hs'
    · exact h.back xs x ys hx s hs hn

/-- Going on to a successor that was not seen. -/
theorem push (h : WalkState g e ((b, s :: left) :: rest) seen finished) (hn : s ∈ g.nodes)
    (hs : s ∉ seen) :
    WalkState g e ((s, g.succ s) :: (b, left) :: rest) (s :: seen) finished := by
  have hsucc : s ∈ g.succ b := h.left_succ _ List.mem_cons_self s List.mem_cons_self
  have hpath : g.Path e b (stackBlocks ((b, left) :: rest)) := h.path_top
  refine
    { path := .inr ⟨s, hpath.step hsucc⟩
      nodup := ?_
      mem_seen := ?_
      entry := List.mem_cons_of_mem _ h.entry
      nodes := ?_
      sound := ?_
      left := ?_
      left_succ := ?_
      parent := ?_
      back := fun xs x ys hsplit t ht htn =>
        (h.back xs x ys hsplit t ht htn).imp_left (List.mem_cons_of_mem _) }
  -- What is on the stack or finished was seen, and `s` was not.
  · refine List.nodup_cons.2 ⟨fun hm => hs ((h.mem_seen s).2 ?_), h.nodup⟩
    exact List.mem_append.1 hm
  · intro x
    rw [List.mem_cons, h.mem_seen x]
    simp only [stackBlocks, List.map_cons, List.mem_cons, or_assoc]
  · intro x hx
    rcases List.mem_cons.1 hx with rfl | hx
    · exact hn
    · exact h.nodes x hx
  · intro x hx
    rcases List.mem_cons.1 hx with rfl | hx
    · exact ⟨_, hpath.step hsucc⟩
    · exact h.sound x hx
  -- The new frame has all its successors left; the one below has lost `s`, which is seen now.
  · intro frame hf t ht htn
    rcases List.mem_cons.1 hf with rfl | hf
    · exact .inr ht
    · rcases List.mem_cons.1 hf with rfl | hf
      · rcases h.left _ List.mem_cons_self t ht htn with hseen | hleft
        · exact .inl (List.mem_cons_of_mem _ hseen)
        · rcases List.mem_cons.1 hleft with rfl | hleft
          · exact .inl List.mem_cons_self
          · exact .inr hleft
      · exact (h.left frame (List.mem_cons_of_mem _ hf) t ht htn).imp_left (List.mem_cons_of_mem _)
  · intro frame hf t ht
    rcases List.mem_cons.1 hf with rfl | hf
    · exact ht
    · rcases List.mem_cons.1 hf with rfl | hf
      · exact h.left_succ _ List.mem_cons_self t (List.mem_cons_of_mem _ ht)
      · exact h.left_succ frame (List.mem_cons_of_mem _ hf) t ht
  · intro xs x ys hsplit
    refine (h.parent xs x ys hsplit).imp_right fun ⟨p, hs, hp⟩ => ⟨p, hs, ?_⟩
    exact hp.imp_left (List.mem_cons_of_mem _)

/-- Passing over a successor that was seen or does not exist. -/
theorem pass (h : WalkState g e ((b, s :: left) :: rest) seen finished)
    (hs : ¬ (s ∈ g.nodes ∧ s ∉ seen)) : WalkState g e ((b, left) :: rest) seen finished where
  path := .inr (h.path.resolve_left (List.cons_ne_nil _ _))
  nodup := h.nodup
  mem_seen := h.mem_seen
  entry := h.entry
  nodes := h.nodes
  sound := h.sound
  left := by
    intro frame hf t ht htn
    rcases List.mem_cons.1 hf with rfl | hf
    · rcases h.left _ List.mem_cons_self t ht htn with hseen | hleft
      · exact .inl hseen
      · rcases List.mem_cons.1 hleft with rfl | hleft
        · exact .inl (Classical.not_not.1 fun hn => hs ⟨htn, hn⟩)
        · exact .inr hleft
    · exact h.left frame (List.mem_cons_of_mem _ hf) t ht htn
  left_succ := by
    intro frame hf t ht
    rcases List.mem_cons.1 hf with rfl | hf
    · exact h.left_succ _ List.mem_cons_self t (List.mem_cons_of_mem _ ht)
    · exact h.left_succ frame (List.mem_cons_of_mem _ hf) t ht
  parent := h.parent
  back := h.back

/-- The walk ends with an empty stack, all seen blocks being finished. -/
theorem walk (h : WalkState g e stack seen finished) :
    ∃ seen', WalkState g e [] seen' (g.walk stack seen finished) := by
  fun_induction g.walk stack seen finished with
  | case1 seen finished => exact ⟨seen, h⟩
  | case2 seen finished b rest ih => exact ih h.pop
  | case3 seen finished b s left rest hs ih => exact ih (h.push hs.1 hs.2)
  | case4 seen finished b s left rest hs ih => exact ih (h.pass hs)

end WalkState

/-! ## The reverse postorder -/

/-- The reverse postorder is what the walk from the entry has finished at its end. -/
theorem walkState_reversePostorder (he : g.entry = some e) (hh : g.has e = true) :
    ∃ seen, WalkState g e [] seen g.reversePostorder := by
  unfold reversePostorder
  rw [he]
  simp only [hh, if_true]
  exact (WalkState.initial hh).walk

/-- No block is listed twice. -/
theorem reversePostorder_nodup (g : Cfg) : g.reversePostorder.Nodup := by
  cases he : g.entry with
  | none => simp [reversePostorder, he]
  | some e =>
    by_cases hh : g.has e = true
    · obtain ⟨seen, h⟩ := walkState_reversePostorder he hh
      exact h.nodup
    · simp [reversePostorder, he, hh]

/-- A listed block is reachable. -/
theorem reachable_of_mem_reversePostorder {b : BlockId} (hb : b ∈ g.reversePostorder) :
    g.Reachable b := by
  cases he : g.entry with
  | none => simp [reversePostorder, he] at hb
  | some e =>
    by_cases hh : g.has e = true
    · obtain ⟨seen, h⟩ := walkState_reversePostorder he hh
      obtain ⟨bs, p⟩ := h.sound b ((h.mem_seen b).2 (.inr hb))
      exact ⟨e, bs, he, p⟩
    · simp [reversePostorder, he, hh] at hb

/-- A reachable block is listed, if the listed blocks name only existing ones. -/
theorem mem_reversePostorder_of_reachable {b : BlockId} (he : g.entry = some e)
    (hh : g.has e = true) (hs : ∀ a ∈ g.reversePostorder, ∀ s ∈ g.succ a, g.has s = true)
    (hb : g.Reachable b) : b ∈ g.reversePostorder := by
  obtain ⟨seen, h⟩ := walkState_reversePostorder he hh
  have hseen : ∀ x, x ∈ seen ↔ x ∈ g.reversePostorder := fun x => by
    rw [h.mem_seen x]
    simp [stackBlocks]
  obtain ⟨e', bs, he', p⟩ := hb
  obtain rfl : e = e' := Option.some.inj (he.symm.trans he')
  induction p with
  | here => exact (hseen _).1 h.entry
  | @step a b bs p hb ih =>
    obtain ⟨xs, ys, hsplit⟩ := List.append_of_mem ih
    exact (hseen b).1 (h.back xs a ys hsplit b hb (mem_nodes.2 (hs a ih b hb))).1

/-- A graph is closed exactly when its entry exists and reachable blocks name only existing ones. -/
theorem closed_iff :
    g.closed = true ↔ ∃ e, g.entry = some e ∧ g.has e = true ∧
      ∀ b, g.Reachable b → ∀ s ∈ g.succ b, g.has s = true := by
  simp only [closed, Bool.and_eq_true, List.all_eq_true]
  constructor
  · rintro ⟨he, hs⟩
    cases hentry : g.entry with
    | none => simp [hentry] at he
    | some e =>
      rw [hentry] at he
      exact ⟨e, rfl, he, fun b hb => hs b (mem_reversePostorder_of_reachable hentry he hs hb)⟩
  · rintro ⟨e, he, hh, hs⟩
    rw [he]
    exact ⟨hh, fun b hb => hs b (reachable_of_mem_reversePostorder hb)⟩

/-! ## Ranks -/

/-- The rank of a listed block is the number of blocks listed before it. -/
theorem rank_eq_length {xs ys : List BlockId} {b : BlockId}
    (h : g.reversePostorder = xs ++ b :: ys) : g.rank b = xs.length := by
  have hn := g.reversePostorder_nodup
  rw [h] at hn
  have hb : b ∉ xs := fun hb => (List.nodup_append.1 hn).2.2 b hb b List.mem_cons_self rfl
  rw [rank, h, List.idxOf_append, if_neg hb, List.idxOf_cons_self, Nat.zero_add]

/-- A block listed before another has the lower rank. -/
theorem rank_lt_of_mem_left {xs ys : List BlockId} {a b : BlockId}
    (h : g.reversePostorder = xs ++ b :: ys) (ha : a ∈ xs) : g.rank a < g.rank b := by
  rw [rank_eq_length h, rank, h, List.idxOf_append, if_pos ha]
  exact List.idxOf_lt_length_of_mem ha

section Closed

variable (hc : g.closed = true)
include hc

/-- The entry of a closed graph exists. -/
theorem exists_entry_of_closed : ∃ e, g.entry = some e ∧ g.has e = true := by
  obtain ⟨e, he, hh, -⟩ := closed_iff.1 hc
  exact ⟨e, he, hh⟩

/-- The reverse postorder of a closed graph lists exactly the reachable blocks. -/
theorem mem_reversePostorder_iff {b : BlockId} : b ∈ g.reversePostorder ↔ g.Reachable b := by
  obtain ⟨e, he, hh, hs⟩ := closed_iff.1 hc
  exact ⟨reachable_of_mem_reversePostorder, mem_reversePostorder_of_reachable he hh
    fun a ha => hs a (reachable_of_mem_reversePostorder ha)⟩

/-- The reachable blocks of a closed graph exist. -/
theorem has_of_reachable {b : BlockId} (hb : g.Reachable b) : g.has b = true := by
  obtain ⟨e, he, hh, hs⟩ := closed_iff.1 hc
  obtain ⟨e', bs, he', p⟩ := hb
  obtain rfl : e = e' := Option.some.inj (he.symm.trans he')
  cases p with
  | here => exact hh
  | step p hb => exact hs _ ⟨e, _, he, p⟩ b hb

/-- Every reachable block but the entry has a reachable predecessor of lower rank. -/
theorem exists_pred_rank_lt {b : BlockId} (hb : g.Reachable b) (hne : g.entry ≠ some b) :
    ∃ p, g.Reachable p ∧ b ∈ g.succ p ∧ g.rank p < g.rank b := by
  obtain ⟨e, he, hh⟩ := exists_entry_of_closed hc
  obtain ⟨seen, h⟩ := walkState_reversePostorder he hh
  obtain ⟨xs, ys, hsplit⟩ := List.append_of_mem ((mem_reversePostorder_iff hc).2 hb)
  rcases h.parent xs b ys hsplit with rfl | ⟨p, hs, hp⟩
  · exact absurd he hne
  · have hp : p ∈ xs := hp.resolve_left List.not_mem_nil
    refine ⟨p, ?_, hs, rank_lt_of_mem_left hsplit hp⟩
    exact reachable_of_mem_reversePostorder (hsplit ▸ List.mem_append_left _ hp)

/-- The entry has rank zero. -/
theorem rank_entry (he : g.entry = some e) : g.rank e = 0 := by
  have hr : e ∈ g.reversePostorder := (mem_reversePostorder_iff hc).2 (reachable_entry he)
  obtain ⟨e', he', hh⟩ := exists_entry_of_closed hc
  obtain ⟨seen, h⟩ := walkState_reversePostorder he' hh
  obtain rfl : e = e' := Option.some.inj (he.symm.trans he')
  cases ho : g.reversePostorder with
  | nil => simp [ho] at hr
  | cons x xs =>
    -- The first block has no predecessor listed before it, so it is the entry.
    rcases h.parent [] x xs ho with rfl | ⟨p, -, hp⟩
    · rw [rank, ho, List.idxOf_cons_self]
    · exact absurd hp (by simp [stackBlocks])

/-- The reverse postorder of a closed graph starts with the entry. -/
theorem exists_reversePostorder_eq (he : g.entry = some e) :
    ∃ xs, g.reversePostorder = e :: xs := by
  have hr := (mem_reversePostorder_iff hc).2 (reachable_entry he)
  obtain ⟨xs, ys, hsplit⟩ := List.append_of_mem hr
  have hlen := rank_eq_length hsplit
  rw [rank_entry hc he] at hlen
  rw [List.eq_nil_of_length_eq_zero hlen.symm] at hsplit
  exact ⟨ys, hsplit⟩

/-- A path from the entry along which ranks ascend. -/
theorem exists_ascending_path {b : BlockId} (he : g.entry = some e) (hb : g.Reachable b) :
    ∃ bs, g.Path e b bs ∧ ∀ x ∈ bs, x ≠ b → g.rank x < g.rank b := by
  by_cases hbe : b = e
  · subst hbe
    exact ⟨[b], .here, fun x hx hne => absurd (List.mem_singleton.1 hx) hne⟩
  · obtain ⟨p, hp, hs, hlt⟩ := exists_pred_rank_lt hc hb fun h =>
      hbe (Option.some.inj (h.symm.trans he))
    obtain ⟨bs, hpath, hasc⟩ := exists_ascending_path he hp
    refine ⟨b :: bs, hpath.step hs, fun x hx hne => ?_⟩
    have hx := (List.mem_cons.1 hx).resolve_left hne
    by_cases hxp : x = p
    · exact hxp ▸ hlt
    · exact Nat.lt_trans (hasc x hx hxp) hlt
termination_by g.rank b

/-- What dominates a reachable block has a lower rank, unless it is the block itself. -/
theorem rank_lt_of_dominates {a b : BlockId} (h : g.Dominates a b) (hne : a ≠ b)
    (hb : g.Reachable b) : g.rank a < g.rank b := by
  obtain ⟨e, he, -⟩ := exists_entry_of_closed hc
  obtain ⟨bs, p, hasc⟩ := exists_ascending_path hc he hb
  exact hasc a (h e bs he p) hne

/-- An edge that does not go up in rank leads back to a block from which its source is reached. -/
theorem exists_path_of_rank_le {a b : BlockId} (ha : g.Reachable a) (hs : b ∈ g.succ a)
    (hle : g.rank b ≤ g.rank a) : ∃ bs, g.Path b a bs := by
  obtain ⟨e, he, hh⟩ := exists_entry_of_closed hc
  obtain ⟨seen, h⟩ := walkState_reversePostorder he hh
  obtain ⟨xs, ys, hsplit⟩ := List.append_of_mem ((mem_reversePostorder_iff hc).2 ha)
  have hnode : b ∈ g.nodes := mem_nodes.2 (has_of_reachable hc (ha.step hs))
  refine (h.back xs a ys hsplit b hs hnode).2.resolve_left fun hy => ?_
  obtain ⟨us, vs, hy⟩ := List.append_of_mem hy
  -- A block finished before the source would be listed after it.
  have hlt : g.rank a < g.rank b := by
    have hsplit' : g.reversePostorder = (xs ++ a :: us) ++ b :: vs := by
      rw [hsplit, hy, List.append_assoc, List.cons_append]
    exact rank_lt_of_mem_left hsplit' (List.mem_append_right _ List.mem_cons_self)
  omega

end Closed

end Cfg

end LoopHoist
