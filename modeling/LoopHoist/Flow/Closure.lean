/-!
# Closure under a successor function

`closure all next todo seen` adds to `seen` what can be reached from `todo` by steps of `next`
inside the finite stock `all`, never passing through anything already in `seen`. A worklist drives
it; it ends because each element is added once, at the cost of its own successors
(`unseenWeight_cons_le`).
-/

namespace LoopHoist

/-- The total weight of the elements of `all` that are not in `seen`. -/
def unseenWeight {α : Type} [DecidableEq α] (weight : α → Nat) (seen : List α) : List α → Nat
  | [] => 0
  | a :: rest => (if a ∈ seen then 0 else weight a) + unseenWeight weight seen rest

/-- Seeing more never adds weight. -/
theorem unseenWeight_cons_le_self {α : Type} [DecidableEq α] (weight : α → Nat)
    (all seen : List α) (a : α) :
    unseenWeight weight (a :: seen) all ≤ unseenWeight weight seen all := by
  induction all with
  | nil => exact Nat.le_refl _
  | cons x xs ih =>
    simp only [unseenWeight, List.mem_cons]
    by_cases hx : x ∈ seen
    · simp [hx, ih]
    · by_cases hxa : x = a
      · simp [hxa]; omega
      · simp [hx, hxa, ih]

/-- Seeing an unseen element of `all` takes away at least its weight. -/
theorem unseenWeight_cons_le {α : Type} [DecidableEq α] (weight : α → Nat) {all seen : List α}
    {a : α} (ha : a ∈ all) (hs : a ∉ seen) :
    unseenWeight weight (a :: seen) all + weight a ≤ unseenWeight weight seen all := by
  induction all with
  | nil => simp at ha
  | cons x xs ih =>
    have hle := unseenWeight_cons_le_self weight xs seen a
    simp only [unseenWeight, List.mem_cons]
    by_cases hxa : x = a
    · subst hxa
      simp [hs]
      omega
    · have := ih ((List.mem_cons.1 ha).resolve_left fun h => hxa h.symm)
      by_cases hx : x ∈ seen
      · simp [hx, this]
      · simp [hx, hxa]
        omega

/-- What `seen` grows to by steps of `next` from `todo` inside `all`. -/
def closure {α : Type} [DecidableEq α] (all : List α) (next : α → List α) (todo seen : List α) :
    List α :=
  match todo with
  | [] => seen
  | a :: rest =>
    -- An element outside the stock, or seen before, adds nothing.
    if _h : a ∈ all ∧ a ∉ seen then closure all next (next a ++ rest) (a :: seen)
    else closure all next rest seen
termination_by unseenWeight (fun a => (next a).length + 1) seen all + todo.length
decreasing_by
  · have := unseenWeight_cons_le (fun a => (next a).length + 1) _h.1 _h.2
    simp only [List.length_append, List.length_cons]
    omega
  · simp

/-- The cost of an element whose successors are looked up. -/
def lookupWeight {ε α : Type} (next : α → Except ε (List α)) (a : α) : Nat :=
  match next a with
  | .ok targets => targets.length + 1
  | .error _ => 1

/-- The closure under successors that are looked up; the first failure ends it. -/
def closureAt {ε α : Type} [DecidableEq α] (all : List α) (next : α → Except ε (List α))
    (todo seen : List α) : Except ε (List α) :=
  match todo with
  | [] => .ok seen
  | a :: rest =>
    if _h : a ∈ all ∧ a ∉ seen then
      match _hn : next a with
      | .ok targets => closureAt all next (targets ++ rest) (a :: seen)
      | .error e => .error e
    else closureAt all next rest seen
termination_by unseenWeight (lookupWeight next) seen all + todo.length
decreasing_by
  · have := unseenWeight_cons_le (lookupWeight next) _h.1 _h.2
    have hw : lookupWeight next a = targets.length + 1 := by rw [lookupWeight, _hn]
    simp only [List.length_append, List.length_cons]
    omega
  · simp

/-- When no look-up of the stock fails, the closure is that under what is found. -/
theorem closureAt_eq_ok {ε α : Type} [DecidableEq α] {all : List α} {next : α → Except ε (List α)}
    {found : α → List α} (h : ∀ a ∈ all, next a = .ok (found a)) (todo seen : List α) :
    closureAt all next todo seen = .ok (closure all found todo seen) := by
  fun_induction closure all found todo seen with
  | case1 seen => rw [closureAt]
  | case2 seen a rest hnew ih =>
    rw [closureAt, dif_pos hnew, ← ih]
    split
    · next targets hn => rw [Except.ok.inj ((h a hnew.1).symm.trans hn)]
    · next e hn => cases (h a hnew.1).symm.trans hn
  | case3 seen a rest hold ih => rw [closureAt, dif_neg hold, ih]

end LoopHoist
