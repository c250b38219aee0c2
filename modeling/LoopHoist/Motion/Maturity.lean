import LoopHoist.Motion.Settings

/-!
# When a pass runs

A pass declares how mature it is, and the optimisation level of the host decides from which maturity
on a pass runs: none at level zero, stable ones from level one, experimental ones from level two,
deprecated ones from level three.
-/

namespace LoopHoist

/-- How mature a pass is, from the least to the most. -/
inductive Maturity where
  | deprecated | experimental | stable
deriving DecidableEq, Inhabited

namespace Maturity

/-- The optimisation level from which on a pass of this maturity runs. -/
def minLevel : Maturity → UInt8
  | stable => 1
  | experimental => 2
  | deprecated => 3

/-- Whether a pass of this maturity runs at an optimisation level. -/
def enabledAt (m : Maturity) (level : UInt8) : Bool := m.minLevel ≤ level

/-- The place of a maturity in the order from the least to the most mature. -/
def ordinal : Maturity → Nat
  | deprecated => 0
  | experimental => 1
  | stable => 2

/-- Comparison from the least to the most mature. -/
def order (a b : Maturity) : Ordering := compare a.ordinal b.ordinal

/-- The name of the maturity. -/
def text : Maturity → String
  | deprecated => "Deprecated"
  | experimental => "Experimental"
  | stable => "Stable"

/-- All maturities, from the least to the most. -/
def all : List Maturity := [deprecated, experimental, stable]

/-- The less mature a pass is, the higher the level it needs. -/
theorem enabledAt_of_order {a b : Maturity} {level : UInt8} (h : a.order b ≠ .gt)
    (ha : a.enabledAt level = true) : b.enabledAt level = true := by
  unfold enabledAt at *
  simp only [decide_eq_true_eq] at *
  have hmin : b.minLevel ≤ a.minLevel := by cases a <;> cases b <;> revert h <;> decide
  exact UInt8.le_trans hmin ha

end Maturity

/-- What a pass tells about itself. -/
structure PassInfo where
  /-- The unique name of the pass. -/
  name : String
  /-- What the pass does. -/
  description : String
  /-- The kind of pass. -/
  category : String
  /-- How mature the pass is. -/
  maturity : Maturity

/-- Loop-invariant code motion moves code between blocks and is mature. -/
def PassInfo.loopInvariantCodeMotion : PassInfo :=
  { name := "loop_invariant_code_motion"
    description := "Moves loop-invariant computations and loads into loop preheaders"
    category := "CodeMotion"
    maturity := .stable }

/-- Whether the pass does anything under its settings. -/
def Settings.isActive (s : Settings) : Bool :=
  s.enabled && PassInfo.loopInvariantCodeMotion.maturity.enabledAt s.optLevel

end LoopHoist
