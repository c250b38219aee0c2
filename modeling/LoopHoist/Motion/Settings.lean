/-!
# Settings of the pass

Each setting has a default, so a document need not mention it. `Settings.text` writes the settings
as a compact object in the order of declaration.
-/

namespace LoopHoist

/-- How far loads may be moved past the writes of a loop. -/
inductive AliasPolicy where
  /-- Only loads straight from a global, out of loops without stores and calls. -/
  | globalsOnly
  /-- Loads from any identified object that nothing in the loop may write. -/
  | strict
deriving DecidableEq, Inhabited

namespace AliasPolicy

/-- The written name of the policy. -/
def text : AliasPolicy → String
  | globalsOnly => "globals_only"
  | strict => "strict"

/-- All policies, in the order of declaration. -/
def all : List AliasPolicy := [globalsOnly, strict]

/-- The policy written with the given name. -/
def ofText? (s : String) : Option AliasPolicy := all.find? fun p => p.text == s

/-- Reading the written name gives the policy back. -/
theorem ofText?_text (p : AliasPolicy) : ofText? p.text = some p := by cases p <;> rfl

end AliasPolicy

/-- What the pass is told. -/
structure Settings where
  /-- Whether to run at all. -/
  enabled : Bool := true
  /-- Whether to move loads. -/
  hoistLoads : Bool := true
  /-- How far loads may be moved. -/
  aliasPolicy : AliasPolicy := .globalsOnly
  /-- Whether to check each function after it was changed. -/
  verify : Bool := true
  /-- The optimisation level of the host. -/
  optLevel : UInt8 := 2
deriving DecidableEq, Inhabited

namespace Settings

/-- The settings with another alias policy. -/
def withAliasPolicy (s : Settings) (p : AliasPolicy) : Settings := { s with aliasPolicy := p }

/-- The settings under which loads stay. -/
def withoutLoads (s : Settings) : Settings := { s with hoistLoads := false }

/-- The settings under which the pass does nothing. -/
def disabled (s : Settings) : Settings := { s with enabled := false }

/-- The written form of a truth value. -/
def flagText (b : Bool) : String := if b then "true" else "false"

/-- The settings as a compact object. -/
def text (s : Settings) : String :=
  "\x7b\"enabled\":" ++ flagText s.enabled ++ ",\"hoist_loads\":" ++ flagText s.hoistLoads ++
    ",\"alias_policy\":\"" ++ s.aliasPolicy.text ++ "\",\"verify\":" ++ flagText s.verify ++
    ",\"opt_level\":" ++ s.optLevel.toNat.repr ++ "\x7d"

end Settings

end LoopHoist
