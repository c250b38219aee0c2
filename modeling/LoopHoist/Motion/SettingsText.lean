import LoopHoist.Motion.PassError
import LoopHoist.Motion.Settings
import LoopHoist.Text.Json

/-!
# Reading settings

Settings are read from a JSON object or from an array that lists the fields in the order of
declaration; what is missing keeps its default. An object may have other keys, which are ignored,
but none of its own twice; an array may not be longer than the fields. A policy is given by its name
or by an object with its name as the only key and null as the value.
-/

namespace LoopHoist

namespace Settings

/-- A truth value. -/
def flagOf? : Json → Option Bool
  | .bool b => some b
  | _ => none

/-- A policy, by name or as an object of one field. -/
def policyOf? : Json → Option AliasPolicy
  | .str (some s) => AliasPolicy.ofText? s
  | .obj [(some key, .null)] => AliasPolicy.ofText? key
  | _ => none

/-- A level, as an unsigned integer literal of at most 255. -/
def levelOf? : Json → Option UInt8
  | .num literal =>
    match naturalOf? literal with
    | some n => if n < 256 then some (UInt8.ofNat n) else none
    | none => none
  | _ => none

/-- How each field is set, by name, in the order of declaration. -/
def setters : List (String × (Settings → Json → Option Settings)) :=
  [("enabled", fun s j => (flagOf? j).map fun b => { s with enabled := b }),
   ("hoist_loads", fun s j => (flagOf? j).map fun b => { s with hoistLoads := b }),
   ("alias_policy", fun s j => (policyOf? j).map fun p => { s with aliasPolicy := p }),
   ("verify", fun s j => (flagOf? j).map fun b => { s with verify := b }),
   ("opt_level", fun s j => (levelOf? j).map fun n => { s with optLevel := n })]

/-- The settings with the fields of an object, `seen` being the keys set before. -/
def setFields (s : Settings) (seen : List String) : List (Option String × Json) → Option Settings
  | [] => some s
  | (none, _) :: _ => none
  | (some key, j) :: rest =>
    match setters.lookup key with
    -- Another key is ignored, whatever its value and however often it comes.
    | none => s.setFields seen rest
    | some set =>
      if seen.contains key then none
      else
        match set s j with
        | some s' => s'.setFields (key :: seen) rest
        | none => none

/-- The settings with the items of an array, one for each setter in turn. -/
def setItems (s : Settings) : List (String × (Settings → Json → Option Settings)) → List Json →
    Option Settings
  | _, [] => some s
  | [], _ :: _ => none
  | (_, set) :: sets, j :: rest =>
    match set s j with
    | some s' => s'.setItems sets rest
    | none => none

/-- The settings of a document. -/
def ofJson? : Json → Option Settings
  | .obj fields => setFields {} [] fields
  | .arr items => setItems {} setters items
  | _ => none

/-- The settings that a text spells. -/
def ofText (text : String) : Except PassError Settings :=
  match (Json.ofText? text).bind ofJson? with
  | some s => .ok s
  | none => .error .config

end Settings

end LoopHoist
