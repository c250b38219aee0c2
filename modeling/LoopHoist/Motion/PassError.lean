import LoopHoist.Code.Violation

/-!
# Errors of the pass and its reports
-/

namespace LoopHoist

/-- Why the pass, its settings or its report failed. -/
inductive PassError where
  /-- The function is not well-formed. -/
  | structural (v : Violation)
  /-- The settings document cannot be read. -/
  | config
  /-- The report could not be written in full. -/
  | io
deriving DecidableEq, Inhabited

namespace PassError

/-- The name of the kind of error. -/
def name : PassError → String
  | structural _ => "Structural"
  | config => "Config"
  | io => "Io"

/-- The message of the error; a settings document gets none beyond its kind. -/
def message? : PassError → Option String
  | structural v => some ("structural violation: " ++ v.message)
  | config => none
  | io => some "I/O error: sink is full"

end PassError

end LoopHoist
