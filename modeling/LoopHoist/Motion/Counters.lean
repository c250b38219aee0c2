/-!
# Counters

What the pass did and what a module holds, as twelve 64-bit counters. Deltas are combined with
`add`, which wraps. `entries` names the counters in the order of declaration, and the names tell
them apart (`ofNames_entries`); reports that sort by name use `sortedEntries`, a rearrangement of
the same list.
-/

namespace LoopHoist

/-- The counters of a run. The first eight count what the pass met and did, the last four what the
module holds. -/
structure Counters where
  /-- Loops processed. -/
  numLoops : UInt64 := 0
  /-- Loops left alone because they have no preheader. -/
  noPreheader : UInt64 := 0
  /-- Ordinary instructions hoisted. -/
  basicHoisted : UInt64 := 0
  /-- Loads hoisted. -/
  loadsHoisted : UInt64 := 0
  /-- Loops without a store. -/
  loopsNoStore : UInt64 := 0
  /-- Loops without a load. -/
  loopsNoLoad : UInt64 := 0
  /-- Loops without a store but with a load. -/
  loopsNoStoreWithLoad : UInt64 := 0
  /-- Loops with a call. -/
  loopsWithCall : UInt64 := 0
  /-- Functions with a body. -/
  functions : UInt64 := 0
  /-- Instructions in blocks. -/
  instructions : UInt64 := 0
  /-- Loads in blocks. -/
  loads : UInt64 := 0
  /-- Stores in blocks. -/
  stores : UInt64 := 0
deriving DecidableEq, Inhabited

namespace Counters

/-- The sums of the counters of both. -/
def add (a b : Counters) : Counters :=
  { numLoops := a.numLoops + b.numLoops
    noPreheader := a.noPreheader + b.noPreheader
    basicHoisted := a.basicHoisted + b.basicHoisted
    loadsHoisted := a.loadsHoisted + b.loadsHoisted
    loopsNoStore := a.loopsNoStore + b.loopsNoStore
    loopsNoLoad := a.loopsNoLoad + b.loopsNoLoad
    loopsNoStoreWithLoad := a.loopsNoStoreWithLoad + b.loopsNoStoreWithLoad
    loopsWithCall := a.loopsWithCall + b.loopsWithCall
    functions := a.functions + b.functions
    instructions := a.instructions + b.instructions
    loads := a.loads + b.loads
    stores := a.stores + b.stores }

instance : Add Counters := ⟨add⟩

/-- The sum of a list of counters. -/
def sum (cs : List Counters) : Counters := cs.foldl (· + ·) {}

/-- The number of instructions moved. -/
def hoisted (c : Counters) : UInt64 := c.basicHoisted + c.loadsHoisted

/-- The counters with their reported names, in the order of declaration. -/
def entries (c : Counters) : List (String × UInt64) :=
  [("NumLoops", c.numLoops),
   ("LICMNoPreheader", c.noPreheader),
   ("LICMBasic", c.basicHoisted),
   ("LICMLoadHoist", c.loadsHoisted),
   ("LoopsNoStore", c.loopsNoStore),
   ("LoopsNoLoad", c.loopsNoLoad),
   ("LoopsNoStoreWithLoad", c.loopsNoStoreWithLoad),
   ("LoopsWithCall", c.loopsWithCall),
   ("Functions", c.functions),
   ("Instructions", c.instructions),
   ("Loads", c.loads),
   ("Stores", c.stores)]

/-- The counters with the given reported names, in the order of declaration; a name that is not
given counts zero. -/
def ofNames (count : String → UInt64) : Counters :=
  { numLoops := count "NumLoops"
    noPreheader := count "LICMNoPreheader"
    basicHoisted := count "LICMBasic"
    loadsHoisted := count "LICMLoadHoist"
    loopsNoStore := count "LoopsNoStore"
    loopsNoLoad := count "LoopsNoLoad"
    loopsNoStoreWithLoad := count "LoopsNoStoreWithLoad"
    loopsWithCall := count "LoopsWithCall"
    functions := count "Functions"
    instructions := count "Instructions"
    loads := count "Loads"
    stores := count "Stores" }

/-- Reading all counters by their reported names gives them back. -/
theorem ofNames_entries (c : Counters) :
    ofNames (fun name => (c.entries.lookup name).getD 0) = c := rfl

/-- Whether one entry may stand before another: names ascend. -/
def nameLe (a b : String × UInt64) : Bool := a.1 ≤ b.1

/-- The counters with their reported names, sorted by name. -/
def sortedEntries (c : Counters) : List (String × UInt64) := c.entries.mergeSort nameLe

/-- Sorting rearranges the entries. -/
theorem sortedEntries_perm (c : Counters) : c.sortedEntries.Perm c.entries :=
  List.mergeSort_perm _ _

/-- The sorted entries ascend by name. -/
theorem sortedEntries_pairwise (c : Counters) :
    c.sortedEntries.Pairwise fun a b => a.1 ≤ b.1 := by
  have trans : ∀ a b c : String × UInt64, nameLe a b = true → nameLe b c = true →
      nameLe a c = true := fun _ _ _ hab hbc =>
    decide_eq_true (String.le_trans (of_decide_eq_true hab) (of_decide_eq_true hbc))
  have total : ∀ a b : String × UInt64, (nameLe a b || nameLe b a) = true := by
    intro a b
    simp only [nameLe, Bool.or_eq_true, decide_eq_true_eq]
    exact String.le_total a.1 b.1
  exact (List.pairwise_mergeSort trans total c.entries).imp of_decide_eq_true

/-! ## Text -/

/-- One line of the overview: the count, right-aligned in eight columns, and the name. -/
def lineText (e : String × UInt64) : String :=
  -- A count of more than eight digits is not cut.
  let count := e.2.toNat.repr
  "".pushn ' ' (8 - count.length) ++ count ++ " " ++ e.1 ++ "\n"

/-- The overview: one line for each counter, in the order of declaration. -/
def text (c : Counters) : String := String.join (c.entries.map lineText)

/-- The counters as a compact object, in the order of declaration. -/
def jsonText (c : Counters) : String :=
  "\x7b" ++ ",".intercalate (c.entries.map fun e => "\"" ++ e.1 ++ "\":" ++ e.2.toNat.repr) ++
    "\x7d"

end Counters

end LoopHoist
