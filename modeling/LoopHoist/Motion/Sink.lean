import LoopHoist.Motion.Counters
import LoopHoist.Motion.PassError

/-!
# Counter reports into a bounded sink

The report has one line `name,count` for each counter, sorted by name, and is written piece by
piece. A sink keeps the bytes it is given until it is full; the write that does not fit leaves what
does and fails, and nothing is written after it.
-/

namespace LoopHoist

/-- A place that takes bytes, up to a limit if it has one. -/
structure Sink where
  /-- The number of bytes that the sink takes. -/
  limit : Option Nat := none
  /-- The bytes taken so far. -/
  bytes : List UInt8 := []
deriving DecidableEq, Inhabited

namespace Sink

/-- The bytes of a text in the encoding in which it is written. -/
def encode (s : String) : List UInt8 := s.toByteArray.data.toList

/-- The sink after a piece is offered to it, and whether the piece fits. -/
def write (s : Sink) (piece : List UInt8) : Sink × Bool :=
  match s.limit with
  | none => ({ s with bytes := s.bytes ++ piece }, true)
  | some n =>
    -- What fits of the piece is taken also when the rest does not.
    let room := n - s.bytes.length
    ({ s with bytes := s.bytes ++ piece.take room }, piece.length ≤ room)

/-- The sink after the pieces are offered in order, up to the first that does not fit, and whether
all fit. -/
def writeAll (s : Sink) : List (List UInt8) → Sink × Bool
  | [] => (s, true)
  | piece :: rest =>
    match s.write piece with
    | (s', true) => s'.writeAll rest
    | (s', false) => (s', false)

/-- The text of the bytes in the sink, if they are the encoding of one. -/
def text? (s : Sink) : Option String := String.fromUTF8? ⟨s.bytes.toArray⟩

end Sink

namespace Counters

/-- The pieces of the line of one counter. -/
def csvPieces (e : String × UInt64) : List String := [e.1, ",", e.2.toNat.repr, "\n"]

/-- The whole report. -/
def csvText (c : Counters) : String := String.join (c.sortedEntries.flatMap csvPieces)

/-- The sink after the report is written into it, and whether it fitted. -/
def writeCsv (c : Counters) (s : Sink) : Sink × Except PassError Unit :=
  match s.writeAll ((c.sortedEntries.flatMap csvPieces).map Sink.encode) with
  | (s', true) => (s', .ok ())
  | (s', false) => (s', .error .io)

end Counters

end LoopHoist
