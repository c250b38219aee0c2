/-!
# The shortest decimal of a binary float

A finite binary float is `m * 2 ^ q` exactly, and the reals that round to it form an interval whose
ends count when `m` is even. Among decimals `c * 10 ^ k` in that interval the written one has the
fewest digits; of two candidates on one grid the nearer is taken, and an exact tie goes away from
zero. Only the two neighbours of the value on a grid need testing, and all tests are made in exact
arithmetic on natural numbers. `BinaryFormat.text` writes the result positionally, with no exponent
and no fraction for an integral value.
-/

namespace LoopHoist

/-- The widths of the fields of an interchange format. -/
structure BinaryFormat where
  /-- Bits of the fraction, without the leading one. -/
  fractionBits : Nat
  /-- Bits of the biased exponent. -/
  exponentBits : Nat

namespace BinaryFormat

/-- The 32-bit format. -/
def single : BinaryFormat := ⟨23, 8⟩

/-- The 64-bit format. -/
def double : BinaryFormat := ⟨52, 11⟩

/-- The exponent field of an encoding. -/
def exponentField (fmt : BinaryFormat) (bits : Nat) : Nat :=
  bits / Nat.pow 2 fmt.fractionBits % Nat.pow 2 fmt.exponentBits

/-- The fraction field of an encoding. -/
def fractionField (fmt : BinaryFormat) (bits : Nat) : Nat :=
  bits % Nat.pow 2 fmt.fractionBits

/-- Whether the sign bit of an encoding is set. -/
def isNegative (fmt : BinaryFormat) (bits : Nat) : Bool :=
  bits / Nat.pow 2 (fmt.fractionBits + fmt.exponentBits) % 2 == 1

/-- The exponent field that infinities and NaNs carry. -/
def specialExponent (fmt : BinaryFormat) : Nat := Nat.pow 2 fmt.exponentBits - 1

/-- An encoding of a NaN: the special exponent with a fraction. -/
def isNaN (fmt : BinaryFormat) (bits : Nat) : Bool :=
  fmt.exponentField bits == fmt.specialExponent && fmt.fractionField bits != 0

/-- An encoding of an infinity: the special exponent without a fraction. -/
def isInfinite (fmt : BinaryFormat) (bits : Nat) : Bool :=
  fmt.exponentField bits == fmt.specialExponent && fmt.fractionField bits == 0

/-- An encoding of one of the two zeros. -/
def isZero (fmt : BinaryFormat) (bits : Nat) : Bool :=
  fmt.exponentField bits == 0 && fmt.fractionField bits == 0

/-- Equality of the encoded numbers: a NaN equals nothing, and the two zeros are equal. -/
def sameNumber (fmt : BinaryFormat) (a b : Nat) : Bool :=
  !fmt.isNaN a && !fmt.isNaN b && (a == b || (fmt.isZero a && fmt.isZero b))

end BinaryFormat

/-! ## The interval of a float -/

/-- A positive real interval around a point, counted in quarters of a unit in the last place. -/
structure RoundingInterval where
  /-- The lower end, in units of `2 ^ exponent`. -/
  low : Nat
  /-- The point, in units of `2 ^ exponent`. -/
  value : Nat
  /-- The upper end, in units of `2 ^ exponent`. -/
  high : Nat
  /-- The binary exponent of the unit. -/
  exponent : Int
  /-- Whether the ends belong to the interval. -/
  closed : Bool

/-- The reals that round to the finite, nonzero float with the given encoding, its sign dropped.
The lower half of the interval is half as wide where the next float below has a finer grid. -/
def RoundingInterval.ofBits (fmt : BinaryFormat) (bits : Nat) : RoundingInterval :=
  let e := fmt.exponentField bits
  let frac := fmt.fractionField bits
  -- Subnormals have no leading one, and the exponent of the least normal floats.
  let m := if e = 0 then frac else frac + Nat.pow 2 fmt.fractionBits
  let bias : Nat := Nat.pow 2 (fmt.exponentBits - 1) - 1
  let q : Int := (max e 1 : Nat) - bias - fmt.fractionBits
  { low := if frac = 0 ∧ 1 < e then 4 * m - 1 else 4 * m - 2
    value := 4 * m
    high := 4 * m + 2
    exponent := q - 2
    closed := m % 2 == 0 }

/-- The power `base ^ e` for a positive exponent, and one for any other: the factor that an exponent
puts on its own side of a comparison. -/
def raise (base : Nat) (e : Int) : Nat := Nat.pow base e.toNat

/-- `a * 2 ^ p ≤ c * 10 ^ k`, or `<` if `strict`, without fractions. -/
def dyadicBelow (strict : Bool) (a : Nat) (p : Int) (c : Nat) (k : Int) : Bool :=
  let left := a * raise 2 p * raise 10 (-k)
  let right := c * raise 10 k * raise 2 (-p)
  if strict then left < right else left ≤ right

/-- `c * 10 ^ k ≤ a * 2 ^ p`, or `<` if `strict`, without fractions. -/
def dyadicAbove (strict : Bool) (a : Nat) (p : Int) (c : Nat) (k : Int) : Bool :=
  let left := a * raise 2 p * raise 10 (-k)
  let right := c * raise 10 k * raise 2 (-p)
  if strict then right < left else right ≤ left

namespace RoundingInterval

/-- Whether the decimal `c * 10 ^ k` lies in the interval. -/
def holds (r : RoundingInterval) (c : Nat) (k : Int) : Bool :=
  dyadicBelow (!r.closed) r.low r.exponent c k && dyadicAbove (!r.closed) r.high r.exponent c k

/-- The largest `c` with `c * 10 ^ k` at most the value. -/
def below (r : RoundingInterval) (k : Int) : Nat :=
  (r.value * raise 2 r.exponent * raise 10 (-k)) / (raise 10 k * raise 2 (-r.exponent))

/-- Whether `(c + 1) * 10 ^ k` is at least as near to the value as `c * 10 ^ k`, both being its
neighbours: the middle between them is at most the value. -/
def upperIsNearer (r : RoundingInterval) (c : Nat) (k : Int) : Bool :=
  dyadicAbove false (2 * r.value) r.exponent (2 * c + 1) k

/-- The decimal on the grid of `10 ^ k` that is written for the interval, if the grid meets it. -/
def onGrid? (r : RoundingInterval) (k : Int) : Option Nat :=
  let c := r.below k
  match r.holds c k, r.holds (c + 1) k with
  | true, true => some (if r.upperIsNearer c k then c + 1 else c)
  | true, false => some c
  | false, true => some (c + 1)
  | false, false => none

/-- The least exponent whose power of ten is above the value: the count of digits of the value
scaled up to a number that is at least one, less the scale. -/
def magnitude (r : RoundingInterval) : Int :=
  -- Scaled by that power of ten the value is at least one, so its digits can be counted.
  let scale := (-r.exponent).toNat
  ((r.below (-(scale : Int))).repr.length : Int) - scale

/-- The first grid, from the given one downwards, that meets the interval. -/
def firstGrid (r : RoundingInterval) : Nat → Int → Nat × Int
  | 0, k => (r.below k, k)
  | n + 1, k =>
    match r.onGrid? k with
    | some c => (c, k)
    | none => firstGrid r n (k - 1)

/-- The coefficient and the exponent of the written decimal: the search starts on the grid of the
power above the value and ends at seventeen digits, which suffice for either format. -/
def shortest (r : RoundingInterval) : Nat × Int := r.firstGrid 18 r.magnitude

end RoundingInterval

/-! ## Positional text -/

/-- The text of `c * 10 ^ k` with neither exponent nor trailing zeros after the point. -/
def positional (c : Nat) (k : Int) : String :=
  if 0 ≤ k then
    (c * raise 10 k).repr
  else
    let places := (-k).toNat
    let whole := c / Nat.pow 10 places
    let digits := (c % Nat.pow 10 places).repr.toList
    let padded := List.replicate (places - digits.length) '0' ++ digits
    let kept := (padded.reverse.dropWhile (· == '0')).reverse
    if kept.isEmpty then whole.repr else whole.repr ++ "." ++ String.ofList kept

/-- The text of an encoded float: the shortest decimal that reads back, `NaN` for every NaN, and a
minus sign for negative numbers and the negative zero. -/
def BinaryFormat.text (fmt : BinaryFormat) (bits : Nat) : String :=
  if fmt.isNaN bits then "NaN"
  else
    let magnitude :=
      if fmt.isInfinite bits then "inf"
      else if fmt.isZero bits then "0"
      else
        let d := (RoundingInterval.ofBits fmt bits).shortest
        positional d.1 d.2
    if fmt.isNegative bits then "-" ++ magnitude else magnitude

end LoopHoist
