import ScriptEngine.Number.Double

/-!
Decimal text of doubles. The digits written are the fewest that read back as the same double
and, among those, the nearest to it; they are always laid out positionally, never with an
exponent. Reading accepts the same notation and also exponents.
-/

namespace ScriptEngine

namespace Double

/-- Reals that round to a finite positive double, in quarters of one step of its significand,
counted from the double itself: `below` down and `above` up, ends included or not. -/
structure Neighbourhood where
  /-- Quarter steps in the double. -/
  centre : Nat
  below : Nat
  above : Nat
  closed : Bool

/-- A step below a power of two is half as wide, except at the least exponent. -/
def neighbourhood (x : Double) : Neighbourhood where
  centre := 4 * x.significand
  below := if x.fraction = 0 ∧ 1 < x.exponent then 1 else 2
  above := 2
  closed := x.significand % 2 == 0

/-- Whether `point` quarter steps over `den` rounds to the double. -/
def Neighbourhood.contains (n : Neighbourhood) (point den : Nat) : Bool :=
  let low := (n.centre - n.below) * den
  let high := (n.centre + n.above) * den
  if n.closed then low ≤ point && point ≤ high else low < point && point < high

/-- The whole multiple of `10 ^ power` to write for a double, if its nearest multiple below or
above rounds to it. `num / den` is the double in quarter steps per multiple. -/
def candidate (n : Neighbourhood) (unitNum unitDen : Nat) : Option Nat :=
  -- One multiple weighs `unitNum / unitDen` quarter steps.
  let target := n.centre * unitDen
  let down := target / unitNum
  let remainder := target % unitNum
  let downFits := down != 0 && n.contains (down * unitNum) unitDen
  let upFits := n.contains ((down + 1) * unitNum) unitDen
  if upFits && (!downFits || unitNum ≤ 2 * remainder) then some (down + 1)
  else if downFits then some down
  else none

/-- Weight of `10 ^ power` in quarter steps of `x`, as a ratio. -/
def quarterSteps (x : Double) (power : Int) : Nat × Nat :=
  let num := 4 * unitsPerOne
  let den := 2 ^ x.scale
  if 0 ≤ power then (10 ^ power.toNat * num, den) else (num, 10 ^ (-power).toNat * den)

/-- Try coarse powers of ten first. -/
def shortestFrom (x : Double) : Nat → Int → Nat × Int
  | 0, power => (0, power)
  | fuel + 1, power =>
    let (num, den) := x.quarterSteps power
    match candidate x.neighbourhood num den with
    | some digits => (digits, power)
    | none => shortestFrom x fuel (power - 1)

/-- The fewest digits that read back as the finite double `x`, with the power of ten of the
last one. Zero has the single digit zero. -/
def shortest (x : Double) : Nat × Int :=
  if x.magnitude = 0 then (0, 0)
  else
    let whole := x.magnitude / unitsPerOne
    -- The leading digit of `x` is not above this power.
    let top : Int :=
      if whole = 0 then -(((unitsPerOne / x.magnitude).log2 * 3 / 10 : Nat) : Int)
      else (Nat.toDigits 10 whole).length
    shortestFrom x 40 top

/-- Digits and power of ten laid out without an exponent. -/
def positional (digits : Nat) (power : Int) : String :=
  let text := Nat.toDigits 10 digits
  if 0 ≤ power then String.ofList (text ++ List.replicate power.toNat '0')
  else
    let places := (-power).toNat
    let padded := List.replicate (places + 1 - text.length) '0' ++ text
    let cut := padded.length - places
    String.ofList (padded.take cut ++ '.' :: padded.drop cut)

/-- The fewest digits that read back, laid out positionally. -/
def render (x : Double) : String :=
  let sign := if x.isNegative then "-" else ""
  if x.isNaN then "NaN"
  else if x.isInfinite then sign ++ "inf"
  else
    let (digits, power) := x.shortest
    sign ++ positional digits power

/-- The exact whole number, with the sign of a negative zero kept. -/
def renderWhole (x : Double) : String :=
  (if x.isNegative then "-" else "") ++ toString x.truncate.natAbs

end Double

namespace Decimal

/-- Split off the longest run of decimal digits. -/
def digits (text : List Char) : List Char × List Char := text.span Char.isDigit

/-- Value of a run of decimal digits. -/
def value (text : List Char) : Nat := text.foldl (fun n c => 10 * n + (c.toNat - '0'.toNat)) 0

/-- The power of ten after the letter `e`, if the whole text is one. -/
def exponent? : List Char → Option Int
  | '+' :: rest => unsigned rest
  | '-' :: rest => (unsigned rest).map (- ·)
  | rest => unsigned rest
where
  unsigned (text : List Char) : Option Int :=
    if text ≠ [] ∧ text.all Char.isDigit then some (value text) else none

/-- A decimal without sign: digits, an optional fraction and an optional exponent. One of the
two runs of digits may be empty. -/
def unsigned? (negative : Bool) (text : List Char) : Option Double :=
  let (whole, rest) := digits text
  let (places, rest) := match rest with
    | '.' :: tail => digits tail
    | _ => ([], rest)
  if whole = [] ∧ places = [] then none
  else
    let mantissa := value (whole ++ places)
    match rest with
    | [] => some (.ofDecimal negative mantissa (-(places.length : Int)))
    | mark :: tail =>
      if mark = 'e' ∨ mark = 'E' then
        (exponent? tail).map fun power => .ofDecimal negative mantissa (power - places.length)
      else none

/-- Words that stand for a double, in any letter case. -/
def named? (negative : Bool) (text : List Char) : Option Double :=
  match String.ofList (text.map Char.toLower) with
  | "inf" | "infinity" => some (.infinity negative)
  | "nan" => some .nan
  | _ => none

/-- Read a signed decimal; the whole text must be used. -/
def read? (text : List Char) : Option Double :=
  match text with
  | '+' :: rest => body false rest
  | '-' :: rest => body true rest
  | rest => body false rest
where
  body (negative : Bool) (text : List Char) : Option Double :=
    (named? negative text).or (unsigned? negative text)

end Decimal
end ScriptEngine
