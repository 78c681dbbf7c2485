import ThreadedCode.Single.Nearest

/-!
Printing: the shortest decimal that reads back. The reals that round to a single form an interval,
whose ends belong to it exactly if the single's count is even. Of the decimals in that interval with
the fewest digits the one nearest to the single is printed, on a tie the larger one.

Every finite single is a whole multiple of `10 ^ -149`. So all comparisons are between whole numbers,
in quarters of that grain, since the ends of the interval lie halfway between two singles.
-/
namespace ThreadedCode
namespace Single

/-- The decimal places that a finite single can have. -/
def decimalPlaces : Nat := 149

/-- The reals that round to a single, in quarters of `10 ^ -149`. -/
structure Interval where
  low : Nat
  middle : Nat
  high : Nat
  closed : Bool
deriving DecidableEq, Repr

def Interval.contains (i : Interval) (n : Nat) : Bool :=
  if i.closed then i.low ≤ n ∧ n ≤ i.high else i.low < n ∧ n < i.high

/-- The reals that round to a finite magnitude. Below a power of two the singles lie half as far
apart as above it. -/
def interval (x : Single) : Interval :=
  let (count, unit) := x.countAndUnit
  let scale := Nat.pow 2 unit * Nat.pow 5 decimalPlaces
  let below := if count = fractionLimit ∧ 0 < unit then 1 else 2
  ⟨(4 * count - below) * scale, 4 * count * scale, (4 * count + 2) * scale, count % 2 = 0⟩

/-- The multiple of `grid` that lies in the interval and nearest to its middle. -/
def Interval.pick? (i : Interval) (grid : Nat) : Option Nat :=
  let lower := i.middle / grid * grid
  let upper := lower + grid
  match i.contains lower, i.contains upper with
  | true, true => some (if 2 * i.middle < lower + upper then lower else upper)
  | true, false => some lower
  | false, true => some upper
  | false, false => none

/-- The first pick on the grids of `10 ^ (places - 1)`, `10 ^ (places - 2)` and so on. The middle
itself lies on the finest grid. -/
def Interval.pickFrom (i : Interval) : (places : Nat) → Nat
  | 0 => i.middle
  | places + 1 =>
    match i.pick? (4 * Nat.pow 10 places) with
    | some n => n
    | none => i.pickFrom places

/-- The shortest decimal that reads back, as a count of `10 ^ -149`. -/
def shortest (x : Single) : Nat :=
  let i := x.interval
  i.pickFrom (toString (i.middle / 4)).length / 4

/-- A count of `10 ^ -149` in digits, without an exponent. -/
def positional (n : Nat) : String :=
  let digits := (toString (n % Nat.pow 10 decimalPlaces)).toList
  let padded := List.replicate (decimalPlaces - digits.length) '0' ++ digits
  let fraction := (padded.reverse.dropWhile (· == '0')).reverse
  let whole := toString (n / Nat.pow 10 decimalPlaces)
  if fraction.isEmpty then whole else whole ++ "." ++ String.ofList fraction

def sign (x : Single) : String := if x.isNegative then "-" else ""

/-- How a single is printed. -/
def text (x : Single) : String :=
  if x.isNan then "NaN"
  else if x.isInfinite then x.sign ++ "inf"
  else if x.magnitude = 0 then x.sign ++ "0"
  else x.sign ++ positional x.shortest

end Single
end ThreadedCode
