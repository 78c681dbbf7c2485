import ThreadedCode.Single.Basic

/-!
Rounding: the single that is nearest to a positive fraction. Every finite single is a whole multiple
of a power of two, its unit in the last place; a fraction is first given a unit and then rounded to
a multiple of it, ties to even. Units are counted from the smallest one, `2 ^ -149`.
-/
namespace ThreadedCode
namespace Single

/-- The exponent of the smallest unit, negated. -/
def unitBias : Nat := 149

/-- The fraction field has twenty-three bits. -/
def fractionLimit : Nat := 8388608

/-- The whole number nearest to `n / d`; a tie goes to the even one. -/
def nearestWhole (n d : Nat) : Nat :=
  let quotient := n / d
  let remainder := n % d
  if 2 * remainder < d ∨ (2 * remainder = d ∧ quotient % 2 = 0) then quotient else quotient + 1

/-- The unit of `n / d`: the smallest one in which it counts less than `2 ^ 24`. -/
def unitOf (n d : Nat) : Nat :=
  let unit := n.log2 + 125 - d.log2
  if 2 * fractionLimit * (d * Nat.pow 2 unit) ≤ n * Nat.pow 2 unitBias then unit + 1 else unit

/-- The single nearest to `n / d`. From halfway between the largest finite single and the next power
of two on, that is infinity. -/
def nearest (n d : Nat) : Single :=
  if n = 0 then zero
  else
    let unit := unitOf n d
    let count := nearestWhole (n * Nat.pow 2 unitBias) (d * Nat.pow 2 unit)
    ⟨UInt32.ofNat (min (unit * fractionLimit + count) infinity.bits.toNat)⟩

/-- A finite magnitude as a count of its unit. -/
def countAndUnit (x : Single) : Nat × Nat :=
  match x.magnitude / fractionLimit with
  | 0 => (x.magnitude, 0)
  | unit + 1 => (x.magnitude % fractionLimit + fractionLimit, unit)

end Single
end ThreadedCode
