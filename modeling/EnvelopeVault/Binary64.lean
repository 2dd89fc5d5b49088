import EnvelopeVault.Decimal

/-!
# Floating-point numbers

Finite numbers of the 64-bit binary format, exactly. Each is a whole multiple
of 2^-1074, with at most 53 significant bits. An operation takes the exact
result and rounds it to the nearest such number; of two that are equally near,
the one whose last bit is zero. The text of a number has the fewest digits
that read back as the number.
-/

namespace EnvelopeVault

/-- `units` is the absolute value in units of 2^-1074. Zero has both signs. -/
structure Binary64 where
  negative : Bool
  units : Nat
deriving DecidableEq, Repr

namespace Binary64

def one : Nat := 1 <<< 1074

/-- No number of the format has so many units. -/
def limit : Nat := 1 <<< 2098

/-- The nearest number to a fraction of units, as if there were no limit. -/
def nearest (numerator denominator : Nat) : Nat :=
  -- how many bits the quotient has beyond the 53 that are kept
  let shift := (numerator / denominator).log2 + 1 - 53
  let step := denominator <<< shift
  let low := numerator / step
  let rest := numerator % step
  let isNearerAbove := step < 2 * rest || (2 * rest == step && low % 2 == 1)
  (if isNearerAbove then low + 1 else low) <<< shift

def zero : Binary64 := ⟨false, 0⟩

def ofUnits? (negative : Bool) (numerator denominator : Nat) : Option Binary64 :=
  let units := nearest numerator denominator
  if units < limit then some ⟨negative, units⟩ else none

def ofInt? (n : Int) : Option Binary64 := ofUnits? (n < 0) (n.natAbs * one) 1

/-- More significant digits than any number, or any point halfway between two, has. -/
def significantDigits : Nat := 800

/-- The number nearest to a decimal. Most numerals that are far out of range are decided by
the place of their point. -/
def ofDecimal? (negative : Bool) (d : Decimal) : Option Binary64 :=
  let d := (d.normalized).cut significantDigits
  if d.digits.isEmpty || d.places < -330 then some ⟨negative, 0⟩
  else if 310 < d.places then none
  else ofUnits? negative (d.numerator * one) d.denominator

def signed (x : Binary64) : Int := if x.negative then -(x.units : Int) else x.units

/-- Whether two numbers are equal: the sign of zero does not count. -/
def same (x y : Binary64) : Bool := x.signed == y.signed

def floor (x : Binary64) : Int := x.signed.fdiv one

def isWhole (x : Binary64) : Bool := x.units % one == 0

def isZero (x : Binary64) : Bool := x.units == 0

/-- The number and 1, added. A sum can reach no limit. -/
def successor (x : Binary64) : Binary64 :=
  -- 1 is far below the last bit of any number near the limit
  let sum := x.signed + one
  ⟨sum < 0, nearest sum.natAbs 1⟩

/-! ## Text -/

/-- How many digits the number has before the point; zeros after it count below zero. -/
def places (x : Binary64) : Int :=
  -- the smallest positive number times 10^400 is still more than 1
  (Text.ofNat (x.units * Nat.pow 10 400 / one)).length - 400

def decimal (digits : Nat) (exponent : Int) : Decimal :=
  let digits := Text.ofNat digits
  ⟨digits, digits.length + exponent⟩

/-- The two decimals of `count` digits next to the number, the nearer first; of two equally
near ones the even. -/
def neighbours (x : Binary64) (count : Nat) : List Decimal :=
  let exponent := x.places - count
  let numerator := x.units * Nat.pow 10 (-exponent).toNat
  let denominator := one * Nat.pow 10 exponent.toNat
  let low := numerator / denominator
  let rest := numerator % denominator
  let below := decimal low exponent
  let above := decimal (low + 1) exponent
  if 2 * rest < denominator || (2 * rest == denominator && low % 2 == 0) then [below, above]
  else [above, below]

def readsBack (x : Binary64) (d : Decimal) : Bool := ofDecimal? x.negative d == some x

/-- The decimal of the fewest digits that reads back, the nearest of these. Seventeen digits
always do. -/
def shortest (x : Binary64) : Option Decimal :=
  (List.range' 1 17).findSome? fun count => (x.neighbours count).find? x.readsBack

def text (x : Binary64) : Text :=
  let body : Text :=
    if x.isZero then "0.0"
    else
      match x.shortest with
      | some d => d.trimmed.text
      | none => []
  if x.negative then 0x2D :: body else body

end Binary64
end EnvelopeVault
