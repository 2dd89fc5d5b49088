import EnvelopeVault.Text

/-!
# Decimal numerals

Digits with a point among them, before them or after them. The digits and the
place of the point are all that counts: signs stand outside, and zeros at
either end of the digits add nothing.
-/

namespace EnvelopeVault

/-- The digits, with the point `places` places after their start. -/
structure Decimal where
  digits : Text
  places : Int
deriving DecidableEq, Repr

namespace Decimal

def isExponentMark (c : CodePoint) : Bool := c == 0x65 || c == 0x45

def exponent? : Text → Option Int
  | [] => some 0
  | mark :: rest =>
    let (negative, digits) : Bool × Text :=
      match rest with
      | 0x2D :: digits => (true, digits)
      | 0x2B :: digits => (false, digits)
      | _ => (false, rest)
    if isExponentMark mark && !digits.isEmpty && digits.all CodePoint.isDigit then
      some (if negative then -(Text.digitsValue digits : Int) else Text.digitsValue digits)
    else none

def ofParts (whole fraction : Text) (exponent : Int) : Decimal :=
  ⟨whole ++ fraction, whole.length + exponent⟩

def normalized (d : Decimal) : Decimal :=
  let digits := d.digits.dropWhile (· == 0x30)
  ⟨digits, d.places - (d.digits.length - digits.length : Nat)⟩

def trimmed (d : Decimal) : Decimal :=
  { d with digits := (d.digits.reverse.dropWhile (· == 0x30)).reverse }

/-- At most `count` digits, and one more that tells whether any of the others is not zero. -/
def cut (count : Nat) (d : Decimal) : Decimal :=
  let others := d.digits.drop count
  if others.all (· == 0x30) then { d with digits := d.digits.take count }
  else { d with digits := d.digits.take count ++ [0x31] }

/-- The power of ten that the digits, as a whole number, are multiplied by. -/
def exponent (d : Decimal) : Int := d.places - d.digits.length

def numerator (d : Decimal) : Nat :=
  Text.digitsValue d.digits * Nat.pow 10 d.exponent.toNat

def denominator (d : Decimal) : Nat := Nat.pow 10 (-d.exponent).toNat

/-- Positional from 0.0001 up to below 10^16, with an exponent of two digits or more otherwise. -/
def text (d : Decimal) : Text :=
  if -4 < d.places && d.places ≤ 0 then "0." ++ Text.zeros (-d.places).toNat ++ d.digits
  else if 0 < d.places && d.places ≤ 16 then
    let whole : Text := d.digits.take d.places.toNat
    let fraction : Text := d.digits.drop d.places.toNat
    whole ++ Text.zeros (d.places.toNat - whole.length) ++ "." ++
      (if fraction.isEmpty then [0x30] else fraction)
  else
    let exponent := d.places - 1
    let point : Text := if d.digits.length = 1 then [] else [0x2E]
    d.digits.take 1 ++ point ++ d.digits.drop 1 ++
      (if exponent < 0 then "e-" else "e+") ++ Text.padded 2 exponent.natAbs

end Decimal
end EnvelopeVault
