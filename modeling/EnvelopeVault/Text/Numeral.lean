import EnvelopeVault.Text.Blank

/-!
# Whole numbers as text

A plain numeral has a sign or none and no superfluous zeros. What is read as a
number is freer: blanks around it, zeros and underscores before the digits,
underscores between them, and a fraction of zeros are taken away first. What
is left has to be plain.
-/

namespace EnvelopeVault.Numeral

/-- No numeral has more digits. -/
def maxDigits : Nat := 4300

/-- A number with more digits has no numeral. -/
def isWritable (n : Int) : Bool := (Text.ofNat n.natAbs).length ≤ maxDigits

def natural? (digits : Text) : Option Nat :=
  if digits.isEmpty || !digits.all CodePoint.isDigit || maxDigits < digits.length ||
      (digits.head? == some 0x30 && digits.length != 1) then none
  else some (Text.digitsValue digits)

def plain? : Text → Option Int
  | 0x2D :: digits => (natural? digits).map fun n => -(n : Int)
  | digits => (natural? digits).map Int.ofNat

/-- Goes on after a zero or an underscore, `last`. One of them stays before a point, and at
the end. -/
def skipZeros (last : CodePoint) : Text → Option Text
  | [] => some [last]
  | c :: rest =>
    if c = 0x30 || c = 0x5F then skipZeros c rest
    else if c.isDigit || c = 0x2D then some (c :: rest)
    else if c = 0x2E then some (last :: c :: rest)
    else none

/-- Takes away zeros, and underscores among them, before the digits or before a minus sign. -/
def withoutZeros? : Text → Option Text
  | [] => none
  | c :: rest =>
    if c = 0x30 then skipZeros c rest
    else if c.isDigit then some (c :: rest)
    else none

def withoutFraction (t : Text) : Text :=
  let fraction := (t.dropWhile (· != 0x2E)).drop 1
  if !fraction.isEmpty && fraction.all (· == 0x30) then t.takeWhile (· != 0x2E) else t

def hasDoubleUnderscore : Text → Bool
  | 0x5F :: 0x5F :: _ => true
  | _ :: rest => hasDoubleUnderscore rest
  | [] => false

def withoutUnderscores (t : Text) : Text :=
  if t.head? == some 0x5F || t.getLast? == some 0x5F || hasDoubleUnderscore t then t
  else t.filter (· != 0x5F)

/-- What is left of a text without a sign, if its beginning is that of a number. -/
def simplified? (t : Text) : Option Text :=
  (withoutZeros? t).map fun t => withoutUnderscores (withoutFraction t)

def read (t : Text) : Option Int :=
  match t.trim with
  -- what follows the zeros may have a minus sign of its own, but a numeral has one at most
  | 0x2D :: unsigned => (simplified? unsigned).bind fun digits => plain? (0x2D :: digits)
  | 0x2B :: unsigned => (simplified? unsigned).bind plain?
  | unsigned => (simplified? unsigned).bind plain?

def isOversized (t : Text) : Bool :=
  let unsigned := if t.head? == some 0x2D then t.drop 1 else t
  let digits := unsigned.takeWhile CodePoint.isDigit
  digits.head? != some 0x30 && maxDigits < digits.length

end EnvelopeVault.Numeral
