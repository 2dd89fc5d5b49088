import EnvelopeVault.Text.Hex

/-!
# Universally unique identifiers

A 128-bit number. Its text has lower-case digits in groups of 8, 4, 4, 4 and
12; reading also takes upper case, braces around it and dashes anywhere or
nowhere.
-/

namespace EnvelopeVault

structure Uuid where
  number : Nat
  lt : number < 0x100000000000000000000000000000000
deriving DecidableEq, Repr

namespace Uuid

def text (u : Uuid) : Text :=
  let digits := Hex.ofNat 32 u.number
  Text.intercalate "-"
    [digits.take 8, (digits.drop 8).take 4, (digits.drop 12).take 4, (digits.drop 16).take 4,
      digits.drop 20]

def isBrace (c : CodePoint) : Bool := c == 0x7B || c == 0x7D

def read (t : Text) : Option Uuid :=
  let inner := ((t.dropWhile isBrace).reverse.dropWhile isBrace).reverse
  let digits := inner.filter (· != 0x2D)
  if digits.length = 32 then
    (Hex.read digits).bind fun n =>
      if h : n < 0x100000000000000000000000000000000 then some ⟨n, h⟩ else none
  else none

end Uuid
end EnvelopeVault
