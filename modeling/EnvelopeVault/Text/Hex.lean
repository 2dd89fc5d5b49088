import EnvelopeVault.Text

/-!
# Hexadecimal digits

Written in lower case, read in either case.
-/

namespace EnvelopeVault.Hex

def digit (n : Nat) : CodePoint :=
  Fin.ofNat 0x110000 (if n < 10 then 0x30 + n else 0x61 + (n - 10))

def value? (c : CodePoint) : Option Nat :=
  let n := c.val
  if 0x30 ≤ n ∧ n ≤ 0x39 then some (n - 0x30)
  else if 0x61 ≤ n ∧ n ≤ 0x66 then some (n - 0x61 + 10)
  else if 0x41 ≤ n ∧ n ≤ 0x46 then some (n - 0x41 + 10)
  else none

def ofNat : Nat → Nat → Text
  | 0, _ => []
  | width + 1, n => ofNat width (n / 16) ++ [digit (n % 16)]

def read (t : Text) : Option Nat :=
  t.foldlM (fun n c => (value? c).map (n * 16 + ·)) 0

end EnvelopeVault.Hex
