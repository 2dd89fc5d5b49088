/-!
# Octet strings

Keys, nonces, tags and ciphertexts are lists of octets. Numbers enter them
big-endian in a fixed width and leave them the same way.
-/

namespace EnvelopeVault

abbrev Bytes := List UInt8

namespace Bytes

/-- The last `width` base-256 digits of `n`, most significant first. -/
def ofNat : Nat → Nat → Bytes
  | 0, _ => []
  | width + 1, n => ofNat width (n / 256) ++ [UInt8.ofNat n]

def toNat (b : Bytes) : Nat := b.foldl (fun n octet => n * 256 + octet.toNat) 0

def xor (a b : Bytes) : Bytes := List.zipWith (· ^^^ ·) a b

theorem length_ofNat (width n : Nat) : (ofNat width n).length = width := by
  induction width generalizing n with
  | zero => rfl
  | succ width ih => simp [ofNat, ih]

end Bytes
end EnvelopeVault
