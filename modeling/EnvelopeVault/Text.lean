/-!
# Text

Text is a sequence of Unicode code points. Surrogates are among them: they may
stand in a text that a caller hands over, and only encoding such a text fails.
The order on texts is the order of their code points.
-/

namespace EnvelopeVault

abbrev CodePoint := Fin 0x110000

/-- Literals denote code points. -/
instance CodePoint.instNeZero : @NeZero Nat Zero.ofOfNat0 0x110000 := ⟨Nat.succ_ne_zero _⟩

abbrev Text := List CodePoint

namespace CodePoint

def ofChar (c : Char) : CodePoint :=
  ⟨c.val.toNat, by
    have h := c.valid
    simp only [UInt32.isValidChar, Nat.isValidChar] at h
    omega⟩

def isSurrogate (c : CodePoint) : Bool := 0xD800 ≤ c.val && c.val < 0xE000

def isDigit (c : CodePoint) : Bool := 0x30 ≤ c.val && c.val ≤ 0x39

def digitValue (c : CodePoint) : Nat := c.val - 0x30

end CodePoint

namespace Text

def ofString (s : String) : Text := s.toList.map CodePoint.ofChar

instance : Coe String Text := ⟨ofString⟩

def ofNat (n : Nat) : Text := (Nat.toDigits 10 n).map CodePoint.ofChar

def ofInt : Int → Text
  | .ofNat n => ofNat n
  | .negSucc n => "-" ++ ofNat (n + 1)

def digitsValue (t : Text) : Nat := t.foldl (fun n c => n * 10 + c.digitValue) 0

def zeros (n : Nat) : Text := List.replicate n 0x30

def padded (width n : Nat) : Text :=
  let digits := ofNat n
  zeros (width - digits.length) ++ digits

def intercalate (separator : Text) (parts : List Text) : Text :=
  (parts.intersperse separator).flatten

/-- The order of code points, a text before any that goes on after it. -/
def le : Text → Text → Bool
  | [], _ => true
  | _ :: _, [] => false
  | a :: s, b :: t => a.val < b.val || (a.val == b.val && le s t)

def sorted (ts : List Text) : List Text := ts.mergeSort le

end Text
end EnvelopeVault
