import EnvelopeVault.Bytes
import EnvelopeVault.Text

/-!
# UTF-8

Strict in both directions: surrogates have no encoding, and a decoder refuses
overlong forms, encoded surrogates and values above U+10FFFF. A refusal says
where it happened. The octets at fault are the longest beginning of a
well-formed sequence, or the one octet that begins none.
-/

namespace EnvelopeVault

/-- A run of `count + 1` surrogates, the first of them `first`, at index `start`. -/
structure Unencodable where
  first : CodePoint
  start : Nat
  count : Nat
deriving DecidableEq, Repr

inductive Utf8Fault where
  | badStart
  | badContinuation
  | truncated
deriving DecidableEq, Repr

/-- The octets `faulty` at offset `start` do not begin, or do not finish, a sequence. -/
structure Undecodable where
  start : Nat
  faulty : Bytes
  reason : Utf8Fault
deriving DecidableEq, Repr

namespace Text

def unencodableFrom (start : Nat) : Text → Option Unencodable
  | [] => none
  | c :: rest =>
    if c.isSurrogate then some ⟨c, start, (rest.takeWhile CodePoint.isSurrogate).length⟩
    else unencodableFrom (start + 1) rest

end Text

namespace Utf8

def octet (n : Nat) : UInt8 := UInt8.ofNat n

def encodePoint (c : CodePoint) : Bytes :=
  let n := c.val
  if n < 0x80 then [octet n]
  else if n < 0x800 then [octet (0xC0 + n / 64), octet (0x80 + n % 64)]
  else if n < 0x10000 then
    [octet (0xE0 + n / 4096), octet (0x80 + n / 64 % 64), octet (0x80 + n % 64)]
  else
    [octet (0xF0 + n / 262144), octet (0x80 + n / 4096 % 64), octet (0x80 + n / 64 % 64),
      octet (0x80 + n % 64)]

def encode (t : Text) : Except Unencodable Bytes :=
  match t.unencodableFrom 0 with
  | some run => .error run
  | none => .ok (t.flatMap encodePoint)

def isContinuation (b : UInt8) : Bool := 0x80 ≤ b && b < 0xC0

/-- Whether `b` may be the second octet after `a`: the restrictions beyond those of any
continuation octet exclude overlong forms, surrogates and values above U+10FFFF. -/
def admitsSecond (a b : UInt8) : Bool :=
  isContinuation b && (a != 0xE0 || 0xA0 ≤ b) && (a != 0xED || b < 0xA0) &&
    (a != 0xF0 || 0x90 ≤ b) && (a != 0xF4 || b < 0x90)

def point (n : Nat) : CodePoint := Fin.ofNat 0x110000 n

def low (b : UInt8) : Nat := b.toNat - 0x80

def decodeFrom (start : Nat) : Bytes → Except Undecodable Text
  | [] => .ok []
  | a :: rest =>
    if a < 0x80 then (point a.toNat :: ·) <$> decodeFrom (start + 1) rest
    else if a < 0xC2 || 0xF5 ≤ a then .error ⟨start, [a], .badStart⟩
    else
      match rest with
      | [] => .error ⟨start, [a], .truncated⟩
      | b :: rest =>
        if !admitsSecond a b then .error ⟨start, [a], .badContinuation⟩
        else if a < 0xE0 then
          (point ((a.toNat - 0xC0) * 64 + low b) :: ·) <$> decodeFrom (start + 2) rest
        else
          match rest with
          | [] => .error ⟨start, [a, b], .truncated⟩
          | c :: rest =>
            if !isContinuation c then .error ⟨start, [a, b], .badContinuation⟩
            else if a < 0xF0 then
              (point ((a.toNat - 0xE0) * 4096 + low b * 64 + low c) :: ·) <$>
                decodeFrom (start + 3) rest
            else
              match rest with
              | [] => .error ⟨start, [a, b, c], .truncated⟩
              | d :: rest =>
                if !isContinuation d then .error ⟨start, [a, b, c], .badContinuation⟩
                else
                  (point ((a.toNat - 0xF0) * 262144 + low b * 4096 + low c * 64 + low d) :: ·) <$>
                    decodeFrom (start + 4) rest

def decode (b : Bytes) : Except Undecodable Text := decodeFrom 0 b

end Utf8
end EnvelopeVault
