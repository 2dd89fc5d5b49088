import EnvelopeVault.Bytes
import EnvelopeVault.Text

/-!
# Base64

The standard alphabet with padding. `decodeStrict` is the tolerant reading that
root keys get: the bits that the last character does not need are ignored, and
any padding may follow whole groups. `decode` accepts only what `encode`
writes. `decodeLoose` passes over every character that is no digit.
-/

namespace EnvelopeVault.Base64

def pad : CodePoint := 0x3D

def digit (n : Nat) : CodePoint :=
  Fin.ofNat 0x110000
    (if n < 26 then 0x41 + n
    else if n < 52 then 0x61 + (n - 26)
    else if n < 62 then 0x30 + (n - 52)
    else if n = 62 then 0x2B
    else 0x2F)

def value? (c : CodePoint) : Option Nat :=
  let n := c.val
  if 0x41 ≤ n ∧ n ≤ 0x5A then some (n - 0x41)
  else if 0x61 ≤ n ∧ n ≤ 0x7A then some (n - 0x61 + 26)
  else if 0x30 ≤ n ∧ n ≤ 0x39 then some (n - 0x30 + 52)
  else if n = 0x2B then some 62
  else if n = 0x2F then some 63
  else none

/-- Three octets are four digits; a rest of one or two is padded to a group. -/
def encode : Bytes → Text
  | [] => []
  | [a] => [digit (a.toNat / 4), digit (a.toNat % 4 * 16), pad, pad]
  | [a, b] =>
    [digit (a.toNat / 4), digit (a.toNat % 4 * 16 + b.toNat / 16), digit (b.toNat % 16 * 4), pad]
  | a :: b :: c :: rest =>
    digit (a.toNat / 4) :: digit (a.toNat % 4 * 16 + b.toNat / 16) ::
      digit (b.toNat % 16 * 4 + c.toNat / 64) :: digit (c.toNat % 64) :: encode rest

/-- The whole octets in a row of six-bit digits; left-over bits are dropped. -/
def octets : List Nat → Bytes
  | a :: b :: c :: d :: rest =>
    UInt8.ofNat (a * 4 + b / 16) :: UInt8.ofNat (b % 16 * 16 + c / 4) ::
      UInt8.ofNat (c % 4 * 64 + d) :: octets rest
  | [a, b, c] => [UInt8.ofNat (a * 4 + b / 16), UInt8.ofNat (b % 16 * 16 + c / 4)]
  | [a, b] => [UInt8.ofNat (a * 4 + b / 16)]
  | _ => []

/-- How much padding may follow a row of `digits` digits. -/
def admitsPadding (digits pads : Nat) : Bool :=
  match digits % 4 with
  | 0 => digits != 0 || pads == 0
  | 2 => pads == 2
  | 3 => pads == 1
  | _ => false

def decodeStrict (t : Text) : Option Bytes :=
  let digits := t.takeWhile (· != pad)
  let pads := t.dropWhile (· != pad)
  match digits.mapM value? with
  | none => none
  | some values =>
    if pads.all (· == pad) && admitsPadding digits.length pads.length then some (octets values)
    else none

/-- Only the spelling that `encode` writes. -/
def decode (t : Text) : Option Bytes :=
  match decodeStrict t with
  | none => none
  | some b => if encode b = t then some b else none

/-- The digits up to padding that fills a group, and whether there was such padding.
`place` digits of a group are read, and `pads` pads after them. -/
def looseDigits (place pads : Nat) : Text → List Nat × Bool
  | [] => ([], false)
  | c :: rest =>
    if c = pad then
      if place < 2 then looseDigits place pads rest
      else if place + pads + 1 < 4 then looseDigits place (pads + 1) rest
      else ([], true)
    else
      match value? c with
      | none => looseDigits place pads rest
      | some d =>
        let (digits, isFilled) := looseDigits ((place + 1) % 4) 0 rest
        (d :: digits, isFilled)

inductive LooseFault where
  | lastDigit (digits : Nat)
  | padding
deriving DecidableEq, Repr

def decodeLoose (t : Text) : Except LooseFault Bytes :=
  let (digits, isFilled) := looseDigits 0 0 t
  if isFilled || digits.length % 4 == 0 then .ok (octets digits)
  else if digits.length % 4 == 1 then .error (.lastDigit digits.length)
  else .error .padding

end EnvelopeVault.Base64
