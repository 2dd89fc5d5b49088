import EnvelopeVault.Text.Hex

/-!
# Quoted text in JSON

What stands between the quotation marks. Reading takes every escape; a number
escape denotes a code point, or with a second one a code point beyond the first
65536. Writing escapes only what has to be escaped.
-/

namespace EnvelopeVault.Json

def quotationMark : CodePoint := 0x22

def backslash : CodePoint := 0x5C

def letterEscape? (c : CodePoint) : Option CodePoint :=
  if c = 0x22 then some 0x22
  else if c = 0x5C then some 0x5C
  else if c = 0x2F then some 0x2F
  else if c = 0x62 then some 0x08
  else if c = 0x66 then some 0x0C
  else if c = 0x6E then some 0x0A
  else if c = 0x72 then some 0x0D
  else if c = 0x74 then some 0x09
  else none

def isHighSurrogate (n : Nat) : Bool := 0xD800 ≤ n && n < 0xDC00

def isLowSurrogate (n : Nat) : Bool := 0xDC00 ≤ n && n < 0xE000

def pairValue (high low : Nat) : Nat := 0x10000 + (high - 0xD800) * 0x400 + (low - 0xDC00)

/-- Replaces the escapes. Control characters have to be escaped, and surrogates are
numbered in pairs only. -/
def unescape : Text → Option Text
  | [] => some []
  | c :: rest =>
    if c ≠ backslash then
      if c.val < 0x20 then none else (unescape rest).map (c :: ·)
    else
      match rest with
      | [] => none
      | e :: rest =>
        if e ≠ 0x75 then
          match letterEscape? e with
          | none => none
          | some c => (unescape rest).map (c :: ·)
        else
          match rest with
          | h1 :: h2 :: h3 :: h4 :: rest =>
            match Hex.read [h1, h2, h3, h4] with
            | none => none
            | some n =>
              if isLowSurrogate n then none
              else if isHighSurrogate n then
                match rest with
                | b :: u :: l1 :: l2 :: l3 :: l4 :: rest =>
                  if b = backslash && u = 0x75 then
                    match Hex.read [l1, l2, l3, l4] with
                    | none => none
                    | some low =>
                      if isLowSurrogate low then
                        (unescape rest).map (Fin.ofNat 0x110000 (pairValue n low) :: ·)
                      else none
                  else none
                | _ => none
              else (unescape rest).map (Fin.ofNat 0x110000 n :: ·)
          | _ => none

def escapePoint (c : CodePoint) : Text :=
  if c = 0x22 then "\\\""
  else if c = 0x5C then "\\\\"
  else if c = 0x08 then "\\b"
  else if c = 0x09 then "\\t"
  else if c = 0x0A then "\\n"
  else if c = 0x0C then "\\f"
  else if c = 0x0D then "\\r"
  else if c.val < 0x20 then "\\u" ++ Hex.ofNat 4 c.val
  else [c]

def escape (t : Text) : Text := t.flatMap escapePoint

end EnvelopeVault.Json
