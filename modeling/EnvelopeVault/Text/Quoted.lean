import EnvelopeVault.Bytes
import EnvelopeVault.Text.Hex
import EnvelopeVault.Text.Printable

/-!
# Quoted text

The form in which messages show a name. Single quotes stand around it, or
double quotes if it has single quotes but no double ones. Backslashes, the
quote in use and line controls are escaped by name, other unprintable code
points by number.
-/

namespace EnvelopeVault.Quoted

def quoteMark (t : Text) : CodePoint :=
  if t.contains 0x27 && !t.contains 0x22 then 0x22 else 0x27

def numbered (n : Nat) : Text :=
  if n < 0x100 then "\\x" ++ Hex.ofNat 2 n
  else if n < 0x10000 then "\\u" ++ Hex.ofNat 4 n
  else "\\U" ++ Hex.ofNat 8 n

def escape (mark c : CodePoint) : Text :=
  if c = 0x5C || c = mark then [0x5C, c]
  else if c = 0x0A then "\\n"
  else if c = 0x0D then "\\r"
  else if c = 0x09 then "\\t"
  else if c.isPrintable then [c]
  else numbered c.val

def quote (t : Text) : Text :=
  let mark := quoteMark t
  mark :: t.flatMap (escape mark) ++ [mark]

def escapeOctet (mark : CodePoint) (b : UInt8) : Text :=
  if b < 0x80 then escape mark (Fin.ofNat 0x110000 b.toNat) else numbered b.toNat

def quoteBytes (b : Bytes) : Text :=
  let mark := quoteMark (b.map fun octet => Fin.ofNat 0x110000 octet.toNat)
  0x62 :: mark :: b.flatMap (escapeOctet mark) ++ [mark]

def quoteList (ts : List Text) : Text := "[" ++ Text.intercalate ", " (ts.map quote) ++ "]"

end EnvelopeVault.Quoted
