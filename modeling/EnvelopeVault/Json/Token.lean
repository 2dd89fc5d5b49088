import EnvelopeVault.Json
import EnvelopeVault.Json.Quoted
import EnvelopeVault.Text.Numeral

/-!
# Tokens of JSON documents

How each token is spelled, and how a text falls into tokens. Names and numbers
are words: a word goes on until a blank, a quotation mark, punctuation or the
end of the text, and is a token as a whole or not at all.
-/

namespace EnvelopeVault.Json

def isBlank (c : CodePoint) : Bool := c == 0x20 || c == 0x09 || c == 0x0A || c == 0x0D

def punctuation? (c : CodePoint) : Option Token :=
  if c = 0x5B then some .openArray
  else if c = 0x5D then some .closeArray
  else if c = 0x7B then some .openObject
  else if c = 0x7D then some .closeObject
  else if c = 0x2C then some .comma
  else if c = 0x3A then some .colon
  else none

/-! ## Words -/

/-- The digits of a fraction and what follows them; a point needs at least one digit. -/
def fraction? : Text → Option (Text × Text)
  | 0x2E :: rest =>
    let digits := rest.takeWhile CodePoint.isDigit
    if digits.isEmpty then none else some (digits, rest.dropWhile CodePoint.isDigit)
  | rest => some ([], rest)

/-- A number whose sign is known. Whole numbers have no zeros before their digits, and not
too many of these; others lie within the floating-point range. -/
def unsigned? (negative : Bool) (t : Text) : Option Scalar :=
  let whole := t.takeWhile CodePoint.isDigit
  match t.dropWhile CodePoint.isDigit with
  | [] => (Numeral.natural? whole).map fun n => .int (if negative then -(n : Int) else n)
  | rest =>
    if whole.isEmpty || (whole.head? == some 0x30 && whole.length != 1) then none
    else do
      let (fraction, rest) ← fraction? rest
      let exponent ← Decimal.exponent? rest
      let x ← Binary64.ofDecimal? negative (Decimal.ofParts whole fraction exponent)
      return .float x

def number? : Text → Option Scalar
  | 0x2D :: rest => unsigned? true rest
  | t => unsigned? false t

def word? (t : Text) : Option Scalar :=
  if t = "null" then some .null
  else if t = "true" then some (.bool true)
  else if t = "false" then some (.bool false)
  else number? t

def isWordPoint (c : CodePoint) : Bool :=
  !isBlank c && c != quotationMark && (punctuation? c).isNone

def continuesWord : Text → Bool
  | [] => false
  | c :: _ => isWordPoint c

/-! ## The lexer -/

/-- Where in a text the lexer is; what is read of a token lies in reverse. -/
inductive Place where
  | between
  | quoted (reversed : Text)
  | word (reversed : Text)

def lexFrom : Place → Text → Option (List Token)
  | .between, [] => some []
  | .quoted _, [] => none
  | .word _, [] => none
  | .between, c :: rest =>
    if isBlank c then lexFrom .between rest
    else if c = quotationMark then lexFrom (.quoted []) rest
    else
      match punctuation? c with
      | some token => (lexFrom .between rest).map (token :: ·)
      | none =>
        if continuesWord rest then lexFrom (.word [c]) rest
        else
          match word? [c] with
          | some s => (lexFrom .between rest).map (.scalar s :: ·)
          | none => none
  | .quoted reversed, c :: rest =>
    if c = quotationMark then
      match unescape reversed.reverse with
      | some t => (lexFrom .between rest).map (.scalar (.text t) :: ·)
      | none => none
    else if c = backslash then
      match rest with
      | [] => none
      | d :: rest => lexFrom (.quoted (d :: c :: reversed)) rest
    else lexFrom (.quoted (c :: reversed)) rest
  | .word reversed, c :: rest =>
    if continuesWord rest then lexFrom (.word (c :: reversed)) rest
    else
      match word? (c :: reversed).reverse with
      | some s => (lexFrom .between rest).map (.scalar s :: ·)
      | none => none

def lex (t : Text) : Option (List Token) := lexFrom .between t

/-! ## Spelling -/

def scalarText : Scalar → Text
  | .null => "null"
  | .bool true => "true"
  | .bool false => "false"
  | .int n => Text.ofInt n
  | .float x => x.text
  | .text t => quotationMark :: escape t ++ [quotationMark]

def tokenText : Token → Text
  | .openArray => [0x5B]
  | .closeArray => [0x5D]
  | .openObject => [0x7B]
  | .closeObject => [0x7D]
  | .comma => [0x2C]
  | .colon => [0x3A]
  | .scalar s => scalarText s

def print (j : Json) : Text := j.tokens.flatMap tokenText

end EnvelopeVault.Json
