import EnvelopeVault.Binary64

/-!
# Timestamps

A date and a time of day, with an offset from UTC or without one. Two readings
produce them: the calendar form of ISO 8601 with its usual variations, and
seconds or milliseconds since 1970, whole or in floating point.
-/

namespace EnvelopeVault

/-- `offset` is in minutes east of UTC. -/
structure Timestamp where
  year : Nat
  month : Nat
  day : Nat
  hour : Nat
  minute : Nat
  second : Nat
  microsecond : Nat
  offset : Option Int
deriving DecidableEq, Repr

namespace Timestamp

def isLeapYear (year : Nat) : Bool := year % 4 == 0 && (year % 100 != 0 || year % 400 == 0)

def daysInMonth (year month : Nat) : Nat :=
  if month = 2 then (if isLeapYear year then 29 else 28)
  else if month = 4 || month = 6 || month = 9 || month = 11 then 30
  else 31

/-! ## The calendar form -/

def number (width : Nat) (t : Text) : Option (Nat × Text) :=
  let digits := t.take width
  if digits.length = width && digits.all CodePoint.isDigit then
    some (Text.digitsValue digits, t.drop width)
  else none

def skip (c : CodePoint) : Text → Option Text
  | [] => none
  | d :: rest => if c = d then some rest else none

def readDate (t : Text) : Option ((Nat × Nat × Nat) × Text) := do
  let (year, t) ← number 4 t
  let (month, t) ← number 2 (← skip 0x2D t)
  let (day, t) ← number 2 (← skip 0x2D t)
  if 1 ≤ month && month ≤ 12 && 1 ≤ day && day ≤ daysInMonth year month then
    some ((year, month, day), t)
  else none

/-- Six digits of a fraction of a second; more are cut. -/
def fractionValue (digits : Text) : Nat :=
  let kept := digits.take 6
  Text.digitsValue kept * Nat.pow 10 (6 - kept.length)

def isFractionMark (c : CodePoint) : Bool := c == 0x2E || c == 0x2C

/-- Seconds with a fraction, or nothing: both may be left out. -/
def readSeconds : Text → Option ((Nat × Nat) × Text)
  | 0x3A :: t => do
    let (second, t) ← number 2 t
    match t with
    | [] => some ((second, 0), [])
    | mark :: rest =>
      if !isFractionMark mark then some ((second, 0), t)
      else
        let digits := rest.takeWhile CodePoint.isDigit
        if digits.isEmpty then none
        else some ((second, fractionValue digits), rest.dropWhile CodePoint.isDigit)
  | t => some ((0, 0), t)

def isMinus (c : CodePoint) : Bool := c == 0x2D || c == 0x2212

def readOffset : Text → Option (Option Int)
  | [] => some none
  | [0x5A] => some (some 0)
  | [0x7A] => some (some 0)
  | sign :: t => do
    let (hours, t) ← number 2 t
    let t := (skip 0x3A t).getD t
    let (minutes, t) ← number 2 t
    let total : Int := hours * 60 + minutes
    if !t.isEmpty || 60 ≤ minutes || 1440 ≤ total then none
    else if sign = 0x2B then some (some total)
    else if isMinus sign then some (some (-total))
    else none

def isDateEnd (c : CodePoint) : Bool := c == 0x54 || c == 0x74 || c == 0x20 || c == 0x5F

def readCalendar (t : Text) : Option Timestamp := do
  let ((year, month, day), t) ← readDate t
  match t with
  | [] => some ⟨year, month, day, 0, 0, 0, 0, none⟩
  | c :: t =>
    if !isDateEnd c then none
    else
      let (hour, t) ← number 2 t
      let (minute, t) ← number 2 (← skip 0x3A t)
      let ((second, microsecond), t) ← readSeconds t
      let offset ← readOffset t
      if hour < 24 && minute < 60 && second < 60 then
        some ⟨year, month, day, hour, minute, second, microsecond, offset⟩
      else none

/-! ## Time since 1970 -/

/-- The date of a day, counted from 1970-01-01. Years are taken to begin in March, so
that a leap day ends its year; 146097 days are 400 years. -/
def civil (days : Int) : Nat × Nat × Nat :=
  -- days since 0000-03-01
  let shifted := days + 719468
  let era := shifted.fdiv 146097
  let inEra := (shifted.fmod 146097).toNat
  let yearInEra := (inEra - inEra / 1460 + inEra / 36524 - inEra / 146096) / 365
  let inYear := inEra - (365 * yearInEra + yearInEra / 4 - yearInEra / 100)
  let monthFromMarch := (5 * inYear + 2) / 153
  let day := inYear - (153 * monthFromMarch + 2) / 5 + 1
  let month := if monthFromMarch < 10 then monthFromMarch + 3 else monthFromMarch - 9
  let year := (yearInEra + era * 400 + (if month ≤ 2 then 1 else 0)).toNat
  (year, month, day)

/-- Numbers up to this size are seconds, larger ones milliseconds. -/
def secondsLimit : Nat := 20000000000

def firstSecond : Int := -62167219200

def lastSecond : Int := 253402300799

def ofSeconds (seconds : Int) (microsecond : Nat) : Option Timestamp :=
  if firstSecond ≤ seconds && seconds ≤ lastSecond then
    let (year, month, day) := civil (seconds.fdiv 86400)
    let inDay := (seconds.fmod 86400).toNat
    some ⟨year, month, day, inDay / 3600, inDay / 60 % 60, inDay % 60, microsecond, some 0⟩
  else none

def ofMicroseconds (n : Int) : Option Timestamp :=
  ofSeconds (n.fdiv 1000000) (n.fmod 1000000).toNat

def ofInt (n : Int) : Option Timestamp :=
  if n.natAbs ≤ secondsLimit then ofMicroseconds (n * 1000000) else ofMicroseconds (n * 1000)

/-- A number in units of which `scale` are one. Only what the number has beyond the next whole
number below it is rounded: by floating-point arithmetic first, then to the nearest unit, a
half up. -/
def scaled (x : Binary64) (scale : Nat) : Int :=
  let fraction := Binary64.nearest (x.signed - x.floor * Binary64.one).toNat 1
  let product := Binary64.nearest (fraction * scale) 1
  x.floor * scale + ((2 * product + Binary64.one) / (2 * Binary64.one) : Nat)

def ofFloat (x : Binary64) : Option Timestamp :=
  if x.units ≤ secondsLimit * Binary64.one then ofMicroseconds (scaled x 1000000)
  else ofMicroseconds (scaled x 1000)

def readUnsigned (negative : Bool) (t : Text) : Option Timestamp :=
  let whole := t.takeWhile CodePoint.isDigit
  match t.dropWhile CodePoint.isDigit with
  | [] =>
    let size : Int := Text.digitsValue whole
    if whole.isEmpty then none else ofInt (if negative then -size else size)
  | 0x2E :: t => do
    let fraction := t.takeWhile CodePoint.isDigit
    if whole.isEmpty && fraction.isEmpty then none
    else
      let exponent ← Decimal.exponent? (t.dropWhile CodePoint.isDigit)
      ofFloat (← Binary64.ofDecimal? negative (Decimal.ofParts whole fraction exponent))
  | _ => none

def readNumber : Text → Option Timestamp
  | 0x2D :: t => readUnsigned true t
  | 0x2B :: t => readUnsigned false t
  | t => readUnsigned false t

def read (t : Text) : Option Timestamp :=
  match readCalendar t with
  | some time => some time
  | none => readNumber t

/-! ## Writing -/

def offsetText (minutes : Int) : Text :=
  (if minutes < 0 then "-" else "+") ++ Text.padded 2 (minutes.natAbs / 60) ++ ":" ++
    Text.padded 2 (minutes.natAbs % 60)

def text (t : Timestamp) : Text :=
  Text.padded 4 t.year ++ "-" ++ Text.padded 2 t.month ++ "-" ++ Text.padded 2 t.day ++ "T" ++
    Text.padded 2 t.hour ++ ":" ++ Text.padded 2 t.minute ++ ":" ++ Text.padded 2 t.second ++
    (if t.microsecond = 0 then [] else 0x2E :: Text.padded 6 t.microsecond) ++
    (match t.offset with
    | none => []
    | some minutes => offsetText minutes)

end Timestamp
end EnvelopeVault
