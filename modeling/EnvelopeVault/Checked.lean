import EnvelopeVault.Text.Numeral
import EnvelopeVault.Text.Utf8
import EnvelopeVault.Value

/-!
# Checked documents

Reading a value as something more definite either succeeds or gives every
fault that it found, in the order of the declared fields. A fault has the path
of field names that leads to it. Fields that are not declared are ignored.
-/

namespace EnvelopeVault

inductive FaultKind where
  | missing
  | notDocument (model : Text)
  | notText
  | textOctets
  | textTooLong (limit : Nat)
  | notOctets
  | notMember (members : List Text)
  | notInteger
  | integerText
  | integerSize
  | fractional
  | rootKeyLength (length : Nat)
  | frozen
  | dateText
  | dateRange
  | notTimestamp
deriving DecidableEq, Repr

namespace FaultKind

def code : FaultKind → Text
  | .missing => "missing"
  | .notDocument _ => "model_type"
  | .notText => "string_type"
  | .textOctets => "string_unicode"
  | .textTooLong _ => "string_too_long"
  | .notOctets => "bytes_type"
  | .notMember _ => "enum"
  | .notInteger => "int_type"
  | .integerText => "int_parsing"
  | .integerSize => "int_parsing_size"
  | .fractional => "int_from_float"
  | .rootKeyLength _ => "value_error"
  | .frozen => "frozen_instance"
  | .dateText => "datetime_from_date_parsing"
  | .dateRange => "datetime_parsing"
  | .notTimestamp => "datetime_type"

def alternatives : List Text → Text
  | [] => []
  | [t] => Quoted.quote t
  | [t, u] => Quoted.quote t ++ " or " ++ Quoted.quote u
  | t :: rest => Quoted.quote t ++ ", " ++ alternatives rest

/-- Faults in times have no message. -/
def message : FaultKind → Option Text
  | .missing => some "Field required"
  | .notDocument model =>
    some ("Input should be a valid dictionary or instance of " ++ model)
  | .notText => some "Input should be a valid string"
  | .textOctets =>
    some "Input should be a valid string, unable to parse raw data as a unicode string"
  | .textTooLong limit =>
    some ("String should have at most " ++ Text.ofNat limit ++ " characters")
  | .notOctets => some "Input should be a valid bytes"
  | .notMember members => some ("Input should be " ++ alternatives members)
  | .notInteger => some "Input should be a valid integer"
  | .integerText =>
    some "Input should be a valid integer, unable to parse string as an integer"
  | .integerSize =>
    some "Unable to parse input string as an integer, exceeded maximum size"
  | .fractional =>
    some "Input should be a valid integer, got a number with a fractional part"
  | .rootKeyLength length =>
    some ("Value error, root_key must be exactly 32 bytes, got " ++ Text.ofNat length)
  | .frozen => some "Instance is frozen"
  | .dateText => none
  | .dateRange => none
  | .notTimestamp => none

end FaultKind

structure Fault where
  kind : FaultKind
  path : List Text
deriving DecidableEq, Repr

/-- A result, or the faults that there are instead. -/
inductive Checked (α : Type) where
  | ok (a : α)
  | faulty (faults : List Fault)
deriving DecidableEq, Repr

namespace Checked

variable {α β : Type}

def map (f : α → β) : Checked α → Checked β
  | .ok a => .ok (f a)
  | .faulty faults => .faulty faults

/-- Both results, or the faults of both. -/
def both (f : Checked (α → β)) (a : Checked α) : Checked β :=
  match f, a with
  | .ok f, .ok a => .ok (f a)
  | .ok _, .faulty faults => .faulty faults
  | .faulty faults, .ok _ => .faulty faults
  | .faulty first, .faulty second => .faulty (first ++ second)

instance : Applicative Checked where
  pure := .ok
  map := map
  seq f a := both f (a ())

def fault (kind : FaultKind) : Checked α := .faulty [⟨kind, []⟩]

def under (name : Text) : Checked α → Checked α
  | .ok a => .ok a
  | .faulty faults => .faulty (faults.map fun f => { f with path := name :: f.path })

/-! ## Readers of single values -/

/-- Octets are text if they are its UTF-8 form. -/
def text : Value → Checked Text
  | .text t => .ok t
  | .bytes b =>
    match Utf8.decode b with
    | .ok t => .ok t
    | .error _ => fault .textOctets
  | _ => fault .notText

/-- Only text that can be encoded has a length. -/
def textUpTo (limit : Nat) (v : Value) : Checked Text :=
  match text v with
  | .ok t =>
    if t.any CodePoint.isSurrogate then fault .textOctets
    else if t.length ≤ limit then .ok t
    else fault (.textTooLong limit)
  | .faulty faults => .faulty faults

def octets : Value → Checked Bytes
  | .bytes b => .ok b
  | .text t =>
    match Utf8.encode t with
    | .ok b => .ok b
    | .error _ => fault .textOctets
  | _ => fault .notOctets

/-- The text of octets; none for octets that are no text, as if they were empty. -/
def textOrNone (b : Bytes) : Text :=
  match Utf8.decode b with
  | .ok t => t
  | .error _ => []

def memberText (table : Assoc α) (t : Text) : Checked α :=
  match table.get? t with
  | some a => .ok a
  | none => fault (.notMember table.names)

def member (table : Assoc α) : Value → Checked α
  | .text t => if t.any CodePoint.isSurrogate then fault .textOctets else memberText table t
  | .bytes b => memberText table (textOrNone b)
  | _ => fault (.notMember table.names)

def integerText (t : Text) : Checked Int :=
  if t.any CodePoint.isSurrogate then fault .textOctets
  else
    match Numeral.read t with
    | some n => .ok n
    | none => fault (if Numeral.isOversized t then .integerSize else .integerText)

/-- Floating-point numbers have to lie strictly within 64 bits with a sign. -/
def integerFloat (x : Binary64) : Checked Int :=
  if !x.isWhole then fault .fractional
  else if x.units < Binary64.one * 0x8000000000000000 then .ok x.floor
  else fault .integerSize

def integer : Value → Checked Int
  | .int n => .ok n
  | .bool b => .ok (if b then 1 else 0)
  | .float x => integerFloat x
  | .text t => integerText t
  | .bytes b => integerText (textOrNone b)
  | _ => fault .notInteger

/-- The year 0 can be written and counted to, but no time lies in it. -/
def timeOr (kind : FaultKind) : Option Timestamp → Checked Timestamp
  | some t => if t.year = 0 then fault .dateRange else .ok t
  | none => fault kind

/-- A whole number that is no floating-point number either counts no time at all. -/
def timestampInt (n : Int) : Checked Timestamp :=
  match Binary64.ofInt? n with
  | some _ => timeOr .dateRange (Timestamp.ofInt n)
  | none => fault .notTimestamp

def timestampText (t : Text) : Checked Timestamp :=
  if t.any CodePoint.isSurrogate then fault .textOctets
  else timeOr .dateText (Timestamp.read t)

def timestamp : Value → Checked Timestamp
  | .time t => .ok t
  | .int n => timestampInt n
  | .float x => timeOr .dateRange (Timestamp.ofFloat x)
  | .text t => timestampText t
  | .bytes b => timestampText (textOrNone b)
  | _ => fault .notTimestamp

/-- Null is no result rather than a fault. -/
def nullable (read : Value → Checked α) : Value → Checked (Option α)
  | .null => .ok none
  | v => map some (read v)

/-! ## Readers of documents -/

def document (model : Text) (read : Assoc Value → Checked α) : Value → Checked α
  | .map members => read members
  | _ => fault (.notDocument model)

def required (name : Text) (read : Value → Checked α) (doc : Assoc Value) : Checked α :=
  match doc.get? name with
  | some v => under name (read v)
  | none => under name (fault .missing)

def defaulted (name : Text) (default : α) (read : Value → Checked α) (doc : Assoc Value) :
    Checked α :=
  match doc.get? name with
  | some v => under name (read v)
  | none => .ok default

def optional (name : Text) (read : Value → Checked α) (doc : Assoc Value) :
    Checked (Option α) :=
  defaulted name none (nullable read) doc

end Checked
end EnvelopeVault
