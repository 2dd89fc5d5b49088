import EnvelopeVault.Failure
import EnvelopeVault.Json.Reader

/-!
# JSON documents as values

A repeated name keeps its last value. In the other direction octets, texts with
surrogates and integers beyond 64 bits have no document.
-/

namespace EnvelopeVault

def Scalar.toValue : Scalar → Value
  | .null => .null
  | .bool b => .bool b
  | .int n => .int n
  | .float x => .float x
  | .text t => .text t

namespace Json

mutual
def toValue : Json → Value
  | .scalar s => s.toValue
  | .array items => .list (itemValues items)
  | .object members => .map (Assoc.putAll [] (memberValues members))

def itemValues : List Json → List Value
  | [] => []
  | j :: rest => j.toValue :: itemValues rest

def memberValues : List (Text × Json) → List (Text × Value)
  | [] => []
  | (name, j) :: rest => (name, j.toValue) :: memberValues rest
end

def ofText (t : Text) : Except Failure Text :=
  if t.any CodePoint.isSurrogate then .error .unserializableText else .ok t

def ofInt (n : Int) : Except Failure Json :=
  if -9223372036854775808 ≤ n && n < 18446744073709551616 then .ok (.scalar (.int n))
  else .error .integerTooLarge

mutual
def ofValue : Value → Except Failure Json
  | .null => .ok (.scalar .null)
  | .bool b => .ok (.scalar (.bool b))
  | .int n => ofInt n
  | .float x => .ok (.scalar (.float x))
  | .text t => (fun t => .scalar (.text t)) <$> ofText t
  | .bytes _ => .error .unserializableOctets
  | .uuid u => .ok (.scalar (.text u.text))
  | .time t => .ok (.scalar (.text t.text))
  | .list items => .array <$> ofValues items
  | .map members => .object <$> ofMembers members

def ofValues : List Value → Except Failure (List Json)
  | [] => .ok []
  | v :: rest => do
    let j ← ofValue v
    let rest ← ofValues rest
    return j :: rest

def ofMembers : List (Text × Value) → Except Failure (List (Text × Json))
  | [] => .ok []
  | (name, v) :: rest => do
    let name ← ofText name
    let j ← ofValue v
    let rest ← ofMembers rest
    return (name, j) :: rest
end

def printValue (v : Value) : Except Failure Text := print <$> ofValue v

end Json
end EnvelopeVault
