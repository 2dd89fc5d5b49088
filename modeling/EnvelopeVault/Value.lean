import EnvelopeVault.Assoc
import EnvelopeVault.Text.Numeral
import EnvelopeVault.Text.Quoted
import EnvelopeVault.Timestamp
import EnvelopeVault.Uuid

/-!
# Values

What callers hand over and what stores hold: the cells of rows, ids, keys and
whole documents, before anything is known about their shape.
-/

namespace EnvelopeVault

inductive Value where
  | null
  | bool (b : Bool)
  | int (n : Int)
  | float (x : Binary64)
  | text (t : Text)
  | bytes (b : Bytes)
  | uuid (u : Uuid)
  | time (t : Timestamp)
  | list (items : List Value)
  | map (members : List (Text × Value))
deriving Inhabited

abbrev Row := Assoc Value

namespace Value

mutual
/-- The form in which messages show a value. -/
def quoted : Value → Text
  | .null => "None"
  | .bool true => "True"
  | .bool false => "False"
  | .int n => Text.ofInt n
  | .float x => x.text
  | .text t => Quoted.quote t
  | .bytes b => Quoted.quoteBytes b
  | .uuid u => "UUID(" ++ Quoted.quote u.text ++ ")"
  | .time t => t.text
  | .list items => "[" ++ Text.intercalate ", " (quotedItems items) ++ "]"
  | .map members => "\x7b" ++ Text.intercalate ", " (quotedMembers members) ++ "\x7d"

def quotedItems : List Value → List Text
  | [] => []
  | v :: rest => v.quoted :: quotedItems rest

def quotedMembers : List (Text × Value) → List Text
  | [] => []
  | (name, v) :: rest => (Quoted.quote name ++ ": " ++ v.quoted) :: quotedMembers rest
end

/-- The text that a value stands for: ids, which are texts or UUIDs, are compared and logged in
this form. -/
def toText : Value → Text
  | .text t => t
  | .uuid u => u.text
  | v => v.quoted

mutual
/-- Whether a value can be shown in a message: every number in it has to have a numeral. `quoted`
goes on after that many digits. -/
def isWritable : Value → Bool
  | .int n => Numeral.isWritable n
  | .list items => areWritable items
  | .map members => membersAreWritable members
  | _ => true

def areWritable : List Value → Bool
  | [] => true
  | v :: rest => v.isWritable && areWritable rest

def membersAreWritable : List (Text × Value) → Bool
  | [] => true
  | (_, v) :: rest => v.isWritable && membersAreWritable rest
end

def isNull : Value → Bool
  | .null => true
  | _ => false

/-- Null, false, zero and whatever is empty count as absent. -/
def isTruthy : Value → Bool
  | .null => false
  | .bool b => b
  | .int n => n != 0
  | .float x => !x.isZero
  | .text t => !t.isEmpty
  | .bytes b => !b.isEmpty
  | .uuid _ => true
  | .time _ => true
  | .list items => !items.isEmpty
  | .map members => !members.isEmpty

/-- Whether a value is the number `n`. Truth values are the numbers 0 and 1; nothing else is
converted, so text is no number. -/
def isNumber (n : Int) : Value → Bool
  | .int m => m == n
  | .bool b => (if b then 1 else 0) == n
  | .float x => x.isWhole && x.floor == n
  | _ => false

mutual
/-- Equality of values. Numbers of all kinds are compared by what they denote, and the order
of a map's members does not count. -/
def same : Value → Value → Bool
  | .null, .null => true
  | .bool b, v => v.isNumber (if b then 1 else 0)
  | .int n, v => v.isNumber n
  | .float x, .float y => x.same y
  | .float x, v => x.isWhole && v.isNumber x.floor
  | .text s, .text t => s == t
  | .bytes a, .bytes b => a == b
  | .uuid u, .uuid v => u == v
  | .time s, .time t => s == t
  | .list items, .list others => sameItems items others
  | .map members, .map others =>
    members.length == others.length && sameMembers members others
  | _, _ => false

def sameItems : List Value → List Value → Bool
  | [], [] => true
  | v :: rest, w :: others => v.same w && sameItems rest others
  | _, _ => false

def sameMembers : List (Text × Value) → List (Text × Value) → Bool
  | [], _ => true
  | (name, v) :: rest, others =>
    (match Assoc.get? others name with
    | some w => v.same w
    | none => false) && sameMembers rest others
end

/-- The octets of key material; what is no octet string has none. -/
def octets : Value → Bytes
  | .bytes b => b
  | _ => []

def present : Value → Option Value
  | .null => none
  | v => some v

def ofOption {α : Type} (wrap : α → Value) : Option α → Value
  | none => .null
  | some a => wrap a

end Value
end EnvelopeVault
