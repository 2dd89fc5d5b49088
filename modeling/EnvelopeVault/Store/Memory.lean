import EnvelopeVault.Layout
import EnvelopeVault.Program
import EnvelopeVault.Text.Base64

/-!
# The store in memory

Rows lie under the texts of their ids, in the order in which they came, and key
records under the texts of organization ids. Every access is one step on this
state.
-/

namespace EnvelopeVault

/-- `plan` gives ids to new rows that bring none; `planned` of them are in use. -/
structure Memory where
  rows : Assoc Row
  keys : Assoc OrgKeyRecord
  writes : Nat
  lookups : Nat
  plan : List Value
  planned : Nat
  nonces : Nonces

namespace Memory

def empty (plan : List Value) (nonces : Nonces) : Memory := ⟨[], [], 0, 0, plan, 0, nonces⟩

/-- The cells that a row has before any are given. -/
def blankRow : Row :=
  let labels : Row :=
    [("algorithm", .text aes256Gcm), ("keyEncoding", .text KeyEncoding.utf8.label),
      ("version", .int 1), ("createdAt", .null), ("updatedAt", .null)]
  labels ++ Layout.encryptedColumns.map fun name => (name, .null)

def nextId (m : Memory) : Value :=
  m.plan.getD m.planned (.text ("s" ++ Text.ofNat (m.planned + 1)))

def withId (m : Memory) (row : Row) : Value × Row × Memory :=
  match row.get? "id" with
  | some id => (id, row, m)
  | none =>
    let id := m.nextId
    (id, row.put "id" id, { m with planned := m.planned + 1 })

/-- A row of the given cells, in the place of an earlier row with its id or at the end. -/
def putRow (m : Memory) (cells : Row) : Row × Memory :=
  let (id, row, m) := m.withId (Assoc.putAll blankRow cells)
  (row, { m with rows := m.rows.put id.toText row })

def nextVersion : Value → Except Failure Value
  | .int n => .ok (.int (n + 1))
  | .bool b => .ok (.int (if b then 2 else 1))
  | .float x => .ok (.float x.successor)
  | v => .error (.versionNotANumber v)

/-- Whether a row belongs to the organization and the user. -/
def isOwnedBy (org user : Text) (row : Row) : Except Failure Bool := do
  if (← Layout.cell row "orgId").toText = org then
    return (← Layout.cell row "userId").toText = user
  else return false

def hasData (row : Row) : Except Failure Bool := do
  return !(← Layout.cell row (column Attribute.data.name .ciphertext)).isNull

def isSelected (org user : Text) (requireData : Bool) (row : Row) : Except Failure Bool := do
  if ← isOwnedBy org user row then
    if requireData then hasData row else return true
  else return false

def select (org user : Text) (requireData : Bool) : List Row → Except Failure (List Row)
  | [] => return []
  | row :: rows => do
    let selected ← isSelected org user requireData row
    let rest ← select org user requireData rows
    return if selected then row :: rest else rest

def isExpected (row : Row) : Option Value → Bool
  | none => true
  | some version => ((row.get? "version").getD .null).same version

def updateRow (m : Memory) (secret : Text) (columns : Row) (expected : Option Value) :
    Except Failure (Option Row) × Memory :=
  match m.rows.get? secret with
  | none => (.ok none, m)
  | some row =>
    if isExpected row expected then
      let row := Assoc.putAll row columns
      match (Layout.cell row "version").bind nextVersion with
      | .ok version =>
        let row := row.put "version" version
        (.ok (some row), { m with rows := m.rows.put secret row })
      | .error e => (.error e, { m with rows := m.rows.put secret row })
    else (.ok none, m)

def deleteRow (m : Memory) (secret : Text) : Option Row × Memory :=
  (m.rows.get? secret, { m with rows := m.rows.erase secret })

def counted (m : Memory) : Memory := { m with writes := m.writes + 1 }

def answer : (a : Access) → Memory → Except Failure a.Answer × Memory
  | .findKey org, m => (.ok (m.keys.get? org.toText), { m with lookups := m.lookups + 1 })
  | .fetch secret, m => (.ok ((m.rows.get? secret.toText).map .map), m)
  | .fetchFiltered org user requireData, m =>
    let rows := select org.toText user.toText requireData (m.rows.map (·.2))
    (rows.map fun rows => rows.map .map, m)
  | .insert row, m =>
    let (row, m) := m.counted.putRow row
    (.ok (.map row), m)
  | .update secret columns expected, m =>
    let (result, m) := m.counted.updateRow secret.toText columns expected
    (result.map fun row? => row?.map .map, m)
  | .delete secret, m =>
    let (row?, m) := m.counted.deleteRow secret.toText
    (.ok (row?.map .map), m)

def nonce (m : Memory) : Nonce × Memory :=
  let (nonce, nonces) := m.nonces.next
  (nonce, { m with nonces := nonces })

def backend : Backend Memory := ⟨answer, nonce⟩

/-! ## Work on raw rows, beside the vault

Here keys are taken as they are: one that is no text is not found, whatever its text.
-/

def putKey (m : Memory) (record : OrgKeyRecord) : Memory :=
  { m with keys := m.keys.put record.orgId record }

/-- A key as it can be looked up, if it is text. -/
def textKey? : Value → Except Failure (Option Text)
  | .text t => .ok (some t)
  | .list items => .error (.unhashable (.list items))
  | .map members => .error (.unhashable (.map members))
  | _ => .ok none

/-- The name that a key stands for, with what is found under it. -/
def find {α : Type} (m : Assoc α) (key : Value) : Except Failure (Text × α) := do
  match ← textKey? key with
  | none => .error (.missingKey key)
  | some name =>
    match m.get? name with
    | some a => return (name, a)
    | none => .error (.missingKey key)

def dropKey (m : Memory) (org : Value) : Except Failure (Bool × Memory) := do
  match ← textKey? org with
  | none => return (false, m)
  | some org => return (m.keys.has org, { m with keys := m.keys.erase org })

def setColumns (m : Memory) (secret : Value) (columns : Row) : Except Failure Memory := do
  let (id, row) ← find m.rows secret
  return { m with rows := m.rows.put id (Assoc.putAll row columns) }

/-- Copies cells within the rows, each from the name on the left to the name on the right. What
was copied before a cell is missing stays. -/
def copyCells (m : Memory) (source target : Text) : List (Text × Text) →
    Except Failure Unit × Memory
  | [] => (.ok (), m)
  | (old, new) :: rest =>
    match Layout.cell ((m.rows.get? source).getD []) old with
    | .error e => (.error e, m)
    | .ok v =>
      let row := (m.rows.get? target).getD []
      copyCells { m with rows := m.rows.put target (row.put new v) } source target rest

def copyField (m : Memory) (source target : Value × Text) (suffixes : List Text) :
    Except Failure Unit × Memory :=
  match find m.rows source.1, find m.rows target.1 with
  | .error e, _ => (.error e, m)
  | .ok _, .error e => (.error e, m)
  | .ok (old, _), .ok (new, _) =>
    m.copyCells old new (suffixes.map fun suffix => (source.2 ++ suffix, target.2 ++ suffix))

/-- The octets of a cell, in text or in octets that stand for text. -/
def octetsOf : Value → Except Failure Bytes
  | .text t =>
    if t.any (fun c => 0x80 ≤ c.val) then .error .notAscii
    else (Base64.decodeLoose t).mapError .base64
  | .bytes b =>
    (Base64.decodeLoose (b.map fun x => Fin.ofNat 0x110000 x.toNat)).mapError .base64
  | other => .error (.notBase64Source other)

/-- Where an index stands; a negative one counts from the end. -/
def position? (length : Nat) (index : Int) : Option Nat :=
  let i := if index < 0 then index + length else index
  if 0 ≤ i && i < length then some i.toNat else none

def flipBit (m : Memory) (secret column : Value) (index bit : Int) : Except Failure Memory := do
  let (_, row) ← find m.rows secret
  let (name, stored) ← find row column
  let octets ← octetsOf stored
  match position? octets.length index with
  | none => .error .octetIndex
  | some i =>
    if bit < 0 then .error .bitIndex
    else if 8 ≤ bit then .error .octetRange
    else
      let flipped := octets.modify i (· ^^^ UInt8.ofNat (1 <<< bit.toNat))
      m.setColumns secret [(name, .text (Base64.encode flipped))]

def isUnchanged (before : Memory) (id : Text) (row : Row) : Bool :=
  match before.rows.get? id with
  | some earlier => (Value.map earlier).same (.map row)
  | none => false

/-- The rows that differ between two states, by id; a row that is gone has none. -/
def changes (before after : Memory) : List (Text × Option Row) :=
  let gone := before.rows.names.filter fun id => !after.rows.has id
  let kept := after.rows.filter fun (id, row) => !before.isUnchanged id row
  let differing := kept.map (fun (id, row) => (id, some row)) ++ gone.map fun id => (id, none)
  differing.mergeSort fun a b => Text.le a.1 b.1

end Memory
end EnvelopeVault
