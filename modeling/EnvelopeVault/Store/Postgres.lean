import EnvelopeVault.Store.Pool

/-!
# The store in a database

Each access is one statement on a connection of its own. A fault of the driver
is wrapped in a failure that names the access; a cancellation passes through.
-/

namespace EnvelopeVault.Postgres

def wrap {α : Type} (operation : Text) (secret org : Value) :
    Except StoreFault α → Except Failure α
  | .ok a => .ok a
  | .error fault =>
    if fault.kind = .cancelled then .error (.raised fault)
    else
      .error (.vault
        { cause := .persistence fault
          operation := .text operation
          secretId := secret
          orgId := org })

def query (operation : Text) (secret org : Value) (q : Query) (p : Pool) :
    Except Failure Value × Pool :=
  let (result, p) := p.run q
  (wrap operation secret org result, p)

def fetchById (secret : Value) (p : Pool) : Except Failure Value × Pool :=
  query "FindConsumerSecretById" secret .null (.selectById secret) p

def fetchFiltered (org user : Value) (requireData : Bool) (p : Pool) :
    Except Failure Value × Pool :=
  query "FindAllOrganizationConsumerSecrets" .null org (.selectFiltered org user requireData) p

def insert (row : Row) (p : Pool) : Except Failure Value × Pool :=
  query "CreateConsumerSecret" .null ((row.get? "orgId").getD .null) (.insert row) p

/-- Columns that may not be updated are refused before a connection is acquired. -/
def updatePartial (secret : Value) (columns : Row) (expected : Option Value) (p : Pool) :
    Except Failure Value × Pool :=
  match Query.update secret columns expected with
  | .error e => (.error e, p)
  | .ok q => query "UpdateConsumerSecret" secret .null q p

def deleteById (secret : Value) (p : Pool) : Except Failure Value × Pool :=
  query "DeleteConsumerSecret" secret .null (.deleteById secret) p

/-! ## Answers -/

def elements? : Value → Option (List Value)
  | .list items => some items
  | .text t => some (t.map fun c => .text [c])
  | .bytes b => some (b.map fun octet => .int octet.toNat)
  | .map members => some (members.map fun (name, _) => .text name)
  | _ => none

/-- Rows are looked at one by one, and only when they are used. -/
def rowsOf (v : Value) : Except Failure (List Value) :=
  match elements? v with
  | some rows => .ok rows
  | none => .error (.notRows v)

def keyOperation : Value := .text "FindOrgKeyRecord"

/-- A record in a form that this vault does not know is refused as a whole. -/
def supported {α : Type} (org : Value) : Checked α → Except Failure α
  | .ok a => .ok a
  | .faulty _ =>
    .error (.vault { cause := .unsupportedKeyRecord, operation := keyOperation, orgId := org })

def keyRecordOf (org row : Value) : Except Failure OrgKeyRecord := do
  let orgId := (← Layout.cellOf row "orgId").toText
  let ciphertext ← Layout.cellOf row "encryptedSymmetricKey"
  let iv ← Layout.cellOf row "symmetricKeyIV"
  let tag ← Layout.cellOf row "symmetricKeyTag"
  let wrapped ← supported org (Field.ofParts ⟨ciphertext, iv, tag⟩)
  let encoding ← Layout.cellOf row "symmetricKeyKeyEncoding"
  let algorithm ← Layout.cellOf row "symmetricKeyAlgorithm"
  let (encoding, algorithm) ← supported org
    (Prod.mk <$> Checked.member KeyEncoding.table encoding <*> Checked.text algorithm)
  return ⟨orgId, wrapped, encoding, algorithm⟩

def findKey (org : Value) (p : Pool) : Except Failure (Option OrgKeyRecord) × Pool :=
  let (result, p) := query "FindOrgKeyRecord" .null org (.selectKey org) p
  (result.bind fun v =>
    match v.present with
    | none => .ok none
    | some row => some <$> keyRecordOf org row, p)

def answer : (a : Access) → Pool → Except Failure a.Answer × Pool
  | .findKey org, p => findKey org p
  | .fetch secret, p =>
    let (result, p) := fetchById secret p
    (result.map Value.present, p)
  | .fetchFiltered org user requireData, p =>
    let (result, p) := fetchFiltered org user requireData p
    (result.bind rowsOf, p)
  | .insert row, p => insert row p
  | .update secret columns expected, p =>
    let (result, p) := updatePartial secret columns expected p
    (result.map Value.present, p)
  | .delete secret, p =>
    let (result, p) := deleteById secret p
    (result.map Value.present, p)

def backend : Backend Pool := ⟨answer, Pool.nonce⟩

/-- Creates what is missing of the tables. Faults pass through as they are. -/
def createTables (p : Pool) : Outcome Pool Unit :=
  let (result, p) := p.run Query.createTables
  match result with
  | .ok _ => ⟨.ok (), [.tablesEnsured], p⟩
  | .error fault => ⟨.error (.ofStoreFault fault), [], p⟩

end EnvelopeVault.Postgres
