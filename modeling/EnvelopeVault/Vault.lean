import EnvelopeVault.Layout
import EnvelopeVault.OrgKey

/-!
# The vault

Creating, reading, listing, updating and deleting the secrets of an
organization. The organization's key is resolved once in each operation. No
operation holds a lock: an update that names the version it expects is applied
only at that version, any other overwrites what it finds.
-/

namespace EnvelopeVault.Vault

def notFound (operation : Text) (secret org : Value) : Failure :=
  .vault
    { cause := .secretNotFound, operation := .text operation, secretId := secret, orgId := org }

def updateOperation : Text := "UpdateConsumerSecret"

/-- The message names the version that was expected, so there is none if that has no numeral. -/
def conflict (secret org expected : Value) : Failure :=
  if expected.isWritable then
    .vault
      { cause := .versionConflict expected
        operation := .text updateOperation
        secretId := secret
        orgId := org }
  else .unwritableNumber

def newRow (org user : Value) (fields : List (Text × Field)) : Row :=
  let labels : Row :=
    [("algorithm", .text aes256Gcm), ("keyEncoding", .text KeyEncoding.utf8.label)]
  Assoc.putAll [("userId", user), ("orgId", org)] (Layout.columnsOf fields ++ labels)

def create (root : Bytes) (draft : Draft) (org user : Value) : Program Text := do
  let key ← OrgKey.resolve root org
  let fields ← Sealing.encryptDraft key draft
  let created ← Program.call (.insert (newRow org user fields))
  let id := (← Program.ofExcept (Layout.cellOf created "id")).toText
  .log (.secretCreated id org.toText user.toText)
  return id

/-- The record of a secret, if the row exists and belongs to the organization. A row of
another organization is not looked at any further. -/
def fetchOwned (operation : Text) (secret org : Value) : Program SecretRecord := do
  match ← Program.call (.fetch secret) with
  | none => .fail (notFound operation secret org)
  | some row =>
    let owner ← Program.ofExcept (Layout.cellOf row "orgId")
    if owner.toText = org.toText then .ofExcept (Layout.recordOf row)
    else .fail (notFound operation secret org)

def get (root : Bytes) (secret org : Value) : Program Secret := do
  let record ← fetchOwned "FindConsumerSecretById" secret org
  let key ← OrgKey.resolve root org
  Sealing.decryptRecord key record

/-- The secrets in rows, in order; the first row that fails ends it. -/
def openRows (key : Bytes) : List Value → Program (List Secret)
  | [] => pure []
  | row :: rows => do
    let record ← Program.ofExcept (Layout.recordOf row)
    let secret ← Sealing.decryptRecord key record
    let secrets ← openRows key rows
    return secret :: secrets

def list (root : Bytes) (org user : Value) : Program (List Secret) := do
  let key ← OrgKey.resolve root org
  let rows ← Program.call (.fetchFiltered org user true)
  let secrets ← openRows key rows
  .log (.secretsListed secrets.length org.toText user.toText)
  return secrets

/-- Why the store refused an update: the row is gone, or another writer was faster. -/
def refused (secret org : Value) (expected : Option Value) : Program Text := do
  let found ← Program.call (.fetch secret)
  match expected, found with
  | some version, some _ => .fail (conflict secret org version)
  | _, _ => .fail (notFound updateOperation secret org)

def writeChanges (root : Bytes) (secret : Value) (changes : Changes) (org : Value)
    (expected : Option Value) : Program Text := do
  let key ← OrgKey.resolve root org
  let fields ← Sealing.encryptChanges key changes
  match ← Program.call (.update secret (Layout.columnsOf fields) expected) with
  | none => refused secret org expected
  | some row =>
    .log (.secretUpdated secret.toText (fields.map (·.1)))
    return (← Program.ofExcept (Layout.cellOf row "id")).toText

def update (root : Bytes) (secret : Value) (changes : Changes) (org : Value)
    (expected : Option Value) : Program Text :=
  if changes.provided.isEmpty then
    .fail (.vault
      { cause := .nothingProvided
        operation := .text updateOperation
        secretId := secret
        orgId := org })
  else do
    let record ← fetchOwned updateOperation secret org
    match expected with
    | none => writeChanges root secret changes org none
    | some version =>
      if version.isNumber record.version then writeChanges root secret changes org (some version)
      else .fail (conflict secret org version)

def delete (secret : Value) : Program Text := do
  match ← Program.call (.delete secret) with
  | none =>
    .fail (.vault
      { cause := .secretNotFound
        operation := .text "DeleteConsumerSecret"
        secretId := secret })
  | some row =>
    .log (.secretDeleted secret.toText)
    return (← Program.ofExcept (Layout.cellOf row "id")).toText

end EnvelopeVault.Vault
