import EnvelopeVault.Sealing

/-!
# Organization keys

The root key encrypts the organization keys, and these encrypt the secrets. An
organization's key is stored wrapped only, and unwrapped for one operation at a
time.
-/

namespace EnvelopeVault.OrgKey

def size? : Value → Option Nat
  | .bytes b => some b.length
  | .text t => some t.length
  | .list items => some items.length
  | .map members => some members.length
  | _ => none

/-- A root key of the right size. What is no octet string can have that size too, but it
is no key: nothing can be unwrapped with it. -/
def checkRoot (root : Value) : Except Failure Bytes :=
  match size? root with
  | none => .error (.sizeless root)
  | some size => if size = keySize then .ok root.octets else .error .rootKeySize

def recordWith (org : Value) (wrapped : Field) (encoding : Value) : Checked OrgKeyRecord :=
  (fun org encoding => ⟨org, wrapped, encoding, aes256Gcm⟩)
    <$> (Checked.text org).under "org_id"
    <*> (Checked.member KeyEncoding.table encoding).under "key_encoding"

def wrap (org key : Value) (root : Bytes) (encoding : Value) : Program OrgKeyRecord := do
  let keyText ← Program.ofExcept
    (FieldCipher.encodeKeyValue key (FieldCipher.encodingOf encoding))
  let wrapped ← Sealing.encrypt root keyText
  .ofExcept (Failure.ofChecked OrgKeyRecord.modelName (recordWith org wrapped encoding))

def operation : Value := .text "ResolveOrgKey"

/-- The key in a record, whatever its length. -/
def unwrap (root : Bytes) (record : OrgKeyRecord) : Except Failure Bytes := do
  let keyText ← FieldCipher.decrypt root (record.wrappedKey.map .text)
  FieldCipher.decodeKey keyText record.keyEncoding

/-- A failure of authentication is logged under the organization; others pass. -/
def blame (org : Value) (e : Failure) : Program Bytes :=
  match e with
  | .vault f =>
    if f.kind = .authenticationFailure then
      .note (.keyUnverified org.toText)
        (.fail (.vault { f with operation := operation, orgId := org }))
    else .fail e
  | _ => .fail e

def ofRecord (root : Bytes) (org : Value) (record : OrgKeyRecord) : Program Bytes :=
  if record.algorithm ≠ aes256Gcm then
    .fail (.vault
      { cause := .unsupportedWrapping record.algorithm, operation := operation, orgId := org })
  else
    match unwrap root record with
    | .error e => blame org e
    | .ok key =>
      if key.length = keySize then pure key
      else
        .note (.keyMalformed org.toText)
          (.fail (.vault { cause := .malformedKey, operation := operation, orgId := org }))

def resolve (root : Bytes) (org : Value) : Program Bytes := do
  match ← Program.call (.findKey org) with
  | none => .fail (.vault { cause := .keyNotFound, operation := operation, orgId := org })
  | some record => ofRecord root org record

end EnvelopeVault.OrgKey
