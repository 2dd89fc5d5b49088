import EnvelopeVault.About
import EnvelopeVault.Instance
import EnvelopeVault.Request
import EnvelopeVault.Store.Memory

/-!
# Single operations

The parts of the vault one at a time, each on values that are still unchecked
and with a value as its answer. Arrays of pairs stand where the order of names
is part of the answer.
-/

namespace EnvelopeVault

inductive Operation where
  | constants
  | encryptField (plaintext key : Value)
  | decryptField (field key : Value)
  /-- With parts that need not be text, nor be there. -/
  | decryptUnchecked (field : Assoc Value) (key : Value)
  | encodeKey (key encoding : Value)
  | decodeKey (text encoding : Value)
  | encryptSecret (secret key : Value)
  | encryptChanges (changes key : Value)
  | decryptRecord (record key : Value)
  | fieldsToColumns (fields : List (Text × Value))
  | recordFromRow (row : Value)
  | model (schema : Schema) (v : Value) (assignments : List (Value × Value))
  | member (enumeration : Enumeration) (v : Value)
  | exception (kind : VaultKind) (message : Value) (attributes : Assoc Value)
  | packPayload (schema : Schema) (v : Value)
  | unpackPayload (label data : Value)
  | loadRootKey (env : Settings.Environment)
  | configFromEnv (env : Settings.Environment)
  | wrapKey (org key root encoding : Value)
  | resolve (org root record : Value)

namespace Operation

def document {α : Type} (write : α → Assoc Value) (a : α) : Value := .map (write a)

def pairs (ps : List (Text × Value)) : Value := .list (ps.map fun (n, v) => .list [.text n, v])

def fieldPairs (fields : List (Text × Field)) : Value :=
  pairs (fields.map fun (name, field) => (name, document Field.document field))

def checked {α : Type} (name : Text) (c : Checked α) : Program α :=
  .ofExcept (Failure.ofChecked name c)

/-- Every field is checked before any is laid out. -/
def readFields : List (Text × Value) → Program (List (Text × Field))
  | [] => pure []
  | (name, v) :: rest => do
    let field ← checked Field.modelName (Field.read v)
    let fields ← readFields rest
    return (name, field) :: fields

/-- All fields; of an update also those that it was given. -/
def describeInstance (i : Instance) : Except Failure (Assoc Value) := do
  let document ← i.document
  if i.schema.name = Changes.modelName then
    return [("dump", pairs document), ("provided", pairs (← i.provided))]
  else return [("dump", pairs document)]

def instantiate (schema : Schema) (v : Value) (assignments : List (Value × Value)) :
    Except Failure Value := do
  let i ← (← Instance.read schema v).assignAll assignments
  return .map (← describeInstance i)

def commonAttributes : List Text := ["operation", "secret_id", "org_id"]

/-- What makes a failure is no attribute of it. -/
def isReserved (name : Text) : Bool := name == ("self" : Text) || name == ("message" : Text)

def attributeFault? (name : Text) : Option Failure :=
  if isReserved name then some (.repeatedAttribute VaultKind.vaultError.name name)
  else if commonAttributes.contains name then none
  else some (.unexpectedAttribute name)

/-- Failures of authentication take the field out of the attributes, and look for reserved
names, before the others are looked at. -/
def attributesFault? (kind : VaultKind) (names : List Text) : Option Failure :=
  if kind = .authenticationFailure then
    match names.find? isReserved with
    | some name => some (.repeatedAttribute kind.name name)
    | none => (names.filter (· != ("field" : Text))).findSome? attributeFault?
  else names.findSome? attributeFault?

def buildFailure (kind : VaultKind) (message : Value) (attributes : Assoc Value) :
    Except Failure VaultFailure :=
  match attributesFault? kind attributes.names with
  | some e => .error e
  | none =>
    let given (name : Text) : Value := (attributes.get? name).getD .null
    .ok
      { cause := .stated kind message
        operation := given "operation"
        secretId := given "secret_id"
        orgId := given "org_id"
        field := given "field" }

def describe (f : VaultFailure) : Value :=
  .map
    [("str", .text f.message), ("context", pairs f.context),
      ("client_error", .bool f.kind.isClientError), ("is_vault_error", .bool true)]

def unpacked (p : Payload) : Except Failure Value := do
  let packed ← p.pack
  return .map
    [("model", .text (Payload.modelName p.kind)), ("fields", pairs p.document),
      ("packed", .text packed)]

def keyStore (org : Value) (record? : Option OrgKeyRecord) (nonces : Nonces) : Memory :=
  let m := Memory.empty [] nonces
  match record? with
  | none => m
  | some record => { m with keys := [(org.toText, record)] }

def program : Operation → Program Value
  | .constants => pure (.map About.constants)
  | .encryptField plaintext key =>
    return document Field.document (← Sealing.encryptValue key.octets plaintext)
  | .decryptField field key => do
    let field ← checked Field.modelName (Field.read field)
    return .text (← Program.ofExcept (FieldCipher.decrypt key.octets (field.map .text)))
  | .decryptUnchecked field key =>
    return .text (← Program.ofExcept (FieldCipher.decryptDocument key.octets field))
  | .encodeKey key encoding =>
    return .text (← Program.ofExcept
      (FieldCipher.encodeKeyValue key (FieldCipher.encodingOf encoding)))
  | .decodeKey text encoding =>
    return .bytes (← Program.ofExcept
      (FieldCipher.decodeKeyValue text (FieldCipher.encodingOf encoding)))
  | .encryptSecret secret key => do
    let draft ← checked Draft.modelName (Draft.read secret)
    return fieldPairs (← Sealing.encryptDraft key.octets draft)
  | .encryptChanges changes key => do
    let changes ← checked Changes.modelName (Changes.read changes)
    return fieldPairs (← Sealing.encryptChanges key.octets changes)
  | .decryptRecord record key => do
    let record ← checked SecretRecord.modelName (SecretRecord.read record)
    return document Secret.document (← Sealing.decryptRecord key.octets record)
  | .fieldsToColumns fields => return pairs (Layout.columnsOf (← readFields fields))
  | .recordFromRow row =>
    return document SecretRecord.document (← Program.ofExcept (Layout.recordOf row))
  | .model schema v assignments => .ofExcept (instantiate schema v assignments)
  | .member enumeration v => return .text (← Program.ofExcept (enumeration.memberOf v))
  | .exception kind message attributes =>
    return describe (← Program.ofExcept (buildFailure kind message attributes))
  | .packPayload schema v => do
    let doc ← Program.ofExcept (schema.instantiate v)
    return .text (← Program.ofExcept (Payload.packDocument doc))
  | .unpackPayload label data => .ofExcept ((Payload.unpack label data).bind unpacked)
  | .loadRootKey env => return .bytes (← Settings.loadRootKey env)
  | .configFromEnv env => return pairs (← Settings.configOf env).document
  | .wrapKey org key root encoding =>
    return document OrgKeyRecord.document (← OrgKey.wrap org key root.octets encoding)
  | .resolve org root _ => do
    let root ← Program.ofExcept (OrgKey.checkRoot root)
    return .bytes (← OrgKey.resolve root org)

/-- A record that is given is checked before anything else. -/
def recordOf : Operation → Except Failure (Option OrgKeyRecord)
  | .resolve _ _ .null => .ok none
  | .resolve _ _ record =>
    some <$> Failure.ofChecked OrgKeyRecord.modelName (OrgKeyRecord.read record)
  | _ => .ok none

def organization : Operation → Value
  | .resolve org _ _ => org
  | _ => .null

def run (op : Operation) (nonces : Nonces) : Outcome Memory Value :=
  match op.recordOf with
  | .error e => ⟨.error e, [], Memory.empty [] nonces⟩
  | .ok record? => op.program.run Memory.backend (keyStore op.organization record? nonces)

end Operation
end EnvelopeVault
