import EnvelopeVault.Payload
import EnvelopeVault.OrgKeyRecord
import EnvelopeVault.Settings

/-!
# Schemas

The kinds of documents and the enumerations, by name. A document that is read
becomes its fields in the order of declaration.
-/

namespace EnvelopeVault

/-- The fields of a frozen kind cannot be assigned. -/
structure Schema where
  name : Text
  read : Value → Checked (Assoc Value)
  isFrozen : Bool

namespace Schema

def payload (kind : SecretKind) : Schema :=
  ⟨Payload.modelName kind, fun v => (Payload.read kind v).map Payload.document, false⟩

def all : List Schema :=
  [⟨Field.modelName, fun v => (Field.read v).map Field.document, true⟩,
    ⟨OrgKeyRecord.modelName, fun v => (OrgKeyRecord.read v).map OrgKeyRecord.document, false⟩,
    ⟨SecretRecord.modelName, fun v => (SecretRecord.read v).map SecretRecord.document, false⟩,
    ⟨Secret.modelName, fun v => (Secret.read v).map Secret.document, false⟩,
    ⟨Draft.modelName, fun v => (Draft.read v).map Draft.document, false⟩,
    ⟨Changes.modelName, fun v => (Changes.read v).map Changes.document, false⟩,
    payload .webLogin, payload .creditCard, payload .secureNote,
    ⟨VaultConfig.modelName, fun v => (VaultConfig.read v).map VaultConfig.document, false⟩]

def find? (name : Text) : Option Schema := all.find? (·.name == name)

def instantiate (s : Schema) (v : Value) : Except Failure (Assoc Value) :=
  Failure.ofChecked s.name (s.read v)

end Schema

structure Enumeration where
  name : Text
  members : List (Text × Text)
deriving DecidableEq, Repr

namespace Enumeration

def all : List Enumeration :=
  [⟨"SecretEncryptionAlgo", [("AES_256_GCM", aes256Gcm)]⟩,
    ⟨"SecretKeyEncoding",
      [("UTF8", KeyEncoding.utf8.label), ("BASE64", KeyEncoding.base64.label)]⟩,
    ⟨"ConsumerSecretType",
      [("WEB_LOGIN", SecretKind.webLogin.label), ("CREDIT_CARD", SecretKind.creditCard.label),
        ("SECURE_NOTE", SecretKind.secureNote.label)]⟩]

def find? (name : Text) : Option Enumeration := all.find? (·.name == name)

def memberOf (e : Enumeration) (v : Value) : Except Failure Text :=
  match v with
  | .text t =>
    match e.members.find? (·.2 == t) with
    | some (name, _) => .ok name
    | none => .error (.notAMember v e.name)
  | _ => .error (.notAMember v e.name)

end Enumeration
end EnvelopeVault
