import EnvelopeVault.FieldCipher
import EnvelopeVault.Program

/-!
# Sealing and opening secrets

Every attribute is encrypted by itself, under a nonce of its own, in a fixed
order. A record is opened as a whole or not at all: the first attribute that is
absent or does not verify is blamed, logged and ends the opening.
-/

namespace EnvelopeVault.Sealing

/-- The key is checked before a nonce is drawn, the text is encoded after that. -/
def encrypt (key : Bytes) (plaintext : Text) : Program Field :=
  match Key.ofBytes? key with
  | none => .fail .fieldKeySize
  | some key => .draw fun nonce => .ofExcept (FieldCipher.encryptWith key nonce plaintext)

/-- What is no text is noticed as late as text that cannot be encoded. -/
def encryptValue (key : Bytes) (plaintext : Value) : Program Field :=
  match plaintext with
  | .text t => encrypt key t
  | v =>
    match Key.ofBytes? key with
    | none => .fail .fieldKeySize
    | some _ => .draw fun _ => .fail (.notEncodable v)

def encryptAll (key : Bytes) : List (Text × Text) → Program (List (Text × Field))
  | [] => pure []
  | (name, plaintext) :: rest => do
    let field ← encrypt key plaintext
    let fields ← encryptAll key rest
    return (name, field) :: fields

def encryptDraft (key : Bytes) (draft : Draft) : Program (List (Text × Field)) :=
  encryptAll key draft.texts.toList

def encryptChanges (key : Bytes) (changes : Changes) : Program (List (Text × Field)) :=
  encryptAll key changes.provided

def openAttribute (key : Bytes) (record : SecretRecord) (a : Attribute) :
    Except Failure Text :=
  match record.fields.get a with
  | none => .error (.ofCause .missingField)
  | some field => FieldCipher.decrypt key (field.map .text)

/-- A failure of authentication names the attribute and is logged; others pass. -/
def blame (record : SecretRecord) (a : Attribute) (e : Failure) : Program Text :=
  match e with
  | .vault f =>
    if f.kind = .authenticationFailure then
      .note (.integrityFailure record.id record.orgId a)
        (.fail (.vault { f with
          field := .text a.name, secretId := .text record.id, orgId := .text record.orgId }))
    else .fail e
  | _ => .fail e

def openOrBlame (key : Bytes) (record : SecretRecord) (a : Attribute) : Program Text :=
  match openAttribute key record a with
  | .ok text => pure text
  | .error e => blame record a e

def decryptRecord (key : Bytes) (record : SecretRecord) : Program Secret :=
  if record.algorithm = aes256Gcm then do
    let title ← openOrBlame key record .title
    let type ← openOrBlame key record .type
    let data ← openOrBlame key record .data
    let comment ← openOrBlame key record .comment
    return ⟨record.id, record.userId, record.orgId, ⟨title, type, data, comment⟩⟩
  else
    .fail (.vault
      { cause := .unsupportedAlgorithm record.algorithm
        secretId := .text record.id
        orgId := .text record.orgId })

end EnvelopeVault.Sealing
