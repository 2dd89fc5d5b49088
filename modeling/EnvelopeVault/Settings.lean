import EnvelopeVault.Program
import EnvelopeVault.Text.Base64

/-!
# Settings

The root key and the encoding of organization keys, from environment variables
or from a document.
-/

namespace EnvelopeVault

structure VaultConfig where
  rootKey : Bytes
  algorithm : Text
  keyEncoding : KeyEncoding
deriving DecidableEq, Repr

namespace VaultConfig

def modelName : Text := "VaultConfig"

def rootKeyOf (v : Value) : Checked Bytes :=
  match Checked.octets v with
  | .ok b => if b.length = keySize then .ok b else Checked.fault (.rootKeyLength b.length)
  | .faulty faults => .faulty faults

def read : Value → Checked VaultConfig :=
  Checked.document modelName fun doc =>
    VaultConfig.mk <$> Checked.required "root_key" rootKeyOf doc
      <*> Checked.defaulted "algorithm" aes256Gcm
        (Checked.member [(aes256Gcm, aes256Gcm)]) doc
      <*> Checked.defaulted "key_encoding" .base64 (Checked.member KeyEncoding.table) doc

def document (c : VaultConfig) : Assoc Value :=
  [("root_key", .bytes c.rootKey), ("algorithm", .text c.algorithm),
    ("key_encoding", .text c.keyEncoding.label)]

end VaultConfig

namespace Settings

abbrev Environment := Assoc Text

def rootKeyVariable : Text := "VAULT_ROOT_KEY"

def keyEncodingVariable : Text := "VAULT_ORG_KEY_ENCODING"

def rootKeyOfText (t : Text) : Except Failure Bytes :=
  if t.any (fun c => 0x80 ≤ c.val) then .error .notAscii
  else
    match Base64.decodeStrict t with
    | none => .error .rootKeyNotBase64
    | some b => if b.length = keySize then .ok b else .error (.rootKeyLength b.length)

/-- An empty variable counts as unset. -/
def loadRootKey (env : Environment) : Program Bytes :=
  match env.get? rootKeyVariable with
  | none => .fail .rootKeyUnset
  | some [] => .fail .rootKeyUnset
  | some t => do
    let key ← Program.ofExcept (rootKeyOfText t)
    .log .rootKeyLoaded
    return key

def configOf (env : Environment) : Program VaultConfig := do
  let rootKey ← loadRootKey env
  let encoding := (env.get? keyEncodingVariable).getD KeyEncoding.base64.label
  .ofExcept (Failure.ofChecked VaultConfig.modelName
    (VaultConfig.read (.map [("root_key", .bytes rootKey), ("key_encoding", .text encoding)])))

end Settings
end EnvelopeVault
