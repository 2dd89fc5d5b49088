import EnvelopeVault.Secret

/-!
# Records of organization keys

An organization's key, encrypted as a text under the root key.
-/

namespace EnvelopeVault

structure OrgKeyRecord where
  orgId : Text
  wrappedKey : Field
  keyEncoding : KeyEncoding
  algorithm : Text
deriving DecidableEq, Repr

namespace OrgKeyRecord

def modelName : Text := "OrgKeyRecord"

def read : Value → Checked OrgKeyRecord :=
  Checked.document modelName fun doc =>
    OrgKeyRecord.mk <$> Checked.required "org_id" Checked.text doc
      <*> Checked.required "wrapped_key" Field.read doc
      <*> Checked.defaulted "key_encoding" .base64 (Checked.member KeyEncoding.table) doc
      <*> Checked.defaulted "algorithm" aes256Gcm Checked.text doc

def document (r : OrgKeyRecord) : Assoc Value :=
  [("org_id", .text r.orgId), ("wrapped_key", .map (Field.document r.wrappedKey)),
    ("key_encoding", .text r.keyEncoding.label), ("algorithm", .text r.algorithm)]

end OrgKeyRecord
end EnvelopeVault
