import EnvelopeVault.Checked
import EnvelopeVault.Field
import EnvelopeVault.Label

/-!
# Secrets

A secret as its owner sees it, as it is handed over for creation or change, and
as it is stored, with every attribute encrypted.
-/

namespace EnvelopeVault

structure Draft where
  title : Text
  type : Text
  data : Text
  comment : Option Text
deriving DecidableEq, Repr

/-- A comment that is left out is kept as an empty one. -/
def Draft.texts (d : Draft) : Attributes Text := ⟨d.title, d.type, d.data, d.comment.getD []⟩

/-- New texts for some attributes; the others are to stay as they are. -/
abbrev Changes := Attributes (Option Text)

def Changes.provided (c : Changes) : List (Text × Text) :=
  c.toList.filterMap fun (name, text?) => text?.map fun text => (name, text)

structure Secret where
  id : Text
  userId : Text
  orgId : Text
  texts : Attributes Text
deriving DecidableEq, Repr

/-- A stored secret. An attribute may be absent in rows from earlier times. -/
structure SecretRecord where
  id : Text
  userId : Text
  orgId : Text
  fields : Attributes (Option Field)
  algorithm : Text
  keyEncoding : Text
  version : Int
  createdAt : Option Timestamp
  updatedAt : Option Timestamp
deriving DecidableEq, Repr

namespace Field

def modelName : Text := "EncryptedField"

def ofParts (parts : Triple Value) : Checked Field :=
  Triple.mk <$> (Checked.text parts.ciphertext).under "ciphertext"
    <*> (Checked.text parts.iv).under "iv"
    <*> (Checked.text parts.tag).under "tag"

def read : Value → Checked Field :=
  Checked.document modelName fun doc =>
    Triple.mk <$> Checked.required "ciphertext" Checked.text doc
      <*> Checked.required "iv" Checked.text doc
      <*> Checked.required "tag" Checked.text doc

end Field

namespace Draft

def modelName : Text := "ConsumerSecretCreate"

def read : Value → Checked Draft :=
  Checked.document modelName fun doc =>
    Draft.mk <$> Checked.required "title" Checked.text doc
      <*> Checked.required "type" Checked.text doc
      <*> Checked.required "data" Checked.text doc
      <*> Checked.optional "comment" Checked.text doc

end Draft

namespace Changes

def modelName : Text := "ConsumerSecretUpdate"

def read : Value → Checked Changes :=
  Checked.document modelName fun doc =>
    Attributes.mk <$> Checked.optional "title" Checked.text doc
      <*> Checked.optional "type" Checked.text doc
      <*> Checked.optional "data" Checked.text doc
      <*> Checked.optional "comment" Checked.text doc

end Changes

namespace Secret

def modelName : Text := "ConsumerSecret"

def read : Value → Checked Secret :=
  Checked.document modelName fun doc =>
    (fun id user org title type data comment => ⟨id, user, org, ⟨title, type, data, comment⟩⟩)
      <$> Checked.required "id" Checked.text doc
      <*> Checked.required "user_id" Checked.text doc
      <*> Checked.required "org_id" Checked.text doc
      <*> Checked.required "title" Checked.text doc
      <*> Checked.required "type" Checked.text doc
      <*> Checked.required "data" Checked.text doc
      <*> Checked.defaulted "comment" [] Checked.text doc

end Secret

namespace SecretRecord

def modelName : Text := "ConsumerSecretRecord"

def read : Value → Checked SecretRecord :=
  Checked.document modelName fun doc =>
    (fun id user org title type data comment algorithm encoding version created updated =>
      ⟨id, user, org, ⟨title, type, data, comment⟩, algorithm, encoding, version, created,
        updated⟩)
      <$> Checked.required "id" Checked.text doc
      <*> Checked.required "user_id" Checked.text doc
      <*> Checked.required "org_id" Checked.text doc
      <*> Checked.optional "title" Field.read doc
      <*> Checked.optional "type" Field.read doc
      <*> Checked.optional "data" Field.read doc
      <*> Checked.optional "comment" Field.read doc
      <*> Checked.defaulted "algorithm" aes256Gcm Checked.text doc
      <*> Checked.defaulted "key_encoding" KeyEncoding.utf8.label Checked.text doc
      <*> Checked.defaulted "version" 1 Checked.integer doc
      <*> Checked.optional "created_at" Checked.timestamp doc
      <*> Checked.optional "updated_at" Checked.timestamp doc

end SecretRecord

/-! ## As documents -/

namespace Field

def document (f : Field) : Assoc Value := f.toList.map fun (name, text) => (name, .text text)

end Field

namespace Secret

def document (s : Secret) : Assoc Value :=
  ("id", .text s.id) :: ("user_id", .text s.userId) :: ("org_id", .text s.orgId) ::
    s.texts.toList.map fun (name, text) => (name, .text text)

end Secret

namespace SecretRecord

def document (r : SecretRecord) : Assoc Value :=
  let fields : Assoc Value := r.fields.toList.map fun (name, field) =>
    (name, Value.ofOption (fun f => .map (Field.document f)) field)
  let labels : Assoc Value :=
    [("algorithm", .text r.algorithm), ("key_encoding", .text r.keyEncoding),
      ("version", .int r.version), ("created_at", Value.ofOption .time r.createdAt),
      ("updated_at", Value.ofOption .time r.updatedAt)]
  ("id", .text r.id) :: ("user_id", .text r.userId) :: ("org_id", .text r.orgId) ::
    (fields ++ labels)

end SecretRecord

namespace Draft

def document (d : Draft) : Assoc Value :=
  [("title", .text d.title), ("type", .text d.type), ("data", .text d.data),
    ("comment", Value.ofOption .text d.comment)]

end Draft

namespace Changes

def document (c : Changes) : Assoc Value :=
  c.toList.map fun (name, text) => (name, Value.ofOption .text text)

end Changes
end EnvelopeVault
