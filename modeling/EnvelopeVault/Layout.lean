import EnvelopeVault.Failure
import EnvelopeVault.Secret

/-!
# The layout of rows

A stored secret is a row: each attribute in three columns, the ids, labels,
version and times in one column each. An attribute whose three columns are null
is absent; one of which only some are null is refused before anything else in
the row is looked at closely.
-/

namespace EnvelopeVault.Layout

def fieldColumns (name : Text) (field : Field) : Row :=
  Part.all.map fun part => (column name part, .text (field.get part))

/-- The columns of all fields; a later field replaces an earlier one of its name. -/
def columnsOf (fields : List (Text × Field)) : Row :=
  Assoc.putAll [] (fields.flatMap fun (name, field) => fieldColumns name field)

def encryptedColumns : List Text :=
  Attribute.all.flatMap fun a => Part.all.map fun part => column a.name part

def cell (row : Row) (name : Text) : Except Failure Value :=
  match row.get? name with
  | some v => .ok v
  | none => .error (.missingColumn name)

def cellOf (row : Value) (name : Text) : Except Failure Value :=
  match row with
  | .map cells => cell cells name
  | other => .error (.notARow other)

def partsOf (row : Value) (name : Text) : Except Failure (Triple Value) := do
  let ciphertext ← cellOf row (column name .ciphertext)
  let iv ← cellOf row (column name .iv)
  let tag ← cellOf row (column name .tag)
  return ⟨ciphertext, iv, tag⟩

def fieldOf (row : Value) (id : Text) (a : Attribute) : Except Failure (Option Field) := do
  let parts ← partsOf row a.name
  if Part.all.all fun part => (parts.get part).isNull then return none
  else if Part.all.any fun part => (parts.get part).isNull then
    .error (.vault
      { cause := .incompleteField, secretId := .text id, field := .text a.name })
  else some <$> Failure.ofChecked Field.modelName (Field.ofParts parts)

/-- The labels, version and times of a row, beside ids and fields that are known. -/
def recordWith (id user org : Text) (fields : Attributes (Option Field))
    (algorithm encoding version created updated : Value) : Checked SecretRecord :=
  (fun algorithm encoding version created updated =>
    ⟨id, user, org, fields, algorithm, encoding, version, created, updated⟩)
    <$> (Checked.text algorithm).under "algorithm"
    <*> (Checked.text encoding).under "key_encoding"
    <*> (Checked.integer version).under "version"
    <*> (Checked.nullable Checked.timestamp created).under "created_at"
    <*> (Checked.nullable Checked.timestamp updated).under "updated_at"

def recordOf (row : Value) : Except Failure SecretRecord := do
  let id := (← cellOf row "id").toText
  let user := (← cellOf row "userId").toText
  let org := (← cellOf row "orgId").toText
  let algorithm ← cellOf row "algorithm"
  let encoding ← cellOf row "keyEncoding"
  let version ← cellOf row "version"
  let created ← cellOf row "createdAt"
  let updated ← cellOf row "updatedAt"
  let title ← fieldOf row id .title
  let type ← fieldOf row id .type
  let data ← fieldOf row id .data
  let comment ← fieldOf row id .comment
  Failure.ofChecked SecretRecord.modelName
    (recordWith id user org ⟨title, type, data, comment⟩ algorithm encoding version created
      updated)

end EnvelopeVault.Layout
