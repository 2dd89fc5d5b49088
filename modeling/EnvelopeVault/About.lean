import EnvelopeVault.Cipher.Gcm
import EnvelopeVault.Failure
import EnvelopeVault.Layout
import EnvelopeVault.Schema
import EnvelopeVault.Store.Sql

/-!
# About the package

The package's description of itself: what it is, which names it offers, and
the sizes and columns that callers may rely on.
-/

namespace EnvelopeVault.About

def description : Assoc Text :=
  [("version", "0.1.0"),
    ("title", "navigator_secrets"),
    ("description", "Navigator Secrets stores organization members' secrets with " ++
      "field-level envelope encryption.")]

def exports : List Text :=
  ["SecretService", "OrgKeyResolver", "wrap_org_key", "encrypt_field", "decrypt_field",
    "encrypt_secret", "encrypt_changes", "decrypt_record", "VaultConfig", "load_root_key",
    "ConsumerSecretStore", "OrgKeyStore", "PgConsumerSecretStore", "PgOrgKeyStore",
    "create_tables", "ConsumerSecret", "ConsumerSecretCreate", "ConsumerSecretRecord",
    "ConsumerSecretType", "ConsumerSecretUpdate", "EncryptedField", "OrgKeyRecord",
    "SecretEncryptionAlgo", "SecretKeyEncoding", "VaultError", "AuthenticationFailure",
    "NoFieldsProvided", "OrganizationKeyNotFound", "PersistenceFailure", "SecretNotFound",
    "UnsupportedAlgorithm", "VersionConflict"]

def texts (ts : List Text) : Value := .list (ts.map .text)

def pairs (ps : List (Text × Text)) : Value :=
  .list (ps.map fun (a, b) => .list [.text a, .text b])

def constants : Assoc Value :=
  let described : Assoc Value := description.map fun (name, t) => (name, .text t)
  let sizes : Assoc Value :=
    [("nonce_size", .int nonceSize), ("tag_size", .int tagSize), ("key_length", .int keySize),
      ("root_key_env", .text Settings.rootKeyVariable)]
  let names : Assoc Value :=
    [("secret_fields", texts (Attribute.all.map Attribute.name)),
      ("encrypted_columns", texts (Text.sorted Layout.encryptedColumns)),
      ("insert_columns", texts Sql.insertColumns),
      ("ddl", .text Sql.tables),
      ("exports", texts exports),
      ("enums", .map (Enumeration.all.map fun e => (e.name, pairs e.members))),
      ("client_errors", .map (VaultKind.all.map fun k => (k.name, .bool k.isClientError)))]
  described ++ sizes ++ names

end EnvelopeVault.About
