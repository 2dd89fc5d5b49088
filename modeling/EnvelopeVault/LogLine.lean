import EnvelopeVault.Field
import EnvelopeVault.Text.Quoted

/-!
# Log lines

What the vault says while it works. Lines name ids, counts and fields; none
has a place for a plaintext, a ciphertext or a key.
-/

namespace EnvelopeVault

inductive LogLevel where
  | debug
  | info
  | error
deriving DecidableEq, Repr

inductive LogLine where
  | secretCreated (secret org user : Text)
  | secretsListed (count : Nat) (org user : Text)
  | secretUpdated (secret : Text) (fields : List Text)
  | secretDeleted (secret : Text)
  | integrityFailure (secret org : Text) (field : Attribute)
  | keyUnverified (org : Text)
  | keyMalformed (org : Text)
  | rootKeyLoaded
  | tablesEnsured
deriving DecidableEq, Repr

namespace LogLine

def level : LogLine → LogLevel
  | .secretCreated .. => .info
  | .secretsListed .. => .debug
  | .secretUpdated .. => .debug
  | .secretDeleted _ => .info
  | .integrityFailure .. => .error
  | .keyUnverified _ => .error
  | .keyMalformed _ => .error
  | .rootKeyLoaded => .debug
  | .tablesEnsured => .debug

def text : LogLine → Text
  | .secretCreated secret org user =>
    "Consumer secret created: id=" ++ secret ++ " org=" ++ org ++ " user=" ++ user
  | .secretsListed count org user =>
    "Listed " ++ Text.ofNat count ++ " consumer secret(s): org=" ++ org ++ " user=" ++ user
  | .secretUpdated secret fields =>
    "Consumer secret updated: id=" ++ secret ++ " fields=" ++
      Quoted.quoteList (Text.sorted fields)
  | .secretDeleted secret => "Consumer secret deleted: id=" ++ secret
  | .integrityFailure secret org field =>
    "Data integrity failure: secret=" ++ secret ++ " org=" ++ org ++ " field=" ++ field.name
  | .keyUnverified org => "Organization key failed verification: org=" ++ org
  | .keyMalformed org => "Malformed organization key: org=" ++ org
  | .rootKeyLoaded => "Loaded vault root key from VAULT_ROOT_KEY"
  | .tablesEnsured => "Ensured consumer_secrets table"

end LogLine
end EnvelopeVault
