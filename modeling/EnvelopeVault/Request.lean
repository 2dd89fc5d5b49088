import EnvelopeVault.Vault

/-!
# Requests

What a caller asks of the vault, with its documents still unchecked, and what
is replied.
-/

namespace EnvelopeVault

inductive Request where
  | create (secret org user : Value)
  | get (secret org : Value)
  | list (org user : Value)
  /-- Whatever `expected` is, it is compared with the version. -/
  | update (secret changes org : Value) (expected : Option Value)
  | delete (secret : Value)
  | resolve (org : Value)

inductive Reply where
  | nothing
  | found (b : Bool)
  | id (t : Text)
  | key (b : Bytes)
  | secret (s : Secret)
  | secrets (ss : List Secret)
  | keyRecord (r : OrgKeyRecord)
  /-- An answer of a store, as it came. -/
  | raw (v : Value)

namespace Reply

def toValue : Reply → Value
  | .nothing => .null
  | .found b => .bool b
  | .id t => .text t
  | .key b => .bytes b
  | .secret s => .map s.document
  | .secrets ss => .list (ss.map fun s => .map s.document)
  | .keyRecord r => .map r.document
  | .raw v => v

end Reply

namespace Request

/-- Documents are checked before anything is accessed. -/
def program (root : Bytes) : Request → Program Reply
  | .create secret org user => do
    let draft ← Program.ofExcept (Failure.ofChecked Draft.modelName (Draft.read secret))
    return .id (← Vault.create root draft org user)
  | .get secret org => return .secret (← Vault.get root secret org)
  | .list org user => return .secrets (← Vault.list root org user)
  | .update secret changes org expected => do
    let changes ← Program.ofExcept (Failure.ofChecked Changes.modelName (Changes.read changes))
    return .id (← Vault.update root secret changes org expected)
  | .delete secret => return .id (← Vault.delete secret)
  | .resolve org => return .key (← OrgKey.resolve root org)

end Request
end EnvelopeVault
