import EnvelopeVault.Proofs.Failures
import EnvelopeVault.Request

/-!
# A store of plain texts

What the vault is to be taken for by its callers: an ordered map from ids to
texts with an owner and a version, in which nothing is encrypted. Calls on the
vault with ids that are texts have a meaning here, and so have sequences of
them. What a caller expects of a version has to be said in the failure, and a
number of too many digits cannot be said.
-/

namespace EnvelopeVault

def Attributes.complete? (r : Attributes (Option α)) : Option (Attributes α) := do
  return ⟨← r.title, ← r.type, ← r.data, ← r.comment⟩

inductive Call where
  | create (draft : Draft) (org user : Text)
  | get (secret org : Text)
  | list (org user : Text)
  | update (secret : Text) (changes : Changes) (org : Text) (expected : Option Int)
  | delete (secret : Text)

def Call.program (root : Bytes) : Call → Program Reply
  | .create draft org user => return .id (← Vault.create root draft (.text org) (.text user))
  | .get secret org => return .secret (← Vault.get root (.text secret) (.text org))
  | .list org user => return .secrets (← Vault.list root (.text org) (.text user))
  | .update secret changes org expected =>
    return .id (← Vault.update root (.text secret) changes (.text org) (expected.map .int))
  | .delete secret => return .id (← Vault.delete (.text secret))

def Call.runAll (root : Bytes) : List Call → Memory → List (Except Failure Reply × Memory)
  | [], _ => []
  | call :: calls, m =>
    let o := (call.program root).run Memory.backend m
    (o.result, o.state) :: runAll root calls o.state

/-- A secret as it is kept in a store of plain texts. -/
structure PlainEntry where
  org : Text
  user : Text
  version : Int
  texts : Attributes (Option Text)
deriving DecidableEq, Repr

namespace PlainEntry

def secret (id : Text) (e : PlainEntry) : Except Reason Secret :=
  match e.texts.complete? with
  | some texts => .ok ⟨id, e.user, e.org, texts⟩
  | none => .error (.vault .authenticationFailure)

/-- Whether an entry is listed for a user of an organization: one without data is not. -/
def isListed (org user : Text) (e : PlainEntry) : Bool :=
  e.org == org && e.user == user && e.texts.data.isSome

/-- An update in conflict names the version that it expects, if this has a numeral. -/
def conflict (expected : Int) : Reason :=
  if Numeral.isWritable expected then .vault .versionConflict else .unwritable

def checkVersion (e : PlainEntry) : Option Int → Except Reason Unit
  | none => .ok ()
  | some expected => if expected = e.version then .ok () else .error (conflict expected)

/-- The texts of the changes replace those of the entry, and the version goes up by one. -/
def change (changes : Changes) (e : PlainEntry) : PlainEntry :=
  { e with
    version := e.version + 1
    texts := .ofFn fun a => (changes.get a).or (e.texts.get a) }

end PlainEntry

/-- `orgs` have a key, and new entries get the ids `newIds`, of which `created` are in use. -/
structure PlainStore where
  entries : Assoc PlainEntry
  orgs : Text → Bool
  newIds : Nat → Text
  created : Nat

namespace PlainStore

variable (s : PlainStore)

def checkOrg (org : Text) : Except Reason Unit :=
  if s.orgs org then .ok () else .error (.vault .organizationKeyNotFound)

def owned (secret org : Text) : Except Reason PlainEntry :=
  match s.entries.get? secret with
  | some e => if e.org = org then .ok e else .error (.vault .secretNotFound)
  | none => .error (.vault .secretNotFound)

def secrets : Assoc PlainEntry → Except Reason (List Secret)
  | [] => .ok []
  | (id, e) :: rest => do
    let secret ← e.secret id
    return secret :: (← secrets rest)

def create (draft : Draft) (org user : Text) : Except Reason (Text × PlainStore) := do
  s.checkOrg org
  let id := s.newIds s.created
  let texts := ⟨some draft.title, some draft.type, some draft.data, some (draft.comment.getD [])⟩
  return (id,
    { s with entries := s.entries.put id ⟨org, user, 1, texts⟩, created := s.created + 1 })

def get (secret org : Text) : Except Reason (Secret × PlainStore) := do
  let e ← s.owned secret org
  s.checkOrg org
  return (← e.secret secret, s)

def list (org user : Text) : Except Reason (List Secret × PlainStore) := do
  s.checkOrg org
  return (← secrets (s.entries.filter fun pair => pair.2.isListed org user), s)

def update (secret : Text) (changes : Changes) (org : Text) (expected : Option Int) :
    Except Reason (Text × PlainStore) :=
  if changes = ⟨none, none, none, none⟩ then .error (.vault .noFieldsProvided)
  else do
    let e ← s.owned secret org
    e.checkVersion expected
    s.checkOrg org
    return (secret, { s with entries := s.entries.put secret (e.change changes) })

def delete (secret : Text) : Except Reason (Text × PlainStore) :=
  match s.entries.get? secret with
  | some _ => .ok (secret, { s with entries := s.entries.erase secret })
  | none => .error (.vault .secretNotFound)

def perform : Call → Except Reason (Reply × PlainStore)
  | .create draft org user => (s.create draft org user).map (Prod.map .id id)
  | .get secret org => (s.get secret org).map (Prod.map .secret id)
  | .list org user => (s.list org user).map (Prod.map .secrets id)
  | .update secret changes org expected =>
    (s.update secret changes org expected).map (Prod.map .id id)
  | .delete secret => (s.delete secret).map (Prod.map .id id)

/-- A call that fails changes nothing. -/
def step (call : Call) : Except Reason Reply × PlainStore :=
  match s.perform call with
  | .ok (reply, s') => (.ok reply, s')
  | .error k => (.error k, s)

def runAll : List Call → PlainStore → List (Except Reason Reply × PlainStore)
  | [], _ => []
  | call :: calls, s => s.step call :: runAll calls (s.step call).2

end PlainStore
end EnvelopeVault
