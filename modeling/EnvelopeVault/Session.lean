import EnvelopeVault.Request
import EnvelopeVault.Store.Memory

/-!
# Sessions over the store in memory

A session runs steps one after another: requests to the vault and work on the
stores beside it. A step may be raced: just before a chosen access of it, other
steps run on the same stores. The step itself keeps the root key that it began
with.
-/

namespace EnvelopeVault

inductive AccessKind where
  | findKey
  | fetch
  | fetchFiltered
  | insert
  | update
  | delete
deriving DecidableEq, Repr

def Access.kind : Access → AccessKind
  | .findKey _ => .findKey
  | .fetch _ => .fetch
  | .fetchFiltered .. => .fetchFiltered
  | .insert _ => .insert
  | .update .. => .update
  | .delete _ => .delete

inductive Action where
  | request (r : Request)
  /-- Wraps a key under the root key last given, and stores the record. -/
  | provision (org key encoding : Value)
  | putKey (record : Value)
  | dropKey (org : Value)
  | setRoot (root : Value)
  | putRow (row : Row)
  | setColumns (secret : Value) (columns : Row)
  | copyField (source target : Value × Text) (suffixes : List Text)
  | flipBit (secret column : Value) (index bit : Int)

mutual
inductive Step where
  | mk (action : Action) (races : Option (List Race))

/-- Steps to run before the access of a kind that comes as the `nth`. -/
inductive Race where
  | mk (kind : AccessKind) (nth : Nat) (steps : List Step)
end

/-- What a step gave. The reports of steps that raced it are in the order of running. -/
inductive Report where
  | mk (result : Except Failure Reply) (log : List LogLine) (races : Option (List Report))

/-- `root` is the root key last given, `rootKey` the one in use. -/
structure Session where
  memory : Memory
  root : Value
  rootKey : Bytes

/-- Steps that run before an access, as a function on sessions. -/
structure Ambush where
  kind : AccessKind
  nth : Nat
  run : Session → List Report × Session

structure Raced where
  session : Session
  seen : List AccessKind
  reports : List Report

namespace Raced

def withMemory (r : Raced) (m : Memory) : Raced :=
  { r with session := { r.session with memory := m } }

def spring (r : Raced) (ambush : Ambush) (kind : AccessKind) : Raced :=
  if ambush.kind = kind ∧ ambush.nth = r.seen.count kind then
    let (reports, session) := ambush.run r.session
    { r with session := session, reports := r.reports ++ reports }
  else r

def announce (ambushes : List Ambush) (kind : AccessKind) (r : Raced) : Raced :=
  ambushes.foldl (fun r ambush => r.spring ambush kind) { r with seen := kind :: r.seen }

def answer (ambushes : List Ambush) (a : Access) (r : Raced) : Except Failure a.Answer × Raced :=
  let r := announce ambushes a.kind r
  let (result, m) := Memory.answer a r.session.memory
  (result, r.withMemory m)

def nonce (r : Raced) : Nonce × Raced :=
  let (nonce, m) := r.session.memory.nonce
  (nonce, r.withMemory m)

def backend (ambushes : List Ambush) : Backend Raced := ⟨answer ambushes, nonce⟩

end Raced

namespace Session

/-- A session begins only with a root key of the right size. -/
def start (root : Value) (plan : List Value) (nonces : Nonces) : Except Failure Session := do
  let rootKey ← OrgKey.checkRoot root
  return ⟨Memory.empty plan nonces, root, rootKey⟩

/-- A state of the stores that work beside the vault has led to, with its result. -/
def reach (s : Session) (result : Except Failure Reply) (m : Memory) : Outcome Raced Reply :=
  ⟨result, [], ⟨{ s with memory := m }, [], []⟩⟩

/-- A change of the stores beside the vault; where it fails nothing has changed. -/
def change (s : Session) (result : Except Failure (Reply × Memory)) : Outcome Raced Reply :=
  match result with
  | .ok (reply, m) => s.reach (.ok reply) m
  | .error e => s.reach (.error e) s.memory

def runProgram (s : Session) (ambushes : List Ambush) (p : Program Reply) :
    Outcome Raced Reply :=
  p.run (Raced.backend ambushes) ⟨s, [], []⟩

def provision (s : Session) (ambushes : List Ambush) (org key encoding : Value) :
    Outcome Raced Reply :=
  let outcome := s.runProgram ambushes do
    return .keyRecord (← OrgKey.wrap org key s.root.octets encoding)
  match outcome.result with
  | .ok (.keyRecord record) =>
    { outcome with
      state := outcome.state.withMemory (outcome.state.session.memory.putKey record) }
  | _ => outcome

/-- The new root key is kept for provisioning even when it cannot be used otherwise. -/
def setRoot (s : Session) (root : Value) : Outcome Raced Reply :=
  let s := { s with root := root }
  match OrgKey.checkRoot root with
  | .ok rootKey => ⟨.ok .nothing, [], ⟨{ s with rootKey := rootKey }, [], []⟩⟩
  | .error e => ⟨.error e, [], ⟨s, [], []⟩⟩

def perform (s : Session) (ambushes : List Ambush) : Action → Outcome Raced Reply
  | .request r => s.runProgram ambushes (r.program s.rootKey)
  | .provision org key encoding => s.provision ambushes org key encoding
  | .putKey record => s.change do
    let record ← Failure.ofChecked OrgKeyRecord.modelName (OrgKeyRecord.read record)
    return (.nothing, s.memory.putKey record)
  | .dropKey org => s.change do
    let (found, m) ← s.memory.dropKey org
    return (.found found, m)
  | .setRoot root => s.setRoot root
  | .putRow cells =>
    let (row, m) := s.memory.putRow cells
    s.change (.ok (.id ((row.get? "id").getD .null).toText, m))
  | .setColumns secret columns => s.change do
    return (.nothing, ← s.memory.setColumns secret columns)
  | .copyField source target suffixes =>
    let (result, m) := s.memory.copyField source target suffixes
    s.reach (result.map fun _ => .nothing) m
  | .flipBit secret column index bit => s.change do
    return (.nothing, ← s.memory.flipBit secret column index bit)

mutual
def runStep (s : Session) : Step → Report × Session
  | .mk action none =>
    let outcome := s.perform [] action
    (.mk outcome.result outcome.log none, outcome.state.session)
  | .mk action (some races) =>
    let outcome := s.perform (ambushes races) action
    (.mk outcome.result outcome.log (some outcome.state.reports), outcome.state.session)

def runSteps (s : Session) : List Step → List Report × Session
  | [] => ([], s)
  | step :: rest =>
    let (report, s) := runStep s step
    let (reports, s) := runSteps s rest
    (report :: reports, s)

def ambushes : List Race → List Ambush
  | [] => []
  | .mk kind nth steps :: rest => ⟨kind, nth, fun s => runSteps s steps⟩ :: ambushes rest
end

def observe (s : Session) : List Step → List (Report × Memory × Memory)
  | [] => []
  | step :: rest =>
    let (report, after) := s.runStep step
    (report, s.memory, after.memory) :: after.observe rest

end Session
end EnvelopeVault
