import EnvelopeVault.Request
import EnvelopeVault.Store.Postgres

/-!
# Sessions over a scripted pool

A session runs steps one after another: requests to the vault, and single
accesses whose answers are given as they come from the pool.
-/

namespace EnvelopeVault

inductive PoolAction where
  | request (r : Request)
  | fetchById (secret : Value)
  /-- Only rows with data, if the last value counts as true. -/
  | fetchFiltered (org user requireData : Value)
  | insert (row : Row)
  | updatePartial (secret : Value) (columns : Row) (expected : Option Value)
  | deleteById (secret : Value)
  | findKey (org : Value)
  | createTables

namespace Pool

def raw (answer : Except Failure Value × Pool) : Outcome Pool Reply :=
  ⟨answer.1.map .raw, [], answer.2⟩

def perform (root : Bytes) (p : Pool) : PoolAction → Outcome Pool Reply
  | .request r => (r.program root).run Postgres.backend p
  | .fetchById secret => raw (Postgres.fetchById secret p)
  | .fetchFiltered org user requireData =>
    raw (Postgres.fetchFiltered org user requireData.isTruthy p)
  | .insert row => raw (Postgres.insert row p)
  | .updatePartial secret columns expected =>
    raw (Postgres.updatePartial secret (Assoc.putAll [] columns) expected p)
  | .deleteById secret => raw (Postgres.deleteById secret p)
  | .findKey org =>
    let (result, p) := Postgres.findKey org p
    ⟨result.map fun record? =>
      match record? with
      | none => .nothing
      | some record => .keyRecord record, [], p⟩
  | .createTables =>
    let outcome := Postgres.createTables p
    ⟨outcome.result.map fun _ => .nothing, outcome.log, outcome.state⟩

/-- The outcomes of actions. The pool in each has the events of its action alone. -/
def runAll (root : Bytes) (p : Pool) : List PoolAction → List (Outcome Pool Reply)
  | [] => []
  | action :: rest =>
    let outcome := perform root { p with events := [] } action
    outcome :: runAll root outcome.state rest

end Pool
end EnvelopeVault
