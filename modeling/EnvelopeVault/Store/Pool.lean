import EnvelopeVault.Program
import EnvelopeVault.Store.Sql

/-!
# A scripted pool of connections

Each acquisition of a connection is answered by the next item of a script,
which may fault on entering, in the statement, or on leaving. What the pool saw
is recorded in order.
-/

namespace EnvelopeVault

structure PoolItem where
  result : Value
  acquireFault : Option StoreFault
  statementFault : Option StoreFault
  releaseFault : Option StoreFault

inductive PoolEvent where
  | acquire
  | statement (query : Query)
  | release

structure Pool where
  script : List PoolItem
  events : List PoolEvent
  nonces : Nonces

namespace Pool

def start (script : List PoolItem) (nonces : Nonces) : Pool := ⟨script, [], nonces⟩

/-- Past the end of the script there is nothing to be found. -/
def nextItem (p : Pool) : PoolItem := p.script.headD ⟨.null, none, none, none⟩

def saw (p : Pool) (events : List PoolEvent) : Pool :=
  { p with script := p.script.tail, events := p.events ++ events }

/-- A connection is released also after a fault; a fault on leaving replaces it. -/
def run (p : Pool) (query : Query) : Except StoreFault Value × Pool :=
  let item := p.nextItem
  match item.acquireFault with
  | some fault => (.error fault, p.saw [.acquire])
  | none =>
    let result : Except StoreFault Value :=
      match item.releaseFault, item.statementFault with
      | some fault, _ => .error fault
      | none, some fault => .error fault
      | none, none => .ok item.result
    (result, p.saw [.acquire, .statement query, .release])

def nonce (p : Pool) : Nonce × Pool :=
  let (nonce, nonces) := p.nonces.next
  (nonce, { p with nonces := nonces })

end Pool
end EnvelopeVault
