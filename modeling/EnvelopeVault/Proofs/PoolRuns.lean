import EnvelopeVault.Proofs.FailureKinds
import EnvelopeVault.Store.Postgres

/-!
# Runs over a scripted pool

Each access takes one item of the script. `Postgres.answer_eq` says what becomes
of it: the access fails with the fault that comes out of the item, wrapped under
its name, or makes an answer of the value. From this follows what the pool has
seen after a run (`run_events`), and that the first fault is the end of the run
and all that comes out of it (`driver_faults_surface_once`).
-/

namespace EnvelopeVault

-- ---------------------------------------------------------------------------
-- Items of a script
-- ---------------------------------------------------------------------------

namespace PoolItem

/-- The fault that comes out: of acquiring the connection, or of leaving it, or of the
statement. -/
def fault? (item : PoolItem) : Option StoreFault :=
  item.acquireFault.or (item.releaseFault.or item.statementFault)

/-- What the pool sees of a statement: a connection that faults on entering is not used. -/
def events (item : PoolItem) (q : Query) : List PoolEvent :=
  match item.acquireFault with
  | some _ => [.acquire]
  | none => [.acquire, .statement q, .release]

theorem events_of_quiet {item : PoolItem} (h : item.fault? = none) (q : Query) :
    item.events q = [.acquire, .statement q, .release] := by
  have hacquire : item.acquireFault = none := by
    rw [fault?, Option.or_eq_none_iff] at h
    exact h.1
  rw [events, hacquire]

end PoolItem

namespace Pool

/-- The item for the access with number `k` from now. -/
def item (p : Pool) (k : Nat) : PoolItem := p.script.getD k ⟨.null, none, none, none⟩

theorem nextItem_eq (p : Pool) : p.nextItem = p.item 0 := by
  cases h : p.script <;> simp [nextItem, item, h]

@[simp] theorem item_saw (p : Pool) (events : List PoolEvent) (k : Nat) :
    (p.saw events).item k = p.item (k + 1) := by
  cases h : p.script <;> simp [item, saw, h]

theorem run_eq (p : Pool) (q : Query) :
    p.run q = ((p.item 0).fault?.elim (.ok (p.item 0).result) .error,
      p.saw ((p.item 0).events q)) := by
  rw [run, nextItem_eq]
  generalize p.item 0 = item
  obtain ⟨result, acquireFault, statementFault, releaseFault⟩ := item
  cases acquireFault <;> cases releaseFault <;> cases statementFault <;> rfl

end Pool

-- ---------------------------------------------------------------------------
-- Accesses
-- ---------------------------------------------------------------------------

namespace Access

def operation : Access → Text
  | .findKey _ => "FindOrgKeyRecord"
  | .fetch _ => "FindConsumerSecretById"
  | .fetchFiltered .. => "FindAllOrganizationConsumerSecrets"
  | .insert _ => "CreateConsumerSecret"
  | .update .. => "UpdateConsumerSecret"
  | .delete _ => "DeleteConsumerSecret"

def secretId : Access → Value
  | .fetch secret => secret
  | .update secret _ _ => secret
  | .delete secret => secret
  | _ => .null

def orgId : Access → Value
  | .findKey org => org
  | .fetchFiltered org _ _ => org
  | .insert row => (row.get? "orgId").getD .null
  | _ => .null

/-- How an access fails when a fault of the driver comes out of it. -/
def failure (a : Access) (fault : StoreFault) : Failure :=
  if fault.kind = .cancelled then .raised fault
  else .vault
    { cause := .persistence fault
      operation := .text a.operation
      secretId := a.secretId
      orgId := a.orgId }

/-- The answer that an access makes of what the driver gives. -/
def interpret : (a : Access) → Value → Except Failure a.Answer
  | .findKey org, v =>
    match v.present with
    | none => .ok none
    | some row => some <$> Postgres.keyRecordOf org row
  | .fetch _, v => .ok v.present
  | .fetchFiltered .., v => Postgres.rowsOf v
  | .insert _, v => .ok v
  | .update .., v => .ok v.present
  | .delete _, v => .ok v.present

def events (a : Access) (item : PoolItem) : List PoolEvent :=
  match a.statement with
  | .ok q => item.events q
  | .error _ => []

theorem events_eq {a : Access} (h : a.statement = .ok q) (item : PoolItem) :
    a.events item = item.events q := by
  rw [events, h]

/-- How an answer cannot be used: the record of a key is in an unknown form, or the answer is of
another kind than what was asked for. -/
inductive Unusable (a : Access) : Failure → Prop
  | keyRecord (org : Value) (h : a = .findKey org) :
    Unusable a (.vault
      { cause := .unsupportedKeyRecord, operation := Postgres.keyOperation, orgId := org })
  | foreign (h : e.IsForeign) : Unusable a e

theorem Unusable.isAmong (h : Unusable a e) : e.IsAmong [.unsupportedAlgorithm] := by
  cases h with
  | keyRecord org => exact .of_vault rfl (List.mem_cons_self ..)
  | foreign hforeign => exact .of_foreign hforeign

theorem interpret_fails (a : Access) (v : Value) : Fails (Unusable a) (a.interpret v) := by
  cases a with
  | findKey org =>
    have hsupported {α : Type} (c : Checked α) :
        Fails (Unusable (.findKey org)) (Postgres.supported org c) := by
      cases c with
      | ok a => trivial
      | faulty faults => exact .keyRecord org rfl
    have hcell (row : Value) (name : Text) :
        Fails (Unusable (.findKey org)) (Layout.cellOf row name) :=
      (Layout.cellOf_fails row name).mono fun _ => .foreign
    have hrecord (row : Value) :
        Fails (Unusable (.findKey org)) (Postgres.keyRecordOf org row) := by
      refine (hcell ..).bind fun _ _ => (hcell ..).bind fun _ _ => (hcell ..).bind fun _ _ =>
        (hcell ..).bind fun _ _ => (hsupported _).bind fun _ _ => (hcell ..).bind fun _ _ =>
        (hcell ..).bind fun _ _ => (hsupported _).bind fun _ _ => trivial
    rw [interpret]
    split
    · trivial
    · exact (hrecord _).map some
  | fetchFiltered org user requireData =>
    rw [interpret, Postgres.rowsOf]
    split
    · trivial
    · exact Unusable.foreign rfl
  | _ => trivial

end Access

namespace Postgres

theorem wrap_access (a : Access) (r : Except StoreFault Value) :
    wrap a.operation a.secretId a.orgId r =
      match r with
      | .ok v => .ok v
      | .error fault => .error (a.failure fault) := by
  cases r with
  | ok v => rfl
  | error fault =>
    simp only [wrap, Access.failure]
    split <;> rfl

theorem query_access (a : Access) (q : Query) (p : Pool) :
    query a.operation a.secretId a.orgId q p =
      ((p.item 0).fault?.elim (.ok (p.item 0).result) fun fault => .error (a.failure fault),
        p.saw ((p.item 0).events q)) := by
  rw [query, Pool.run_eq]
  simp only [wrap_access]
  cases (p.item 0).fault? <;> rfl

theorem answer_eq_query {a : Access} (h : a.statement = .ok q) (p : Pool) :
    answer a p =
      let (result, p) := query a.operation a.secretId a.orgId q p
      (result.bind a.interpret, p) := by
  cases a with
  | update secret columns expected =>
    rw [Access.statement] at h
    simp only [answer, updatePartial, h, Access.operation, Access.secretId, Access.orgId]
    generalize query _ _ _ q p = o
    obtain ⟨result, p⟩ := o
    cases result <;> rfl
  | _ =>
    cases h
    simp only [answer, findKey, fetchById, fetchFiltered, insert, deleteById, Access.operation,
      Access.secretId, Access.orgId]
    generalize query _ _ _ _ p = o
    obtain ⟨result, p⟩ := o
    cases result <;> rfl

/-- An access that is issued takes one item of the script. -/
theorem answer_eq {a : Access} (h : a.IsIssued) (p : Pool) :
    answer a p =
      ((p.item 0).fault?.elim (a.interpret (p.item 0).result) fun fault =>
        .error (a.failure fault),
      p.saw (a.events (p.item 0))) := by
  obtain ⟨q, h⟩ := h
  rw [answer_eq_query h, query_access, Access.events_eq h]
  cases (p.item 0).fault? <;> rfl

end Postgres

-- ---------------------------------------------------------------------------
-- Runs
-- ---------------------------------------------------------------------------

namespace Program

variable {α σ : Type}

/-- The accesses that a run makes, in order. One that is refused is the last. -/
def accesses (b : Backend σ) : Program α → σ → List Access
  | .done _, _ => []
  | .note _ next, s => next.accesses b s
  | .draw next, s => (next (b.nonce s).1).accesses b (b.nonce s).2
  | .access a next, s =>
    a :: match b.answer a s with
      | (.error _, _) => []
      | (.ok answer, s) => (next answer).accesses b s

theorem Ensures.accesses {P : Access → Prop} {Q : Except Failure α → Prop} {p : Program α}
    (h : p.Ensures P Q) (b : Backend σ) (s : σ) : ∀ a ∈ p.accesses b s, P a := by
  induction p generalizing s with
  | done result => nofun
  | note line next ih => exact ih h s
  | draw next ih => exact ih _ (h _) _
  | access a next ih =>
    rw [Program.accesses, List.forall_mem_cons]
    refine ⟨h.1, ?_⟩
    split
    · nofun
    · exact ih _ (h.2 _) _

end Program

namespace Pool

def trace (p : Pool) (made : List Access) : List PoolEvent :=
  made.zipIdx.flatMap fun (a, k) => a.events (p.item k)

@[simp] theorem trace_nil (p : Pool) : p.trace [] = [] := rfl

theorem trace_cons (p : Pool) (a : Access) (made : List Access) (events : List PoolEvent) :
    p.trace (a :: made) = a.events (p.item 0) ++ (p.saw events).trace made := by
  rw [trace, List.zipIdx_cons, List.flatMap_cons, trace, List.zipIdx_succ, List.flatMap_map]
  simp

theorem statement_of_mem_trace {p : Pool} {made : List Access}
    (h : .statement q ∈ p.trace made) : ∃ a ∈ made, a.statement = .ok q := by
  obtain ⟨⟨a, k⟩, hm, h⟩ := List.mem_flatMap.mp h
  refine ⟨a, (List.mem_zipIdx' hm).2 ▸ List.getElem_mem _, ?_⟩
  unfold Access.events PoolItem.events at h
  repeat' split at h
  all_goals simp_all

end Pool

namespace Program

open Postgres

variable {α : Type} {p : Program α} {allowed : List VaultKind} {Q : Except Failure α → Prop}

theorem run_access_cases {a : Access} (ha : a.IsIssued) (next : a.Answer → Program α) (s : Pool) :
    let s' := s.saw (a.events (s.item 0))
    (∃ e, (access a next).run backend s = ⟨.error e, [], s'⟩ ∧
      (access a next).accesses backend s = [a] ∧
      (s.item 0).fault?.elim (e.IsAmong [.unsupportedAlgorithm]) fun fault =>
        e = a.failure fault) ∨
    ∃ answer, (access a next).run backend s = (next answer).run backend s' ∧
      (access a next).accesses backend s = a :: (next answer).accesses backend s' ∧
      (s.item 0).fault? = none := by
  have hanswer := answer_eq ha s
  simp only [run, accesses, backend, hanswer]
  cases (s.item 0).fault? with
  | some fault => exact .inl ⟨_, rfl, rfl, rfl⟩
  | none =>
    have hunusable := a.interpret_fails (s.item 0).result
    simp only [Option.elim_none]
    cases h : a.interpret (s.item 0).result with
    | error e => exact .inl ⟨e, rfl, rfl, (hunusable.error h).isAmong⟩
    | ok answer => exact .inr ⟨answer, rfl, rfl, trivial⟩

theorem run_access_ok {a : Access} {answer : a.Answer} (ha : a.IsIssued)
    {next : a.Answer → Program α} {s : Pool} (hq : (s.item 0).fault? = none)
    (hi : a.interpret (s.item 0).result = .ok answer) :
    (access a next).run backend s =
      (next answer).run backend (s.saw (a.events (s.item 0))) := by
  have hanswer := answer_eq ha s
  rw [hq, Option.elim_none, hi] at hanswer
  simp only [run, backend, hanswer]

theorem run_events (h : p.Ensures Access.IsIssued Q) (s : Pool) :
    (p.run backend s).state.events = s.events ++ s.trace (p.accesses backend s) := by
  induction p generalizing s with
  | done result => simp [run, accesses]
  | note line next ih => exact ih h s
  | draw next ih => exact ih _ (h _) _
  | access a next ih =>
    obtain ⟨e, hrun, hmade, -⟩ | ⟨answer, hrun, hmade, -⟩ := run_access_cases h.1 next s
    · simp [hrun, hmade, Pool.trace, Pool.saw]
    · rw [hrun, hmade, ih _ (h.2 _), s.trace_cons, ← List.append_assoc]
      rfl

theorem exists_later_trace {P : Access → Prop} (hP : ∀ b, P b → b.IsIssued) {a : Access}
    (ha : a.IsIssued) {next : a.Answer → Program α}
    (hn : ∀ answer, (next answer).Ensures P fun _ => True) (s : Pool) :
    ∃ made, ∃ rest : Pool, (∀ b ∈ made, P b) ∧
      ((access a next).run backend s).state.events =
        s.events ++ a.events (s.item 0) ++ rest.trace made := by
  obtain ⟨e, hrun, -⟩ | ⟨answer, hrun, -⟩ := run_access_cases ha next s
  · refine ⟨[], s, nofun, ?_⟩
    rw [hrun, Pool.trace_nil, List.append_nil]
    rfl
  · let rest := s.saw (a.events (s.item 0))
    refine ⟨_, rest, (hn answer).accesses backend rest, ?_⟩
    rw [hrun, run_events ((hn answer).mono hP fun _ h => h)]
    rfl

/-- An access whose item faults is the last one, and the run fails as it does. -/
theorem fault_ends_run (h : p.Ensures Access.IsIssued Q) {s : Pool}
    (hk : (p.accesses backend s)[k]? = some a) (hf : (s.item k).fault? = some fault) :
    (p.accesses backend s).length = k + 1 ∧
      (p.run backend s).result = .error (a.failure fault) := by
  induction p generalizing s k with
  | done result => cases hk
  | note line next ih => exact ih h hk hf
  | draw next ih => exact ih _ (h _) hk hf
  | access first next ih =>
    obtain ⟨e, hrun, hmade, he⟩ | ⟨answer, hrun, hmade, hnone⟩ := run_access_cases h.1 next s
    · rw [hmade] at hk ⊢
      cases k with
      | succ k => cases hk
      | zero =>
        cases hk
        rw [hf] at he
        exact ⟨rfl, by rw [hrun, show e = _ from he]⟩
    · rw [hmade] at hk ⊢
      cases k with
      | zero => exact absurd (hnone.symm.trans hf) nofun
      | succ k =>
        have ⟨hlength, hresult⟩ := ih answer (h.2 answer) hk (by rwa [Pool.item_saw])
        exact ⟨by rw [List.length_cons, hlength], hrun ▸ hresult⟩

theorem quiet_run_among (h : p.Ensures Access.IsIssued (FailsAmong allowed))
    (hunsupported : .unsupportedAlgorithm ∈ allowed) {s : Pool}
    (hq : ∀ k < (p.accesses backend s).length, (s.item k).fault? = none) :
    FailsAmong allowed (p.run backend s).result := by
  induction p generalizing s with
  | done result => exact h
  | note line next ih => exact ih h hq
  | draw next ih => exact ih _ (h _) hq
  | access a next ih =>
    obtain ⟨e, hrun, hmade, he⟩ | ⟨answer, hrun, hmade, -⟩ := run_access_cases h.1 next s
    · rw [hmade] at hq
      rw [hq 0 (Nat.zero_lt_one)] at he
      rw [hrun]
      intro k hk
      cases List.mem_singleton.mp (he k hk)
      exact hunsupported
    · rw [hmade] at hq
      rw [hrun]
      refine ih answer (h.2 answer) fun k hk => ?_
      rw [Pool.item_saw]
      exact hq (k + 1) (Nat.succ_lt_succ hk)

end Program

-- ---------------------------------------------------------------------------
-- Requests
-- ---------------------------------------------------------------------------

namespace Request

theorem not_persistence (r : Request) : .persistenceFailure ∉ .unsupportedAlgorithm :: r.kinds := by
  cases r <;> simp [kinds, OrgKey.kinds, Vault.updateKinds]

/-- A request makes its accesses one after another, each by one statement on a connection of its
own. When a fault comes out of an access, that access was the last one: an exception is what the
request fails with, wrapped under the name of the very access and with its own message, and a
cancellation passes through unchanged. Without a fault no request reports one. -/
theorem driver_faults_surface_once (root : Bytes) (r : Request) (p : Pool) :
    let o := (r.program root).run Postgres.backend p
    let made := (r.program root).accesses Postgres.backend p
    (∀ a ∈ made, ∃ q, a.statement = .ok q) ∧
    o.state.events = p.events ++ p.trace made ∧
    (∀ k a fault, made[k]? = some a → (p.item k).fault? = some fault →
      made.length = k + 1 ∧
      (fault.kind ≠ .cancelled → ∃ f, o.result = .error (.vault f) ∧
        f.kind = .persistenceFailure ∧ f.cause = .persistence fault ∧
        f.message = fault.message ∧ f.operation = .text a.operation) ∧
      (fault.kind = .cancelled → o.result = .error (.raised fault))) ∧
    ((∀ k < made.length, (p.item k).fault? = none) →
      ∀ e, o.result = .error e → e.kind? ≠ some .persistenceFailure) := by
  have hends := ends_among root r
  refine ⟨hends.accesses _ p, Program.run_events hends p, ?_, ?_⟩
  · intro k a fault hk hf
    obtain ⟨hlength, hresult⟩ := Program.fault_ends_run hends hk hf
    rw [Access.failure] at hresult
    refine ⟨hlength, fun hkind => ?_, fun hkind => ?_⟩
    · rw [if_neg hkind] at hresult
      exact ⟨_, hresult, rfl, rfl, rfl, rfl⟩
    · rwa [if_pos hkind] at hresult
  · intro hquiet e he
    have hends : (r.program root).Ensures Access.IsIssued
        (FailsAmong (.unsupportedAlgorithm :: r.kinds)) := by
      refine hends.mono (fun _ ha => ha) ?_
      rintro (e | reply) h
      · exact fun k hk => List.mem_cons_of_mem _ (h k hk)
      · trivial
    have hquiet := Program.quiet_run_among hends (List.mem_cons_self ..) hquiet
    exact (hquiet.error he).not r.not_persistence

/-- The second access of a reading times out. -/
example :
    let row : Row := Memory.insertedRow (.text "s") [("userId", .text "u"), ("orgId", .text "o")]
    let fault : StoreFault := ⟨.timeout, "too slow"⟩
    let p := Pool.start [⟨.map row, none, none, none⟩, ⟨.null, none, some fault, none⟩]
      (Nonces.counting 0)
    (((Request.get (.text "s") (.text "o")).program []).run Postgres.backend p).result =
      .error (.vault
        { cause := .persistence fault
          operation := .text "FindOrgKeyRecord"
          orgId := .text "o" }) := by
  rfl

end Request
end EnvelopeVault
