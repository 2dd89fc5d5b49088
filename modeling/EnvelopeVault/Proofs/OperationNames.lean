import EnvelopeVault.Proofs.PoolRuns
import EnvelopeVault.Proofs.Readback

/-!
# Which failures name an operation

`operations_named_except_for_records`: over both stores, a failure of the vault's own
that comes out of a request names an operation, unless it blames what is stored of
a secret. The reading of rows and the opening of records do not know for which
operation they are done, and no operation adds its name on the way out.
-/

namespace EnvelopeVault

open Layout

-- ---------------------------------------------------------------------------
-- Failures
-- ---------------------------------------------------------------------------

namespace VaultFailure

variable {f : VaultFailure}

def IsNamed (f : VaultFailure) : Prop := ∃ t : Text, f.operation = .text t ∧ t ≠ []

/-- The failure blames the row of a secret, or the record in the row. -/
def IsOfRecord (f : VaultFailure) : Prop :=
  f.secretId ≠ .null ∧ (f.kind = .authenticationFailure ∨ f.kind = .unsupportedAlgorithm)

theorem not_isOfRecord_of_secretId (h : f.secretId = .null) : ¬ f.IsOfRecord := fun hr => hr.1 h

theorem not_isOfRecord_of_kind
    (h : (f.kind != .authenticationFailure && f.kind != .unsupportedAlgorithm) = true) :
    ¬ f.IsOfRecord := by
  rintro ⟨-, hk⟩
  obtain hk | hk := hk <;> rw [hk] at h <;> cases h

end VaultFailure

/-- A failure of the vault's own names an operation, or blames a record and names none. -/
def Failure.IsMarked (mayBlame : Prop) (e : Failure) : Prop :=
  ∀ f, e = .vault f →
    (f.IsNamed ∧ ¬ f.IsOfRecord) ∨ (f.operation = .null ∧ f.IsOfRecord ∧ mayBlame)

variable {mayBlame : Prop} {e : Failure}

namespace Failure.IsMarked

theorem of_foreign (h : e.IsForeign) : IsMarked mayBlame e := by
  rintro f rfl
  cases h

theorem named {f : VaultFailure} (hn : f.IsNamed) (h : ¬ f.IsOfRecord) :
    IsMarked mayBlame (.vault f) := by
  rintro _ ⟨⟩
  exact .inl ⟨hn, h⟩

theorem ofRecord {f : VaultFailure} (hn : f.operation = .null) (h : f.IsOfRecord)
    (hmay : mayBlame) : IsMarked mayBlame (.vault f) := by
  rintro _ ⟨⟩
  exact .inr ⟨hn, h, hmay⟩

end Failure.IsMarked

open Failure (IsMarked)

-- ---------------------------------------------------------------------------
-- Requests
-- ---------------------------------------------------------------------------

theorem OrgKey.Unresolved.isMarked (h : Unresolved org e) : e.IsMarked mayBlame := by
  have hname (cause : Cause) (orgId : Value) :
      VaultFailure.IsNamed { cause, operation := operation, orgId } :=
    ⟨_, rfl, List.cons_ne_nil _ _⟩
  cases h with
  | foreign hforeign => exact .of_foreign hforeign
  | _ => exact .named (hname _ _) (VaultFailure.not_isOfRecord_of_secretId rfl)

theorem Layout.Unreadable.isMarked (hmay : mayBlame) (h : Unreadable row e) :
    e.IsMarked mayBlame := by
  cases h with
  | incomplete cells id a => exact .ofRecord rfl ⟨nofun, .inl rfl⟩ hmay
  | foreign hforeign => exact .of_foreign hforeign

namespace Vault

theorem Unopened.isMarked (hmay : mayBlame) (h : Unopened key row e log) :
    e.IsMarked mayBlame := by
  cases h with
  | unreadable h => exact h.isMarked hmay
  | unsupported r => exact .ofRecord rfl ⟨nofun, .inr rfl⟩ hmay
  | broken r a cause _ _ hk => exact .ofRecord rfl ⟨nofun, .inl hk⟩ hmay

theorem notFound_isMarked {operation : Text} (h : operation ≠ []) (secret org : Value) :
    (notFound operation secret org).IsMarked mayBlame :=
  .named ⟨_, rfl, h⟩ (VaultFailure.not_isOfRecord_of_kind rfl)

theorem conflict_isMarked (secret org version : Value) :
    (conflict secret org version).IsMarked mayBlame := by
  rw [conflict]
  split
  · exact .named ⟨_, rfl, List.cons_ne_nil _ _⟩ (VaultFailure.not_isOfRecord_of_kind rfl)
  · intro f hf
    cases hf

theorem refusal_isMarked (secret org : Value) (expected found : Option Value) :
    (refusal secret org expected found).IsMarked mayBlame := by
  unfold refusal
  split
  · exact conflict_isMarked secret org _
  · exact notFound_isMarked (List.cons_ne_nil _ _) secret org

end Vault

theorem Request.MayFail.isMarked {r : Request} (h : r.MayFail e) :
    e.IsMarked (∃ org, r.reader? = some org) := by
  cases r with
  | create secret org user => exact OrgKey.Unresolved.isMarked h
  | get secret org =>
    cases h with
    | absent => exact Vault.notFound_isMarked (List.cons_ne_nil _ _) secret org
    | unreadable hrow => exact hrow.isMarked ⟨org, rfl⟩
    | key hkey => exact hkey.isMarked
    | unopened hrow => exact hrow.isMarked ⟨org, rfl⟩
  | list org user =>
    cases h with
    | key hkey => exact hkey.isMarked
    | unopened hrow => exact hrow.isMarked ⟨org, rfl⟩
  | update secret given org expected =>
    cases h with
    | unprovided =>
      exact .named ⟨_, rfl, List.cons_ne_nil _ _⟩ (VaultFailure.not_isOfRecord_of_kind rfl)
    | refused found => exact Vault.refusal_isMarked secret org expected found
    | key hkey => exact hkey.isMarked
    | unreadable hrow => exact hrow.isMarked ⟨org, rfl⟩
  | delete secret =>
    cases h with
    | gone =>
      exact .named ⟨_, rfl, List.cons_ne_nil _ _⟩ (VaultFailure.not_isOfRecord_of_kind rfl)
    | foreign hforeign => exact .of_foreign hforeign
  | resolve org => exact OrgKey.Unresolved.isMarked h

-- ---------------------------------------------------------------------------
-- Stores
-- ---------------------------------------------------------------------------

namespace Access

theorem operation_ne_nil (a : Access) : a.operation ≠ [] := by
  cases a <;> exact List.cons_ne_nil _ _

theorem failure_isMarked (a : Access) (fault : StoreFault) :
    (a.failure fault).IsMarked mayBlame := by
  unfold failure
  split
  · exact .of_foreign rfl
  · exact .named ⟨_, rfl, a.operation_ne_nil⟩ (VaultFailure.not_isOfRecord_of_kind rfl)

theorem Unusable.isMarked {a : Access} (h : a.Unusable e) : e.IsMarked mayBlame := by
  cases h with
  | keyRecord org =>
    exact .named ⟨_, rfl, List.cons_ne_nil _ _⟩ (VaultFailure.not_isOfRecord_of_secretId rfl)
  | foreign hforeign => exact .of_foreign hforeign

end Access

theorem Postgres.answer_marked {a : Access} (h : a.IsIssued) (p : Pool) :
    Fails (IsMarked mayBlame) (answer a p).1 := by
  rw [answer_eq h]
  cases (p.item 0).fault? with
  | some fault => exact a.failure_isMarked fault
  | none => exact (a.interpret_fails _).mono fun _ => Access.Unusable.isMarked

/-- Over both stores, whatever is in them, a failure of the vault's own that comes out of a
request names an operation exactly if it does not blame the row of a secret or the record in it.
A failure that blames a record names no operation at all, and comes out of requests that read
rows only. -/
theorem operations_named_except_for_records (root : Bytes) (r : Request) (f : VaultFailure) :
    let marked := (f.IsNamed ↔ ¬ f.IsOfRecord) ∧
      (f.IsOfRecord → f.operation = .null ∧ ∃ org, r.reader? = some org)
    (∀ m, ((r.program root).run Memory.backend m).result = .error (.vault f) → marked) ∧
    ∀ p, ((r.program root).run Postgres.backend p).result = .error (.vault f) → marked := by
  intro marked
  have hends := (Request.ends root r).ends_mono fun _ => Request.MayFail.isMarked
  have hmarked (h : (Failure.vault f).IsMarked (∃ org, r.reader? = some org)) : marked := by
    obtain ⟨hnamed, hnot⟩ | ⟨hnull, hrecord, hreads⟩ := h f rfl
    · exact ⟨iff_of_true hnamed hnot, fun hrecord => absurd hrecord hnot⟩
    · refine ⟨iff_of_false ?_ fun hnot => hnot hrecord, fun _ => ⟨hnull, hreads⟩⟩
      rintro ⟨t, ht, -⟩
      rw [hnull] at ht
      cases ht
  refine ⟨fun m hm => hmarked ?_, fun p hp => hmarked ?_⟩
  · have hstore (a : Access) (m : Memory) (_ : a.IsIssued) :
        Fails (IsMarked (∃ org, r.reader? = some org)) (Memory.backend.answer a m).1 :=
      (Memory.answer_fails a m).mono fun _ => .of_foreign
    exact Fails.error (hends.run_ends hstore m) hm
  · exact Fails.error (hends.run_ends (fun a p ha => Postgres.answer_marked ha p) p) hp

/-- A secret that is not found in an empty store: the failure names the reading. -/
theorem absent_secret_names_reading :
    let f : VaultFailure :=
      { cause := .secretNotFound
        operation := .text "FindConsumerSecretById"
        secretId := .text "s1"
        orgId := .text "o1" }
    (((Request.get (.text "s1") (.text "o1")).program []).run Memory.backend
      (.empty [] (Nonces.counting 0))).result = .error (.vault f) ∧ f.IsNamed :=
  have hmarked := operations_named_except_for_records [] (.get (.text "s1") (.text "o1")) _
  ⟨rfl, (hmarked.1 (.empty [] (Nonces.counting 0)) rfl).1.mpr
    (VaultFailure.not_isOfRecord_of_kind rfl)⟩

/-- A secret without fields: the failure blames the title, and names no operation. -/
theorem missing_title_names_no_operation :
    ∃ record, OrgKey.Wraps Cabinet.key Cabinet.key record ∧
      ∃ f : VaultFailure, (((Request.get (.text "s1") (.text "o1")).program Cabinet.key.bytes).run
        Memory.backend (Cabinet.store record aes256Gcm)).result = .error (.vault f) ∧
        f.kind = .authenticationFailure ∧ f.field = .text "title" ∧ ¬ f.IsNamed := by
  obtain ⟨record, hrecord⟩ := OrgKey.exists_wraps Cabinet.key Cabinet.key
  refine ⟨record, hrecord, _, Cabinet.missing_title hrecord, rfl, rfl, ?_⟩
  rintro ⟨t, ht, -⟩
  cases ht

end EnvelopeVault
