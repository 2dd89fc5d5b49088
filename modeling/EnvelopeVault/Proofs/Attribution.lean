import EnvelopeVault.Proofs.FailureKinds
import EnvelopeVault.Proofs.Readback

/-!
# Integrity failures are attributed to a stored row

`integrity_failures_attributed`: if a request of an organization whose key resolves
fails authentication, the failure comes of one row of the organization, and names
the row's secret and the first attribute at fault. What comes of opening the record
in the row also names the organization and is logged in one line. What comes of
reading the row, an attribute that is incomplete, does neither
(`torn_row_is_not_logged`).
-/

namespace EnvelopeVault

open Layout

variable {m : Memory} {root : Bytes} {secret org user : Value}

def Memory.Stores (m : Memory) (org : Text) (row : Row) : Prop :=
  row ∈ m.rows.map (·.2) ∧ Holds row "orgId" fun owner => owner.toText = org

/-- If a run failed authentication, it was over a stored row that does not open. -/
def Outcome.BlamesRow {α : Type} (o : Outcome Memory α) (m : Memory) (org : Text) (key : Key) :
    Prop :=
  ∀ e, o.result = .error e → e.kind? = some .authenticationFailure →
    ∃ row, m.Stores org row ∧ Vault.Unopened key (.map row) e o.log

-- ---------------------------------------------------------------------------
-- Runs over the store in memory
-- ---------------------------------------------------------------------------

theorem Memory.mem_select {org user : Text} {rows selected : List Row}
    (h : select org user requireData rows = .ok selected) (hm : row ∈ selected) :
    row ∈ rows ∧ Holds row "orgId" fun owner => owner.toText = org := by
  induction rows generalizing selected with
  | nil =>
    cases h
    cases hm
  | cons first rows ih =>
    obtain ⟨taken, htaken, h⟩ := bind_ok.mp h
    obtain ⟨rest, hrest, h⟩ := bind_ok.mp h
    cases h
    cases taken with
    | false => exact (ih hrest hm).imp_left (List.mem_cons_of_mem _)
    | true =>
      obtain rfl | hm := List.mem_cons.mp hm
      · refine ⟨List.mem_cons_self, ?_⟩
        obtain ⟨owned, howned, htaken⟩ := bind_ok.mp htaken
        obtain ⟨owner, howner, howned⟩ := bind_ok.mp howned
        refine ⟨owner, cell_eq_ok_iff.mp howner, ?_⟩
        split at howned
        · assumption
        · cases howned
          cases htaken
      · exact (ih hrest hm).imp_left (List.mem_cons_of_mem _)

theorem Outcome.BlamesRow.map {α β : Type} {p : Program α} {org : Text} {key : Key}
    (h : (p.run Memory.backend m).BlamesRow m org key) (f : α → β) :
    ((p.bind fun a => .done (.ok (f a))).run Memory.backend m).BlamesRow m org key := by
  intro e he hk
  rw [Program.run_map] at he ⊢
  cases hp : (p.run Memory.backend m).result with
  | ok a =>
    rw [hp] at he
    cases he
  | error e' =>
    rw [hp] at he
    cases he
    exact h e hp hk

theorem OrgKey.run_resolve_ok
    (h : ((resolve root org).run Memory.backend m).result = .ok octets) :
    ∃ m', (resolve root org).run Memory.backend m = ⟨.ok octets, [], m'⟩ ∧ m'.rows = m.rows := by
  rw [resolve_eq, Program.run_answer (Memory.answer_key ..)] at h ⊢
  cases hfound : m.keys.get? org.toText with
  | none =>
    rw [hfound] at h
    cases h
  | some record =>
    rw [hfound] at h
    obtain ⟨log, r, hsaying, hopens⟩ := exists_saying root org record
    simp only [ofFound, hsaying, Program.run_saying] at h ⊢
    obtain ⟨rfl, -⟩ := hopens octets h
    exact ⟨{ m with lookups := m.lookups + 1 }, by rw [h], rfl⟩

namespace Vault

variable {changes : Changes} {expected : Option Value} {e : Failure}

theorem ownedRecord_integrity {found : Option Row}
    (h : ownedRecord operation secret org (found.map .map) = .error e)
    (hk : e.kind? = some .authenticationFailure) :
    ∃ row, found = some row ∧ (Holds row "orgId" fun owner => owner.toText = org.toText) ∧
      Unreadable (.map row) e := by
  cases found with
  | none =>
    cases h
    cases hk
  | some row =>
    obtain h | ⟨owner, howner, h⟩ := bind_error h
    · have hforeign : e.IsForeign := (cellOf_fails ..).error h
      cases hforeign.kind?.symm.trans hk
    split at h
    · rename_i hown
      exact ⟨row, rfl, ⟨owner, cell_eq_ok_iff.mp howner, hown⟩, (recordOf_fails _).error h⟩
    · cases h
      cases hk

/-- What an update checks on the row that it read fails authentication as the reading does. -/
theorem admits_integrity {found : Option Row}
    (h : admits secret org expected (found.map .map) = .error e)
    (hk : e.kind? = some .authenticationFailure) :
    ∃ row, found = some row ∧ (Holds row "orgId" fun owner => owner.toText = org.toText) ∧
      Unreadable (.map row) e := by
  obtain h | ⟨r, -, hversion⟩ := bind_error h
  · exact ownedRecord_integrity h hk
  · cases expected with
    | none => cases hversion
    | some version =>
      dsimp only at hversion
      split at hversion
      · cases hversion
      · cases hversion
        cases (conflict_isConflict secret org version).kind_eq hk

theorem ownedRecord_owned {found : Option Row}
    (h : ownedRecord operation secret org (found.map .map) = .ok r) :
    ∃ row, found = some row ∧ (Holds row "orgId" fun owner => owner.toText = org.toText) ∧
      recordOf (.map row) = .ok r := by
  cases found with
  | none => cases h
  | some row =>
    obtain ⟨hr, ho⟩ := ownedRecord_eq_ok_iff.mp h
    exact ⟨row, rfl, ho ▸ hr.org, recordOf_eq_ok_iff.mpr hr⟩

theorem stores_of_get? {row : Row} (hrow : m.rows.get? name = some row)
    (hown : Holds row "orgId" fun owner => owner.toText = org.toText) :
    m.Stores org.toText row :=
  ⟨List.mem_map.mpr ⟨_, Assoc.mem_of_get? hrow, rfl⟩, hown⟩

theorem run_fetch (m : Memory) (secret : Value) (next : Option Value → Program α) :
    (Program.access (.fetch secret) next).run Memory.backend m =
      (next ((m.rows.get? secret.toText).map .map)).run Memory.backend m :=
  Program.run_answer rfl

/-- Sealing and writing do not fail authentication. -/
theorem writeUnder_run_kind (hp : changes.provided.isEmpty = false)
    (h : ((writeUnder secret changes org expected key).run Memory.backend m).result = .error e) :
    e.kind? ≠ some .authenticationFailure := by
  have hstore (a : Access) (m : Memory) (_ : a.IsIssued) :
      Fails (fun e => e.IsForeign ∨ ∃ found, e = refusal secret org expected found)
        (Memory.backend.answer a m).1 := (Memory.answer_fails a m).mono fun _ => .inl
  obtain hforeign | ⟨found, rfl⟩ := Fails.error ((writeUnder_ends hp key).run_ends hstore m) h
  · rw [hforeign.kind?]
    nofun
  · have hrefusal : (refusal secret org expected found).IsAmong
        [.secretNotFound, .versionConflict] := by
      apply refusal_isAmong <;> decide
    exact hrefusal.not (by decide)

theorem list_eq (root : Bytes) (org user : Value) :
    list root org user = (OrgKey.resolve root org).bind fun key =>
      .access (.fetchFiltered org user true) fun rows =>
        (openRows key rows).bind fun secrets =>
          .note (.secretsListed secrets.length org.toText user.toText) (.done (.ok secrets)) := rfl

section Resolved

variable {key : Key}
  (hkey : ((OrgKey.resolve root org).run Memory.backend m).result = .ok key.bytes)
include hkey

theorem get_blames_row (secret : Value) :
    ((get root secret org).run Memory.backend m).BlamesRow m org.toText key := by
  intro e h hk
  rw [get, fetchOwned_eq, Program.bind_eq, Program.bind, run_fetch] at h ⊢
  cases howned : ownedRecord "FindConsumerSecretById" secret org
      ((m.rows.get? secret.toText).map .map) with
  | error e' =>
    rw [howned] at h
    cases h
    obtain ⟨row, hrow, hown, he⟩ := ownedRecord_integrity howned hk
    exact ⟨row, stores_of_get? hrow hown, .unreadable he⟩
  | ok r =>
    obtain ⟨row, hrow, hown, hr⟩ := ownedRecord_owned howned
    obtain ⟨m', hrun, -⟩ := OrgKey.run_resolve_ok hkey
    rw [howned] at h
    rw [Program.done_bind, Program.bind_eq, Program.run_bind, hrun] at h ⊢
    obtain ⟨s, hs⟩ | ⟨e', log, he, hs⟩ := decryptRecord_opens key hr
    · simp only [Outcome.andThen, hs, Program.run_saying] at h
      cases h
    · simp only [Outcome.andThen, hs, Program.run_saying, List.nil_append] at h ⊢
      cases h
      exact ⟨row, stores_of_get? hrow hown, he⟩

theorem list_blames_row (user : Value) :
    ((list root org user).run Memory.backend m).BlamesRow m org.toText key := by
  intro e h hk
  obtain ⟨m', hrun, hrows⟩ := OrgKey.run_resolve_ok hkey
  rw [list_eq, Program.run_bind, hrun] at h ⊢
  simp only [Outcome.andThen, Program.run, Memory.backend, Memory.answer, List.nil_append] at h ⊢
  cases hsel : Memory.select org.toText user.toText true (m'.rows.map (·.2)) with
  | error e' =>
    rw [hsel] at h
    cases h
    have hforeign : e.IsForeign := (Memory.select_fails ..).error hsel
    cases hforeign.kind?.symm.trans hk
  | ok rows =>
    rw [hsel] at h
    simp only [Except.map, Program.run_bind] at h ⊢
    obtain ⟨secrets, hs⟩ | ⟨row, hm, e', log, he, hs⟩ := openRows_cases key (rows.map .map)
    · rw [hs] at h
      cases h
    · simp only [hs, Program.run_saying, Outcome.andThen] at h ⊢
      cases h
      obtain ⟨row, hrow, rfl⟩ := List.mem_map.mp hm
      have hstored : row ∈ m'.rows.map (·.2) ∧ _ := Memory.mem_select hsel hrow
      exact ⟨row, by rwa [hrows] at hstored, he⟩

theorem update_blames_row (secret : Value) (changes : Changes) (expected : Option Value) :
    ((update root secret changes org expected).run Memory.backend m).BlamesRow m
      org.toText key := by
  intro e h hk
  cases hp : changes.provided.isEmpty with
  | true =>
    rw [update, if_pos hp] at h
    cases h
    cases hk
  | false =>
    rw [update_eq hp, run_fetch, proceed] at h ⊢
    cases ha : admits secret org expected ((m.rows.get? secret.toText).map .map) with
    | error e' =>
      rw [ha] at h
      cases h
      obtain ⟨row, hrow, hown, he⟩ := admits_integrity ha hk
      exact ⟨row, stores_of_get? hrow hown, .unreadable he⟩
    | ok _ =>
      -- with the key, an update fails over no row any more
      obtain ⟨m', hrun, -⟩ := OrgKey.run_resolve_ok hkey
      rw [ha] at h
      simp only [writeChanges_eq_under, Program.run_bind, hrun, Outcome.andThen] at h
      exact absurd hk (writeUnder_run_kind hp h)

end Resolved
end Vault

-- ---------------------------------------------------------------------------
-- Requests
-- ---------------------------------------------------------------------------

theorem Request.blames_row {r : Request} {key : Key} (hr : r.reader? = some org)
    (hkey : ((OrgKey.resolve root org).run Memory.backend m).result = .ok key.bytes) :
    ((r.program root).run Memory.backend m).BlamesRow m org.toText key := by
  cases r with
  | create | delete | resolve => cases hr
  | get secret org =>
    cases hr
    exact (Vault.get_blames_row hkey secret).map Reply.secret
  | list org user =>
    cases hr
    exact (Vault.list_blames_row hkey user).map Reply.secrets
  | update secret given org expected =>
    cases hr
    rw [program]
    cases Changes.read given with
    | ok changes => exact (Vault.update_blames_row hkey secret changes expected).map Reply.id
    | faulty faults =>
      rintro e ⟨⟩ hk
      cases hk

/-- On every store, for each request that reads rows of an organization whose key resolves: a
failure of authentication comes of a stored row of the organization, and names the secret of the
row and the first attribute at fault. If the row has a record that does not open, the failure
names the organization too, and one line, an error, says the same. If the columns of the
attribute are incomplete, the organization is not named and nothing is logged. -/
theorem integrity_failures_attributed (root : Bytes) (m : Memory) (r : Request) (org : Value)
    (key : Key) (f : VaultFailure) (hr : r.reader? = some org)
    (hkey : ((OrgKey.resolve root org).run Memory.backend m).result = .ok key.bytes)
    (h : ((r.program root).run Memory.backend m).result = .error (.vault f))
    (hk : f.kind = .authenticationFailure) :
    let log := ((r.program root).run Memory.backend m).log
    ∃ row id a, m.Stores org.toText row ∧ (Holds row "id" fun v => v.toText = id) ∧
      f.secretId = .text id ∧ f.field = .text (Attribute.name a) ∧
      ((∃ record, recordOf (.map row) = .ok record ∧
          Attribute.IsFirst (Sealing.Broken key record) a ∧ f.orgId = .text org.toText ∧
          log = [.integrityFailure id org.toText a] ∧
          (LogLine.integrityFailure id org.toText a).level = .error) ∨
        (Attribute.IsFirst (Incomplete row) a ∧ f.cause = .incompleteField ∧ f.orgId = .null ∧
          log = [])) := by
  intro log
  obtain ⟨row, hstored, hrow⟩ := Request.blames_row hr hkey _ h (congrArg some hk)
  obtain ⟨owner, howner, hown⟩ := hstored.2
  change Vault.Unopened key (.map row) (.vault f) log at hrow
  generalize log = lines at hrow ⊢
  cases hrow with
  | unreadable hread =>
    cases hread with
    | incomplete _ id a hid hfirst =>
      exact ⟨row, _, a, hstored, ⟨id, hid, rfl⟩, rfl, rfl, .inr ⟨hfirst, rfl, rfl, rfl⟩⟩
    | foreign hforeign => cases hforeign
  | unsupported record => cases hk
  | broken record a cause hrecord hfirst =>
    have hreads := recordOf_eq_ok_iff.mp hrecord
    obtain ⟨owner', howner', horg⟩ := hreads.org
    cases howner.symm.trans howner'
    have horg : record.orgId = org.toText := horg.symm.trans hown
    exact ⟨row, record.id, a, hstored, hreads.id, rfl, rfl,
      .inl ⟨record, hrecord, hfirst, congrArg Value.text horg, by rw [horg], rfl⟩⟩

-- ---------------------------------------------------------------------------
-- A row without texts, and a torn one
-- ---------------------------------------------------------------------------

namespace Cabinet

variable {record : OrgKeyRecord}

theorem resolves (h : OrgKey.Wraps key key record) {m : Memory}
    (hm : m.keys.get? "o1" = some record) :
    ((OrgKey.resolve key.bytes (.text "o1")).run Memory.backend m).result = .ok key.bytes := by
  have hfound : m.keys.get? (Value.toText (.text "o1")) = some record := hm
  rw [OrgKey.resolve_eq, Program.run_answer (Memory.answer_key ..), hfound, OrgKey.ofFound,
    h.ofRecord]
  rfl

def torn (record : OrgKeyRecord) : Memory :=
  { store record aes256Gcm with
    rows := [("s1", (row aes256Gcm).put "titleCiphertext" (.text "AA=="))] }

end Cabinet

/-- The hypotheses hold of the row that holds no field, and the failure is logged. -/
theorem missing_title_is_attributed : ∃ record, OrgKey.Wraps Cabinet.key Cabinet.key record ∧
    let o := ((Request.get (.text "s1") (.text "o1")).program Cabinet.key.bytes).run
      Memory.backend (Cabinet.store record aes256Gcm)
    (∃ f, o.result = .error (.vault f) ∧ f.kind = .authenticationFailure) ∧
      ∃ id a, o.log = [.integrityFailure id "o1" a] := by
  obtain ⟨record, hrecord⟩ := OrgKey.exists_wraps Cabinet.key Cabinet.key
  have hf := Cabinet.missing_title hrecord
  obtain ⟨row, id, a, -, -, -, -, hcases⟩ := integrity_failures_attributed Cabinet.key.bytes
    (Cabinet.store record aes256Gcm) (.get (.text "s1") (.text "o1")) (.text "o1") Cabinet.key _
    rfl (Cabinet.resolves hrecord rfl) hf rfl
  obtain ⟨-, -, -, -, hlog, -⟩ | ⟨-, hincomplete, -⟩ := hcases
  · exact ⟨record, hrecord, ⟨_, hf, rfl⟩, id, a, hlog⟩
  · cases hincomplete

/-- The key resolves, and the torn row is a failure of authentication that does not name the
organization and is not logged. -/
theorem torn_row_is_not_logged : ∃ record, OrgKey.Wraps Cabinet.key Cabinet.key record ∧
    ((OrgKey.resolve Cabinet.key.bytes (.text "o1")).run Memory.backend
      (Cabinet.torn record)).result = .ok Cabinet.key.bytes ∧
    let o := ((Request.get (.text "s1") (.text "o1")).program Cabinet.key.bytes).run
      Memory.backend (Cabinet.torn record)
    o.log = [] ∧ o.result = .error (.vault
      { cause := .incompleteField, secretId := .text "s1", field := .text "title" }) := by
  obtain ⟨record, hrecord⟩ := OrgKey.exists_wraps Cabinet.key Cabinet.key
  exact ⟨record, hrecord, Cabinet.resolves hrecord rfl, rfl, rfl⟩

end EnvelopeVault
