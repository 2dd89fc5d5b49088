import EnvelopeVault.Proofs.Atomic
import EnvelopeVault.Proofs.OrgKey
import EnvelopeVault.Proofs.Opening

/-!
# Reading back what an update wrote

An update that succeeds leaves the row that it read with its fields in place of
the old ones, and the next reading decrypts that row (`get_after_update`). What
it comes to depends on the label of the row, which an update neither checks nor
writes: under the vault's own label the provided texts are read back or an
attribute that was not provided is blamed, under another label the row is refused
(`updated_secret_reads_back`).
-/

namespace EnvelopeVault

open FieldCipher Layout

-- ---------------------------------------------------------------------------
-- Fields that came out
-- ---------------------------------------------------------------------------

namespace Sealing

theorem encryptAll_ensures_seals (key : Key) (texts : Assoc Text) :
    (encryptAll key.bytes texts).Ensures P fun r =>
      ∀ fields, r = .ok fields → Assoc.Rel (fun _ => Seals key) fields texts := by
  induction texts with
  | nil =>
    rintro _ ⟨⟩
    exact .nil
  | cons pair rest ih =>
    obtain ⟨name, t⟩ := pair
    have hseal : (encrypt key.bytes t).Ensures P fun r => ∀ f, r = .ok f → Seals key f t := by
      rw [encrypt_eq_draw]
      exact fun nonce f hf => ⟨nonce, hf⟩
    refine hseal.bind (fun _ _ => nofun) fun f hf =>
      ih.bind (fun _ _ => nofun) fun fields hrel => ?_
    rintro _ ⟨⟩
    exact .cons (hf f rfl) (hrel fields rfl)

end Sealing

-- ---------------------------------------------------------------------------
-- Updates that succeed
-- ---------------------------------------------------------------------------

namespace Vault

variable {root : Bytes} {secret org : Value} {changes : Changes} {expected : Option Value}
  {m : Memory}

/-- An update that succeeds has read a row of its organization, resolved the organization's key,
sealed the provided texts under it and written them over the row. -/
structure Wrote (root : Bytes) (secret org : Value) (changes : Changes) (m m' : Memory)
    (row : Row) (r : SecretRecord) (key : Key) (v : Int) (fields : Assoc Field) : Prop where
  found : m.rows.get? secret.toText = some row
  reads : Reads row r
  owned : r.orgId = org.toText
  version : Holds row "version" (· = .int v)
  resolves : ∀ n, (OrgKey.resolve root org).settle m.keys n = some (.ok key.bytes, n)
  seals : Assoc.Rel (fun _ => Seals key) fields changes.provided
  rows : m'.rows = m.rows.put secret.toText (overlay row fields (v + 1))
  keys : m'.keys = m.keys

theorem exists_settle_sealChanges (root : Bytes) (changes : Changes) (org : Value)
    (keys : Assoc OrgKeyRecord) (n : Nonces) :
    ∃ r left, (sealChanges root changes org).settle keys n = some (r, left) ∧
      ∀ fields, r = .ok fields → ∃ key : Key,
        (∀ n, (OrgKey.resolve root org).settle keys n = some (.ok key.bytes, n)) ∧
          Assoc.Rel (fun _ => Seals key) fields changes.provided := by
  obtain ⟨k, hresolve, hlength⟩ := OrgKey.exists_settle_resolve root org keys
  cases k with
  | error e => exact ⟨_, _, Program.settle_bind_error (hresolve n), nofun⟩
  | ok bytes =>
    let key : Key := ⟨bytes, hlength bytes rfl⟩
    obtain ⟨r, left, hseal, hrel⟩ := Program.exists_settle
      (Sealing.encryptAll_ensures_seals key changes.provided) keys n
    exact ⟨r, left, (Program.settle_bind_ok (hresolve n)).trans hseal,
      fun fields hr => ⟨key, hresolve, hrel fields hr⟩⟩

theorem exists_wrote {id : Text} (hm : m.HasIntegerVersions)
    (h : ((update root secret changes org expected).run Memory.backend m).result = .ok id) :
    let m' := ((update root secret changes org expected).run Memory.backend m).state
    ∃ row r key v fields, Wrote root secret org changes m m' row r key v fields := by
  intro m'
  change ((update root secret changes org expected).effect m.nonces m).1 = _ at h
  have hp : changes.provided.isEmpty = false := by
    cases hp : changes.provided.isEmpty with
    | false => rfl
    | true =>
      rw [update, if_pos hp] at h
      cases h
  have hupdate : (update root secret changes org expected).effect m.nonces m = _ :=
    effect_update hp
  cases ha : admits secret org expected ((m.rows.get? secret.toText).map .map) with
  | error e =>
    rw [effect_update_error hp ha] at h
    cases h
  | ok _ =>
    rw [ha] at hupdate
    rw [hupdate] at h
    obtain ⟨row, r, v, hrow, hr, ho, hv, he⟩ := row_of_admits hm ha
    obtain ⟨s, left, hsettle, hsealed⟩ :=
      exists_settle_sealChanges root changes org m.keys m.nonces
    cases s with
    | error e =>
      rw [effect_writeChanges_error hsettle] at h
      cases h
    | ok fields =>
      obtain ⟨key, hresolve, hrel⟩ := hsealed fields rfl
      have hn : (Assoc.names fields).Nodup := hrel.names_eq ▸ changes.nodup_provided
      rw [effect_writeChanges hsettle,
        Program.effect_answer (Memory.answer_update_written hrow hv hn he)] at hupdate
      have hafter := congrArg Prod.snd hupdate
      exact ⟨row, r, key, v, fields, hrow, hr, ho, hv, hresolve, hrel,
        congrArg (·.rows) hafter, congrArg (·.keys) hafter⟩

variable {row : Row} {r : SecretRecord} {key : Key} {v : Int} {fields : Assoc Field} {m' : Memory}

theorem effect_get (hrow : m.rows.get? secret.toText = some row) (hr : Reads row r)
    (ho : r.orgId = org.toText)
    (hk : ∀ n, (OrgKey.resolve root org).settle m.keys n = some (.ok key.bytes, n)) (n : Nonces) :
    (get root secret org).effect n m = (Sealing.decryptRecord key.bytes r).effect n m := by
  have hanswer : Memory.answer (.fetch secret) m = (.ok (some (.map row)), m) := by
    rw [← Option.map_some, ← hrow]
    rfl
  rw [get, fetchOwned_eq, Program.bind_eq, Program.bind, Program.effect_answer hanswer,
    ownedRecord_eq_ok_iff.mpr ⟨hr, ho⟩, Program.done_bind, Program.bind_eq,
    Program.effect_bind_settled (hk n)]

theorem Wrote.effect_get (h : Wrote root secret org changes m m' row r key v fields)
    (n : Nonces) :
    (get root secret org).effect n m' =
      (Sealing.decryptRecord key.bytes (r.rewritten fields (v + 1))).effect n m' := by
  have hn : fields.names.Nodup := h.seals.names_eq ▸ changes.nodup_provided
  have hreads := h.reads.rewritten (rewrites_overlay hn row (v + 1)) (overlay_version ..).integer
  have hfound : m'.rows.get? secret.toText = some (overlay row fields (v + 1)) := by
    rw [h.rows, Assoc.get?_put, if_pos rfl]
  exact Vault.effect_get hfound hreads h.owned (h.keys ▸ h.resolves) n

/-- A row under the vault's label gives the provided texts, or an attribute that was not provided
is blamed. -/
theorem Wrote.get_cases (h : Wrote root secret org changes m m' row r key v fields)
    (ha : r.algorithm = aes256Gcm) (n : Nonces) :
    (∃ s, ((get root secret org).effect n m').1 = .ok s ∧
      ∀ a t, changes.get a = some t → s.texts.get a = t) ∨
    ∃ f a, ((get root secret org).effect n m').1 = .error (.vault f) ∧
      f.kind = .authenticationFailure ∧ f.field = .text (Attribute.name a) ∧
      changes.get a = none := by
  have hopen := Sealing.openAttribute_rewritten h.seals (r := r) (v + 1)
  rw [h.effect_get]
  rcases Sealing.decryptRecord_cases key (r := r.rewritten fields (v + 1)) ha with
    ⟨s, hs⟩ | ⟨a, cause, -, hfails, hk, hs⟩
  · refine .inl ⟨s, congrArg (fun p => (p.effect n m').1) hs, fun a t ht => ?_⟩
    obtain ⟨-, -, -, -, htexts⟩ := Sealing.decryptRecord_eq_ok_iff.mp hs
    have hread := htexts a
    rw [hopen, ht] at hread
    exact (Except.ok.inj hread).symm
  · refine .inr ⟨⟨cause, .null, .text r.id, .text r.orgId, .text a.name⟩, a,
      congrArg (fun p => (p.effect n m').1) hs, hk, rfl, ?_⟩
    cases ht : changes.get a with
    | none => rfl
    | some t =>
      rw [hopen, ht] at hfails
      cases hfails

theorem Wrote.get_unsupported (h : Wrote root secret org changes m m' row r key v fields)
    (ha : r.algorithm ≠ aes256Gcm) (n : Nonces) :
    ((get root secret org).effect n m').1 = .error (.vault
      { cause := .unsupportedAlgorithm r.algorithm
        secretId := .text r.id
        orgId := .text r.orgId }) := by
  rw [h.effect_get, Sealing.decryptRecord_unsupported _ (r := r.rewritten fields (v + 1)) ha]
  rfl

/-- On a store whose versions are integers, whatever else is in its rows, an update that succeeds
is followed by a reading that gives the provided texts or blames an attribute that was not
provided, if the row has the vault's own label; else the reading refuses the label, which was
there before the update and is no reason for it to fail. -/
theorem updated_secret_reads_back (root : Bytes) (secret org : Value) (changes : Changes)
    (expected : Option Value) (m : Memory) (id : Text) (hm : m.HasIntegerVersions)
    (h : ((update root secret changes org expected).run Memory.backend m).result = .ok id) :
    let updated := ((update root secret changes org expected).run Memory.backend m).state
    let o := (get root secret org).run Memory.backend updated
    ∃ row r, m.rows.get? secret.toText = some row ∧ recordOf (.map row) = .ok r ∧
      (r.algorithm = aes256Gcm →
        (∃ s, o.result = .ok s ∧ ∀ a t, changes.get a = some t → s.texts.get a = t) ∨
        ∃ f a, o.result = .error (.vault f) ∧ f.kind = .authenticationFailure ∧
          f.field = .text (Attribute.name a) ∧ changes.get a = none) ∧
      (r.algorithm ≠ aes256Gcm → o.result = .error (.vault
        { cause := .unsupportedAlgorithm r.algorithm
          secretId := .text r.id
          orgId := .text r.orgId })) := by
  intro updated o
  obtain ⟨row, r, key, v, fields, hwrote⟩ := exists_wrote hm h
  refine ⟨row, r, hwrote.found, recordOf_eq_ok_iff.mpr hwrote.reads, fun ha => ?_, fun ha => ?_⟩
  · exact hwrote.get_cases ha updated.nonces
  · exact hwrote.get_unsupported ha updated.nonces

-- ---------------------------------------------------------------------------
-- Updates of rows under any label
-- ---------------------------------------------------------------------------

theorem exists_update_ok (hp : changes.provided.isEmpty = false)
    (ht : ∀ pair ∈ changes.provided, pair.2.IsEncodable)
    (hrow : m.rows.get? secret.toText = some row) (hr : Reads row r) (ho : r.orgId = org.toText)
    (hv : Holds row "version" (· = .int v)) (he : expected.all (·.isNumber v) = true)
    (hk : ∀ n, (OrgKey.resolve root org).settle m.keys n = some (.ok key.bytes, n)) :
    ((update root secret changes org expected).run Memory.backend m).result = .ok r.id := by
  obtain ⟨fields, left, hseal, hrel⟩ :=
    Sealing.exists_settle_encryptAll m.keys key ht m.nonces
  have hsettle : (sealChanges root changes org).settle m.keys m.nonces = some (.ok fields, left) :=
    (Program.settle_bind_ok (hk m.nonces)).trans hseal
  have hn : fields.names.Nodup := hrel.names_eq ▸ changes.nodup_provided
  obtain ⟨id, hid, hrid⟩ :=
    hr.id.congr (overlay_plain hn row (v + 1) "id" (by decide) (by decide))
  have hcell : cellOf (.map (overlay row fields (v + 1))) "id" = .ok id :=
    cell_eq_ok_iff.mpr hid
  change ((update root secret changes org expected).effect m.nonces m).1 = _
  rw [effect_update hp, hrow, Option.map_some, admits_of_version hr ho hv, if_pos he]
  change ((writeChanges root secret changes org expected).effect m.nonces m).1 = _
  rw [effect_writeChanges hsettle,
    Program.effect_answer (Memory.answer_update_written hrow hv hn he), conclude,
    Program.effect_note, Program.effect_done, hcell, ← hrid]
  rfl

end Vault

namespace Cabinet

def key : Key := ⟨List.replicate keySize 1, by decide⟩

/-- A row without fields, under a label. -/
def row (label : Text) : Row :=
  Assoc.putAll Memory.blankRow [("id", .text "s1"), ("userId", .text "u1"), ("orgId", .text "o1"),
    ("algorithm", .text label)]

def store (record : OrgKeyRecord) (label : Text) : Memory :=
  { Memory.empty [] (Nonces.counting 0) with
    keys := [("o1", record)]
    rows := [("s1", row label)] }

def changes : Changes := ⟨some "t", some "SECURE_NOTE", some "d", some "c"⟩

def updated (record : OrgKeyRecord) (label : Text) : Outcome Memory Text :=
  (Vault.update key.bytes (.text "s1") changes (.text "o1") none).run Memory.backend
    (store record label)

variable {record : OrgKeyRecord}

theorem reads (label : Text) : Reads (row label)
    ⟨"s1", "u1", "o1", ⟨none, none, none, none⟩, label, KeyEncoding.utf8.label, 1, none, none⟩ :=
  recordOf_eq_ok_iff.mp rfl

theorem versions (record : OrgKeyRecord) (label : Text) :
    (store record label).HasIntegerVersions := by
  intro id found h
  obtain ⟨-, rfl⟩ := Prod.mk.inj (List.mem_singleton.mp (Assoc.mem_of_get? h))
  exact ⟨1, _, rfl, rfl⟩

theorem settles (h : OrgKey.Wraps key key record) (label : Text) (n : Nonces) :
    (OrgKey.resolve key.bytes (.text "o1")).settle (store record label).keys n =
      some (.ok key.bytes, n) := OrgKey.settle_resolve rfl h

theorem updated_ok (h : OrgKey.Wraps key key record) (label : Text) :
    (updated record label).result = .ok "s1" :=
  Vault.exists_update_ok rfl (by decide) rfl (reads label) rfl ⟨_, rfl, rfl⟩ rfl
    (settles h label)

theorem missing_title (h : OrgKey.Wraps key key record) :
    (((Request.get (.text "s1") (.text "o1")).program key.bytes).run Memory.backend
      (store record aes256Gcm)).result = .error (.vault
        { cause := .missingField
          secretId := .text "s1"
          orgId := .text "o1"
          field := .text "title" }) := by
  let m := store record aes256Gcm
  have hget : (Vault.get key.bytes (.text "s1") (.text "o1")).effect m.nonces m = _ :=
    Vault.effect_get rfl (reads aes256Gcm) rfl (settles h aes256Gcm) m.nonces
  have hmap := Program.effect_map (Vault.get key.bytes (.text "s1") (.text "o1")) Reply.secret
    m.nonces m
  rw [hget] at hmap
  exact congrArg Prod.fst hmap

end Cabinet

/-- The hypotheses hold of a row under the vault's label whose fields are all written. -/
theorem written_row_reads_back : ∃ record, OrgKey.Wraps Cabinet.key Cabinet.key record ∧
    ∃ s, ((Vault.get Cabinet.key.bytes (.text "s1") (.text "o1")).run Memory.backend
      (Cabinet.updated record aes256Gcm).state).result = .ok s ∧ s.texts.title = "t" := by
  obtain ⟨record, hrecord⟩ := OrgKey.exists_wraps Cabinet.key Cabinet.key
  refine ⟨record, hrecord, ?_⟩
  obtain ⟨_, r, hrow, hr, hlabel, -⟩ := Vault.updated_secret_reads_back Cabinet.key.bytes
    (.text "s1") (.text "o1") Cabinet.changes none (Cabinet.store record aes256Gcm) "s1"
    (Cabinet.versions record _) (Cabinet.updated_ok hrecord _)
  cases hrow
  cases hr
  obtain ⟨s, hs, htexts⟩ | ⟨f, a, -, -, -, hnone⟩ := hlabel rfl
  · exact ⟨s, hs, htexts .title _ rfl⟩
  · cases a <;> cases hnone

/-- The update of a row under a foreign label succeeds, and leaves a row that cannot be read. -/
theorem foreign_label_stays_unreadable : ∃ record, OrgKey.Wraps Cabinet.key Cabinet.key record ∧
    (Cabinet.store record "aes-128-cbc").HasIntegerVersions ∧
    (Cabinet.updated record "aes-128-cbc").result = .ok "s1" ∧
    ((Vault.get Cabinet.key.bytes (.text "s1") (.text "o1")).run Memory.backend
      (Cabinet.updated record "aes-128-cbc").state).result = .error (.vault
        { cause := .unsupportedAlgorithm "aes-128-cbc"
          secretId := .text "s1"
          orgId := .text "o1" }) := by
  obtain ⟨record, hrecord⟩ := OrgKey.exists_wraps Cabinet.key Cabinet.key
  have hok := Cabinet.updated_ok hrecord "aes-128-cbc"
  have hversions := Cabinet.versions record "aes-128-cbc"
  refine ⟨record, hrecord, hversions, hok, ?_⟩
  obtain ⟨_, r, key, v, fields, hwrote⟩ := Vault.exists_wrote hversions hok
  cases hwrote.found
  have hr : r = _ := Except.ok.inj ((recordOf_eq_ok_iff.mpr hwrote.reads).symm.trans
    (recordOf_eq_ok_iff.mpr (Cabinet.reads "aes-128-cbc")))
  subst hr
  exact hwrote.get_unsupported (by decide) (Cabinet.updated record "aes-128-cbc").state.nonces

end EnvelopeVault
