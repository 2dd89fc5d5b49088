import EnvelopeVault.Proofs.OrgKey
import EnvelopeVault.Proofs.PoolRuns
import EnvelopeVault.Proofs.Rewriting

/-!
# Service, codec and database agree on the layout of rows

`statements_agree_with_layout`: what the vault writes is bound as a whole by the
statement that writes it, and read back from a row that holds it. A creation
inserts all columns of the table that the database does not fill itself; an
update assigns the columns of the fields that it is given and no others.
-/

namespace EnvelopeVault

open FieldCipher

-- ---------------------------------------------------------------------------
-- Keys and sealing over a pool
-- ---------------------------------------------------------------------------

namespace OrgKey

theorem run_resolve_pool {root key : Bytes} {org : Value} {p : Pool}
    (h : ((resolve root org).run Postgres.backend p).result = .ok key) :
    key.length = keySize ∧ ∃ s : Pool,
      p.events ++ [.acquire, .statement (.selectKey org), .release] = s.events ∧
      (∀ k, s.item k = p.item (k + 1)) ∧
      (resolve root org).run Postgres.backend p = ⟨.ok key, [], s⟩ := by
  have hissued : (Access.findKey org).IsIssued := ⟨_, rfl⟩
  rw [resolve_eq] at h ⊢
  obtain ⟨e, hrun, -⟩ | ⟨found, hrun, -, hquiet⟩ :=
    Program.run_access_cases hissued (ofFound root org) p
  · rw [hrun] at h
    cases h
  rw [hrun] at h ⊢
  rw [Access.events_eq rfl, PoolItem.events_of_quiet hquiet]
  cases found with
  | none => cases h
  | some record =>
    obtain ⟨log, r, hsaying, hopens⟩ := exists_saying root org record
    rw [ofFound, hsaying, Program.run_saying] at h ⊢
    cases show r = .ok key from h
    obtain ⟨rfl, ho⟩ := hopens key rfl
    exact ⟨ho.2.2, _, rfl, Pool.item_saw p _, rfl⟩

def keyRow (record : OrgKeyRecord) : Row :=
  [("orgId", .text record.orgId), ("encryptedSymmetricKey", .text record.wrappedKey.ciphertext),
    ("symmetricKeyIV", .text record.wrappedKey.iv),
    ("symmetricKeyTag", .text record.wrappedKey.tag),
    ("symmetricKeyAlgorithm", .text record.algorithm),
    ("symmetricKeyKeyEncoding", .text record.keyEncoding.label)]

theorem keyRecordOf_keyRow (org : Value) (record : OrgKeyRecord) :
    Postgres.keyRecordOf org (.map (keyRow record)) = .ok record := by
  obtain ⟨orgId, wrappedKey, encoding, algorithm⟩ := record
  cases encoding <;> rfl

theorem run_resolve_keyRow {root key : Key} (h : Wraps root key record) (org : Value) (p : Pool)
    (hq : (p.item 0).fault? = none) (hrow : (p.item 0).result = .map (keyRow record)) :
    ((resolve root.bytes org).run Postgres.backend p).result = .ok key.bytes := by
  have hissued : (Access.findKey org).IsIssued := ⟨_, rfl⟩
  have hfound : (Access.findKey org).interpret (p.item 0).result = .ok (some record) := by
    rw [hrow]
    exact congrArg (some <$> ·) (keyRecordOf_keyRow org record)
  rw [resolve_eq, Program.run_access_ok hissued hq hfound, ofFound, h.ofRecord]
  rfl

end OrgKey

namespace Sealing

theorem run_encryptAll_pool (key : Key) {texts : Assoc Text}
    (h : ∀ pair ∈ texts, pair.2.IsEncodable) (p : Pool) :
    ∃ (fields : Assoc Field) (left : Nonces),
      (encryptAll key.bytes texts).run Postgres.backend p =
        ⟨.ok fields, [], { p with nonces := left }⟩ ∧
        Assoc.Rel (fun _ => Seals key) fields texts := by
  induction texts generalizing p with
  | nil => exact ⟨[], p.nonces, rfl, .nil⟩
  | cons pair rest ih =>
    obtain ⟨name, t⟩ := pair
    obtain ⟨ht, hrest⟩ := List.forall_mem_cons.mp h
    obtain ⟨f, hf⟩ := exists_encryptWith key p.nonces.next.1 ht
    have hseal : (encrypt key.bytes t).run Postgres.backend p =
        ⟨.ok f, [], { p with nonces := p.nonces.next.2 }⟩ := by
      rw [encrypt_eq_draw]
      simp only [Program.run, Postgres.backend, Pool.nonce, hf]
      rfl
    obtain ⟨fields, left, hfields, hrel⟩ := ih hrest { p with nonces := p.nonces.next.2 }
    refine ⟨(name, f) :: fields, left, ?_, .cons ⟨_, hf⟩ hrel⟩
    rw [encryptAll, Program.bind_eq, Program.run_bind, hseal, Outcome.andThen]
    simp only [Program.bind_eq, Program.run_bind, hfields, Outcome.andThen]
    rfl

end Sealing

-- ---------------------------------------------------------------------------
-- Creations
-- ---------------------------------------------------------------------------

namespace Layout

/-- A row holds the cells that were inserted, and what the database adds: an id, a version and
the times. -/
structure Completes (row stored : Row) (id : Value) : Prop where
  cells : ∀ name v, row.get? name = some v → stored.get? name = some v
  id : stored.get? "id" = some id
  version : ∃ n, stored.get? "version" = some (.int n)
  created : Holds stored "createdAt" fun v => ∃ t, v = .time t
  updated : Holds stored "updatedAt" fun v => ∃ t, v = .time t

/-- A row as the table declares its columns. -/
structure InTable (row : Row) : Prop where
  ids : ∀ name ∈ (["id", "userId", "orgId"] : List Text), Holds row name fun v => ∃ u, v = .uuid u
  texts : ∀ name ∈ encryptedColumns ++ (["algorithm", "keyEncoding"] : List Text),
    Holds row name fun v => ∃ t, v = .text t
  version : Holds row "version" fun v => ∃ n, v = .int n
  times : ∀ name ∈ (["createdAt", "updatedAt"] : List Text),
    Holds row name fun v => ∃ t, v = .time t

theorem mem_encryptedColumns (a : Attribute) (part : Part) :
    column a.name part ∈ encryptedColumns :=
  List.mem_flatMap.mpr ⟨a, a.mem_all, List.mem_map.mpr ⟨part, by cases part <;> decide, rfl⟩⟩

/-- No row of the table is refused for what is in it. -/
theorem InTable.exists_record {row : Row} (h : InTable row) :
    ∃ r, recordOf (.map row) = .ok r := by
  obtain ⟨id, hid, -⟩ := h.ids "id" (by decide)
  obtain ⟨user, huser, -⟩ := h.ids "userId" (by decide)
  obtain ⟨org, horg, -⟩ := h.ids "orgId" (by decide)
  obtain ⟨_, halg, algorithm, rfl⟩ := h.texts "algorithm" (List.mem_append_right _ (by decide))
  obtain ⟨_, henc, encoding, rfl⟩ := h.texts "keyEncoding" (List.mem_append_right _ (by decide))
  obtain ⟨_, hver, version, rfl⟩ := h.version
  obtain ⟨_, hcre, created, rfl⟩ := h.times "createdAt" (by decide)
  obtain ⟨_, hupd, updated, rfl⟩ := h.times "updatedAt" (by decide)
  have hfield (a : Attribute) : ∃ f : Field, FieldReads row a (some f) := by
    have hpart (part : Part) : ∃ t, row.get? (column a.name part) = some (.text t) := by
      obtain ⟨_, hv, t, rfl⟩ := h.texts _ (List.mem_append_left _ (mem_encryptedColumns a part))
      exact ⟨t, hv⟩
    obtain ⟨ciphertext, hc⟩ := hpart .ciphertext
    obtain ⟨iv, hi⟩ := hpart .iv
    obtain ⟨tag, ht⟩ := hpart .tag
    refine ⟨⟨ciphertext, iv, tag⟩, .texts ?_⟩
    rintro (_ | _ | _)
    · exact hc
    · exact hi
    · exact ht
  obtain ⟨fields, hfields⟩ := Classical.axiomOfChoice hfield
  let r : SecretRecord := ⟨id.toText, user.toText, org.toText,
    .ofFn fun a => some (fields a), algorithm, encoding, version, some created, some updated⟩
  refine ⟨r, recordOf_eq_ok_iff.mpr ⟨⟨_, hid, rfl⟩, ⟨_, huser, rfl⟩, ⟨_, horg, rfl⟩,
    ⟨_, halg, rfl⟩, ⟨_, henc, rfl⟩, ⟨_, hver, rfl⟩, ⟨_, hcre, rfl⟩, ⟨_, hupd, rfl⟩, ?_⟩⟩
  intro a
  rw [Attributes.get_ofFn]
  exact hfields a

end Layout

namespace Vault

open Layout

variable {key : Key} {org user : Value} {fields : Assoc Field} {texts : Attributes Text}

theorem names_newRow (h : fields.names = Attribute.all.map (·.name)) (org user : Value) :
    (newRow org user fields).names = Sql.insertColumns := by
  have hn : fields.names.Nodup := by
    rw [h]
    decide
  have hcolumns := Query.names_columnsOf hn
  rw [h] at hcolumns
  let owner : Row := [("userId", user), ("orgId", org)]
  let labels : Row :=
    [("algorithm", .text aes256Gcm), ("keyEncoding", .text KeyEncoding.utf8.label)]
  have hnames : Assoc.names (owner ++ (columnsOf fields ++ labels)) = Sql.insertColumns := by
    rw [Assoc.names, List.map_append, List.map_append, ← Assoc.names, ← Assoc.names, hcolumns]
    exact show (["userId", "orgId"] : List Text) ++ ((Attribute.all.map (·.name)).flatMap
      (fun name => Part.all.map (column name)) ++ (["algorithm", "keyEncoding"] : List Text)) =
      Sql.insertColumns by decide
  rw [newRow, Assoc.putAll_eq_append, hnames]
  rw [hnames]
  decide

/-- A row that holds a new row's cells opens to the texts that were sealed for it. -/
theorem opens_completed (hrel : Assoc.Rel (fun _ => Seals key) fields texts.toList)
    {stored : Row} {id : Value} (h : Completes (newRow org user fields) stored id) :
    ∃ record, recordOf (.map stored) = .ok record ∧
      Sealing.decryptRecord key.bytes record =
        .done (.ok ⟨id.toText, user.toText, org.toText, texts⟩) := by
  have hn : fields.names.Nodup := by
    rw [hrel.names_eq]
    exact show (Attribute.all.map (·.name)).Nodup by decide
  let plain : Row := [("algorithm", .text aes256Gcm),
    ("keyEncoding", .text KeyEncoding.utf8.label), ("userId", user), ("orgId", org)]
  have hplain {name : Text} {v : Value} (hp : isPlain name) (hv : plain.get? name = some v) :
      stored.get? name = some v :=
    h.cells name v ((get?_newRow_plain hn org user hp).trans hv)
  have hfield (a : Attribute) :
      ∃ f, fields.get? a.name = some f ∧ Seals key f (texts.get a) := by
    have h := hrel.get? a.name
    rw [Attributes.get?_toList] at h
    generalize fields.get? a.name = field? at h ⊢
    cases h with
    | some h => exact ⟨_, rfl, h⟩
  obtain ⟨version, hversion⟩ := h.version
  obtain ⟨_, hcreated, created, rfl⟩ := h.created
  obtain ⟨_, hupdated, updated, rfl⟩ := h.updated
  have hreads : Reads stored ⟨id.toText, user.toText, org.toText,
      .ofFn fun a => fields.get? a.name, aes256Gcm, KeyEncoding.utf8.label, version, some created,
      some updated⟩ := by
    refine ⟨⟨id, h.id, rfl⟩, ⟨user, hplain (by decide) (by rfl), rfl⟩,
      ⟨org, hplain (by decide) (by rfl), rfl⟩, ⟨_, hplain (by decide) (by rfl), rfl⟩,
      ⟨_, hplain (by decide) (by rfl), rfl⟩, ⟨_, hversion, rfl⟩, ⟨_, hcreated, rfl⟩,
      ⟨_, hupdated, rfl⟩, fun a => ?_⟩
    obtain ⟨f, hget, -⟩ := hfield a
    rw [Attributes.get_ofFn, hget]
    refine .texts fun part => h.cells _ _ ?_
    rw [get?_newRow_column hn, hget]
    rfl
  refine ⟨_, recordOf_eq_ok_iff.mpr hreads,
    Sealing.decryptRecord_eq_ok_iff.mpr ⟨rfl, rfl, rfl, rfl, fun a => ?_⟩⟩
  obtain ⟨f, hget, hseal⟩ := hfield a
  simp only [Sealing.openAttribute, Attributes.get_ofFn, hget]
  exact seals_iff_decrypt.mp hseal

/-- What a creation goes on with after its insertion. -/
def announce (org user created : Value) : Program Text := do
  let id := (← Program.ofExcept (cellOf created "id")).toText
  .log (.secretCreated id org.toText user.toText)
  return id

theorem create_eq (root : Bytes) (draft : Draft) (org user : Value) :
    create root draft org user =
      (OrgKey.resolve root org).bind fun key => (Sealing.encryptDraft key draft).bind fun fields =>
        .access (.insert (newRow org user fields)) (announce org user) := rfl

theorem exists_create_events {root : Bytes} {draft : Draft} {p : Pool}
    (hk : ((OrgKey.resolve root org).run Postgres.backend p).result = .ok key.bytes)
    (ht : ∀ a, (draft.texts.get a).IsEncodable) (user : Value) :
    ∃ fields : Assoc Field, Assoc.Rel (fun _ => Seals key) fields draft.texts.toList ∧
      ((create root draft org user).run Postgres.backend p).state.events =
        p.events ++ [.acquire, .statement (.selectKey org), .release] ++
          (p.item 1).events (.insert (newRow org user fields)) := by
  have htexts := Attributes.forall_mem_toList ht
  obtain ⟨-, s, hevents, hitem, hresolve⟩ := OrgKey.run_resolve_pool hk
  obtain ⟨fields, left, hseal, hrel⟩ := Sealing.run_encryptAll_pool key htexts s
  have hissued : (Access.insert (newRow org user fields)).IsIssued := ⟨_, rfl⟩
  have hannounce (created : Value) :
      (announce org user created).Ensures (fun _ => False) fun _ => True :=
    .ofExcept_bind fun _ => trivial
  obtain ⟨made, rest, hmade, hlater⟩ := Program.exists_later_trace (fun _ h => h.elim) hissued
    hannounce { s with nonces := left }
  refine ⟨fields, hrel, ?_⟩
  rw [List.eq_nil_iff_forall_not_mem.mpr hmade, Pool.trace_nil, List.append_nil,
    Access.events_eq rfl] at hlater
  rw [create_eq, Program.run_bind, hresolve, Outcome.andThen]
  simp only [Sealing.encryptDraft, Program.run_bind, hseal, Outcome.andThen]
  rw [hlater, ← hevents, ← hitem 0]
  rfl

-- ---------------------------------------------------------------------------
-- Updates
-- ---------------------------------------------------------------------------

/-- With a key that resolves and texts that can be encoded, the write of an update looks the key
up, seals the texts and writes what it sealed. -/
theorem exists_sealed {root : Bytes} {changes : Changes} {p : Pool}
    (hk : ((OrgKey.resolve root org).run Postgres.backend p).result = .ok key.bytes)
    (ht : ∀ pair ∈ changes.provided, pair.2.IsEncodable) (secret : Value)
    (expected : Option Value) :
    ∃ (fields : Assoc Field) (s : Pool), Assoc.Rel (fun _ => Seals key) fields changes.provided ∧
      p.events ++ [.acquire, .statement (.selectKey org), .release] = s.events ∧
      (∀ k, s.item k = p.item (k + 1)) ∧
      (writeChanges root secret changes org expected).run Postgres.backend p =
        (Program.access (.update secret (columnsOf fields) expected)
          (conclude secret org expected fields)).run Postgres.backend s := by
  obtain ⟨-, s, hevents, hitem, hresolve⟩ := OrgKey.run_resolve_pool hk
  obtain ⟨fields, left, hseal, hrel⟩ := Sealing.run_encryptAll_pool key ht s
  refine ⟨fields, { s with nonces := left }, hrel, hevents, hitem, ?_⟩
  rw [writeChanges_eq, Program.run_bind, sealChanges, Program.run_bind, hresolve, Outcome.andThen]
  simp only [Sealing.encryptChanges, hseal, Outcome.andThen]
  rfl

/-- The write of an update is one statement. After it the row may be read again. -/
theorem exists_write_events {root : Bytes} {changes : Changes} {p : Pool}
    (hk : ((OrgKey.resolve root org).run Postgres.backend p).result = .ok key.bytes)
    (hp : changes.provided.isEmpty = false) (ht : ∀ pair ∈ changes.provided, pair.2.IsEncodable)
    (secret : Value) (expected : Option Value) :
    ∃ (fields : Assoc Field) (q : Query) (later : List PoolEvent),
      Assoc.Rel (fun _ => Seals key) fields changes.provided ∧
      Query.update secret (columnsOf fields) expected = .ok q ∧
      ((writeChanges root secret changes org expected).run Postgres.backend p).state.events =
        p.events ++ [.acquire, .statement (.selectKey org), .release] ++ (p.item 1).events q ++
          later ∧
      ∀ again, .statement again ∈ later → again = .selectById secret := by
  obtain ⟨fields, s, hrel, hevents, hitem, hrun⟩ := exists_sealed hk ht secret expected
  obtain ⟨q, hq⟩ := exists_update_statement hp hrel.names_eq secret expected
  have hstatement : (Access.update secret (columnsOf fields) expected).statement = .ok q := hq
  have hconclude (answer : Option Value) :
      (conclude secret org expected fields answer).Ensures (· = .fetch secret) fun _ => True := by
    cases answer with
    | none =>
      rw [conclude, refused_eq]
      exact ⟨rfl, fun _ => trivial⟩
    | some row => trivial
  obtain ⟨made, rest, hmade, hlater⟩ := Program.exists_later_trace
    (by rintro _ rfl; exact ⟨_, rfl⟩) ⟨q, hstatement⟩ hconclude s
  rw [Access.events_eq hstatement] at hlater
  refine ⟨fields, q, rest.trace made, hrel, hq, ?_, fun again hm => ?_⟩
  · rw [hrun, hlater, hevents, ← hitem 0]
  · obtain ⟨a, ha, hagain⟩ := Pool.statement_of_mem_trace hm
    cases hmade a ha
    exact (Except.ok.inj hagain).symm

theorem run_update_pool {changes : Changes} {p : Pool} {row : Row}
    (hp : changes.provided.isEmpty = false) (hq : (p.item 0).fault? = none)
    (hrow : (p.item 0).result = .map row) (ho : Holds row "orgId" fun v => v.toText = org.toText)
    (root : Bytes) (secret : Value) (expected : Option Value) :
    let s := p.saw [.acquire, .statement (.selectById secret), .release]
    (update root secret changes org expected).run Postgres.backend p =
      match recordOf (.map row) with
      | .error e => ⟨.error e, [], s⟩
      | .ok record =>
        if expected.all (·.isNumber record.version) then
          (writeChanges root secret changes org expected).run Postgres.backend s
        else ⟨.error (conflict secret org (expected.getD .null)), [], s⟩ := by
  intro s
  obtain ⟨owner, howner, hown⟩ := ho
  have hcell : cellOf (.map row) "orgId" = .ok owner := cell_eq_ok_iff.mpr howner
  have hissued : (Access.fetch secret).IsIssued := ⟨_, rfl⟩
  have hfound : (Access.fetch secret).interpret (p.item 0).result = .ok (some (.map row)) := by
    rw [hrow]
    rfl
  rw [update_eq hp, Program.run_access_ok hissued hq hfound, Access.events_eq rfl,
    PoolItem.events_of_quiet hq, proceed]
  change Program.run _ _ s = _
  cases hr : recordOf (.map row) with
  | error e =>
    have hadmits : admits secret org expected (some (.map row)) = .error e := by
      simp [admits, ownedRecord, hcell, hown, hr, bind, Except.bind]
    rw [hadmits]
    rfl
  | ok record =>
    have hr := recordOf_eq_ok_iff.mp hr
    obtain ⟨owner', howner', ho⟩ := hr.org
    cases howner.symm.trans howner'
    rw [admits_of_reads hr (ho.symm.trans hown)]
    simp only
    by_cases hv : expected.all (·.isNumber record.version) = true
    · rw [if_pos hv, if_pos hv]
    · rw [if_neg hv, if_neg hv]
      rfl

-- ---------------------------------------------------------------------------
-- Agreement
-- ---------------------------------------------------------------------------

/-- What a new row is made of, bound by its statement and read back. -/
structure Inserts (key : Bytes) (draft : Draft) (org user : Value) (row : Row) : Prop where
  names : row.names = Sql.insertColumns
  bindings : (Query.insert row).bindings = row.map fun cell => (cell.1, some cell.2)
  opens : ∀ stored id, Completes row stored id → ∃ record,
    recordOf (.map stored) = .ok record ∧ Sealing.decryptRecord key record =
      .done (.ok ⟨id.toText, user.toText, org.toText, draft.texts⟩)

/-- What an update writes over a row, bound by its statement and read back. -/
structure Assigns (key : Bytes) (changes : Changes) (row : Row) (record : SecretRecord)
    (columns : Row) (q : Query) : Prop where
  bindings : q.bindings = columns.map fun cell => (cell.1, some cell.2)
  names : columns.names =
    (Assoc.names changes.provided).flatMap fun name => Part.all.map (column name)
  opens : ∃ record', recordOf (.map (row.putAll columns)) = .ok record' ∧
    (∀ a, Sealing.openAttribute key record' a =
      (changes.get a).elim (Sealing.openAttribute key record a) .ok) ∧
    ∀ s, Sealing.decryptRecord key record = .done (.ok s) →
      Sealing.decryptRecord key record' = .done (.ok { s with texts := changes.over s.texts })

theorem inserts_newRow {draft : Draft}
    (hrel : Assoc.Rel (fun _ => Seals key) fields draft.texts.toList) (org user : Value) :
    Inserts key.bytes draft org user (newRow org user fields) := by
  have hnames := names_newRow hrel.names_eq org user
  exact ⟨hnames, Query.bindings_insert_all hnames, fun _ _ => opens_completed hrel⟩

theorem assigns_columnsOf {changes : Changes} {row : Row} {record : SecretRecord}
    (hrel : Assoc.Rel (fun _ => Seals key) fields changes.provided)
    (hr : recordOf (.map row) = .ok record)
    (hq : Query.update secret (columnsOf fields) expected = .ok q) :
    Assigns key.bytes changes row record (columnsOf fields) q := by
  have hn : fields.names.Nodup := hrel.names_eq ▸ changes.nodup_provided
  have hr := recordOf_eq_ok_iff.mp hr
  have hversion := hr.version.congr (get?_putColumns_plain hn (by decide) row)
  have hreads := hr.rewritten (rewrites_putAll hn row) hversion
  refine ⟨Query.bindings_update hq, ?_, _, recordOf_eq_ok_iff.mpr hreads,
    Sealing.openAttribute_rewritten hrel _, fun s hs => Sealing.decryptRecord_rewritten hrel _ hs⟩
  rw [Query.names_columnsOf hn, hrel.names_eq]

end Vault
end EnvelopeVault
