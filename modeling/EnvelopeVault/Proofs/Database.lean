import EnvelopeVault.Proofs.Listing
import EnvelopeVault.Proofs.RowAgreement
import EnvelopeVault.Proofs.Uuid
import Mathlib.Data.List.Nodup

/-!
# Programs over a database of UUIDs

A database compares an argument for a column of UUIDs as the UUID that it
denotes, whatever its spelling (`Database.denoted`), and gives rows with UUIDs in
these columns. `Database.Serves` says that a script holds what the database
answers to the accesses of a program. The vault compares the text of an id, so
`listed_secrets_read_under_canonical_text`: what is listed under one spelling is
read under the canonical text and under no other.
-/

namespace EnvelopeVault

open Layout

-- ---------------------------------------------------------------------------
-- Tables
-- ---------------------------------------------------------------------------

structure SecretRow where
  cells : Row
  id : Uuid
  userId : Uuid
  orgId : Uuid
  cell_id : cells.get? "id" = some (.uuid id)
  cell_user : cells.get? "userId" = some (.uuid userId)
  cell_org : cells.get? "orgId" = some (.uuid orgId)

namespace SecretRow

def value (r : SecretRow) : Value := .map r.cells

def hasData (r : SecretRow) : Bool :=
  (r.cells.get? (column Attribute.data.name .ciphertext)).any (!·.isNull)

end SecretRow

/-- Tables with columns of UUIDs. `reads` is how texts are read for such a column: the canonical
text of a UUID denotes it, and others may. -/
structure Database where
  reads : Text → Option Uuid
  reads_text : ∀ u : Uuid, reads u.text = some u
  secrets : List SecretRow
  nodup : (secrets.map (·.id)).Nodup
  keys : Uuid → Option Row

namespace Database

variable {d : Database} {α β : Type}

/-- The UUID as which an argument is compared. -/
def denoted (d : Database) : Value → Option Uuid
  | .uuid u => some u
  | .text t => d.reads t
  | _ => none

def secret? (d : Database) (id : Uuid) : Option SecretRow := d.secrets.find? (·.id = id)

def owned (d : Database) (org user : Uuid) (requireData : Bool) : List SecretRow :=
  d.secrets.filter fun r => r.orgId = org && r.userId = user && (!requireData || r.hasData)

/-- What the database answers to a selection; for an argument that denotes no UUID there is no
answer. Nothing is said of statements that change the tables. -/
def Answers (d : Database) (q : Query) (v : Value) : Prop :=
  match q.sql, q.args with
  | .selectKey, [org] => ∃ u, d.denoted org = some u ∧ v = .ofOption .map (d.keys u)
  | .selectById, [secret] =>
    ∃ id, d.denoted secret = some id ∧ v = .ofOption SecretRow.value (d.secret? id)
  | .selectFiltered requireData, [org, user] =>
    ∃ u w, d.denoted org = some u ∧ d.denoted user = some w ∧
      ∃ rows : List SecretRow, rows.Perm (d.owned u w requireData) ∧
        v = .list (rows.map SecretRow.value)
  | _, _ => True

/-- The accesses of the program find in the pool what the database answers, and no fault. -/
def Serves (d : Database) (program : Program α) (p : Pool) : Prop :=
  ∀ k a q, (program.accesses Postgres.backend p)[k]? = some a → a.statement = .ok q →
    (p.item k).fault? = none ∧ d.Answers q (p.item k).result

theorem secret?_of_mem {r : SecretRow} (h : r ∈ d.secrets) : d.secret? r.id = some r := by
  cases hf : d.secret? r.id with
  | none => exact absurd (List.find?_eq_none.mp hf r h) (by simp)
  | some found =>
    have hid : found.id = r.id := by simpa using List.find?_some hf
    rw [List.inj_on_of_nodup_map d.nodup (List.mem_of_find?_eq_some hf) h hid]

-- ---------------------------------------------------------------------------
-- Programs that are served
-- ---------------------------------------------------------------------------

section Serves

variable {a : Access} {q : Query} {next : a.Answer → Program α} {p : Pool}

theorem accesses_access (ha : a.IsIssued) (next : a.Answer → Program α)
    (hquiet : (p.item 0).fault? = none) :
    (Program.access a next).accesses Postgres.backend p =
      a :: match a.interpret (p.item 0).result with
        | .error _ => []
        | .ok answer => (next answer).accesses Postgres.backend (p.saw (a.events (p.item 0))) := by
  have hanswer := Postgres.answer_eq ha p
  rw [hquiet, Option.elim_none] at hanswer
  simp only [Program.accesses, Postgres.backend, hanswer]
  cases a.interpret (p.item 0).result <;> rfl

theorem serves_access (hq : a.statement = .ok q) (hquiet : (p.item 0).fault? = none)
    (hanswers : d.Answers q (p.item 0).result)
    (hnext : ∀ answer, a.interpret (p.item 0).result = .ok answer →
      d.Serves (next answer) (p.saw (a.events (p.item 0)))) : d.Serves (.access a next) p := by
  intro k b q' hk hq'
  rw [accesses_access ⟨q, hq⟩ next hquiet] at hk
  cases k with
  | zero =>
    cases hk
    cases hq.symm.trans hq'
    exact ⟨hquiet, hanswers⟩
  | succ k =>
    cases hi : a.interpret (p.item 0).result with
    | error e =>
      rw [hi] at hk
      cases hk
    | ok answer =>
      rw [hi] at hk
      have h := hnext answer hi k b q' hk hq'
      rwa [Pool.item_saw] at h

/-- An access finds an answer that it cannot use, or the program goes on with it and is served. -/
theorem Serves.access (h : d.Serves (.access a next) p) (hq : a.statement = .ok q) :
    ∃ v, d.Answers q v ∧
      ((∃ e, a.interpret v = .error e ∧
        ((Program.access a next).run Postgres.backend p).result = .error e) ∨
      ∃ answer p', a.interpret v = .ok answer ∧ d.Serves (next answer) p' ∧
        (Program.access a next).run Postgres.backend p =
          (next answer).run Postgres.backend p') := by
  have hissued : a.IsIssued := ⟨q, hq⟩
  obtain ⟨hquiet, hanswers⟩ := h 0 a q (by rw [Program.accesses, List.getElem?_cons_zero]) hq
  refine ⟨_, hanswers, ?_⟩
  cases hi : a.interpret (p.item 0).result with
  | error e =>
    have hanswer := Postgres.answer_eq hissued p
    rw [hquiet, Option.elim_none, hi] at hanswer
    exact .inl ⟨e, rfl, by simp only [Program.run, Postgres.backend, hanswer]⟩
  | ok answer =>
    refine .inr ⟨answer, _, rfl, fun k b q' hk => ?_, Program.run_access_ok hissued hquiet hi⟩
    rw [Pool.item_saw]
    refine h (k + 1) b q' ?_
    rwa [accesses_access hissued next hquiet, List.getElem?_cons_succ, hi]

def HasAnswer (d : Database) (a : Access) : Prop := ∃ q v, a.statement = .ok q ∧ d.Answers q v

theorem exists_serves {program : Program α} (h : program.Ensures d.HasAnswer fun _ => True)
    (events : List PoolEvent) (nonces : Nonces) :
    ∃ script, d.Serves program ⟨script, events, nonces⟩ := by
  induction program generalizing events nonces with
  | done result => exact ⟨[], nofun⟩
  | note line next ih => exact ih h events nonces
  | draw next ih => exact ih nonces.next.1 (h _) events nonces.next.2
  | access a next ih =>
    obtain ⟨⟨q, v, hq, hv⟩, hnext⟩ := h
    let item : PoolItem := ⟨v, none, none, none⟩
    cases hi : a.interpret v with
    | error e =>
      exact ⟨[item], serves_access hq rfl hv fun answer ha => nomatch hi.symm.trans ha⟩
    | ok answer =>
      obtain ⟨script, hscript⟩ := ih answer (hnext answer) (events ++ a.events item) nonces
      refine ⟨item :: script, serves_access hq rfl hv fun answer' ha => ?_⟩
      cases hi.symm.trans ha
      exact hscript

end Serves

-- ---------------------------------------------------------------------------
-- Keys
-- ---------------------------------------------------------------------------

theorem supported_eq_ok_iff {c : Checked α} : Postgres.supported org c = .ok a ↔ c = .ok a := by
  cases c <;> simp [Postgres.supported]

theorem keyRecordOf_eq_ok_iff (org org' : Value) :
    Postgres.keyRecordOf org row = .ok record ↔ Postgres.keyRecordOf org' row = .ok record := by
  simp only [Postgres.keyRecordOf, bind_ok, supported_eq_ok_iff]

theorem interpret_findKey_eq_ok_iff (org : Value) (row : Row) :
    (Access.findKey org).interpret (.map row) = .ok (some record) ↔
      Postgres.keyRecordOf org (.map row) = .ok record := by
  change some <$> Postgres.keyRecordOf org (.map row) = _ ↔ _
  cases Postgres.keyRecordOf org (.map row) <;> simp

/-- The organization has the key, wrapped under the root key. -/
def HasKey (d : Database) (root : Bytes) (u : Uuid) (key : Bytes) : Prop :=
  ∃ row record, d.keys u = some row ∧ Postgres.keyRecordOf (.uuid u) (.map row) = .ok record ∧
    OrgKey.Opens root record key

variable {root key : Bytes} {org user secret : Value} {u w : Uuid} {p : Pool}

theorem HasKey.unique (h : d.HasKey root u key) (h' : d.HasKey root u other) : key = other := by
  obtain ⟨row, record, hrow, hrecord, ho⟩ := h
  obtain ⟨row', record', hrow', hrecord', ho'⟩ := h'
  cases hrow.symm.trans hrow'
  cases hrecord.symm.trans hrecord'
  exact ho.unique ho'

theorem hasKey_iff (org : Value) :
    d.HasKey root u key ↔ ∃ record, (Access.findKey org).interpret (.ofOption .map (d.keys u)) =
      .ok (some record) ∧ OrgKey.Opens root record key := by
  cases hrow : d.keys u with
  | none =>
    simp only [HasKey, hrow]
    constructor
    · rintro ⟨_, _, ⟨⟩, -⟩
    · rintro ⟨_, ⟨⟩, -⟩
  | some row =>
    simp only [HasKey, hrow, Value.ofOption, Option.some.injEq, exists_and_left, exists_eq_left',
      keyRecordOf_eq_ok_iff (.uuid u) org]
    exact exists_congr fun record => and_congr_left' (interpret_findKey_eq_ok_iff org row).symm

theorem Serves.resolve {f : Bytes → Program α} (ho : d.denoted org = some u)
    (h : d.Serves ((OrgKey.resolve root org).bind f) p) :
    let o := ((OrgKey.resolve root org).bind f).run Postgres.backend p
    (∃ key p', d.HasKey root u key ∧ d.Serves (f key) p' ∧ o = (f key).run Postgres.backend p') ∨
      ((∀ key, ¬ d.HasKey root u key) ∧ ∃ e, o.result = .error e) := by
  rw [OrgKey.resolve_eq, Program.bind] at h ⊢
  simp only [hasKey_iff org]
  obtain ⟨v, ⟨u', hu', rfl⟩, ⟨e, hi, hresult⟩ | ⟨found, p', hi, hserves, hrun⟩⟩ := h.access rfl
  all_goals cases ho.symm.trans hu'
  · refine .inr ⟨?_, e, hresult⟩
    rintro key ⟨record, hfound, -⟩
    cases hi.symm.trans hfound
  cases found with
  | none =>
    refine .inr ⟨?_, _, congrArg (·.result) hrun⟩
    rintro key ⟨record, hfound, -⟩
    cases hi.symm.trans hfound
  | some record =>
    by_cases hopens : ∃ key, OrgKey.Opens root record key
    · obtain ⟨key, hopens⟩ := hopens
      rw [OrgKey.ofFound, OrgKey.ofRecord_of_opens hopens, Program.saying_ok_bind] at hserves hrun
      exact .inl ⟨key, p', ⟨record, hi, hopens⟩, hserves, hrun⟩
    · refine .inr ⟨?_, ?_⟩
      · rintro key ⟨record', hfound, hkey⟩
        cases hi.symm.trans hfound
        exact hopens ⟨key, hkey⟩
      · obtain ⟨log, r, hsaying, hok⟩ := OrgKey.exists_saying root org record
        cases r with
        | ok key => exact absurd ⟨key, (hok key rfl).2⟩ hopens
        | error e =>
          rw [OrgKey.ofFound, hsaying, Program.saying_error_bind, Program.run_saying] at hrun
          exact ⟨e, congrArg (·.result) hrun⟩

-- ---------------------------------------------------------------------------
-- Listing
-- ---------------------------------------------------------------------------

theorem exists_openRow {key : Key} {rows : List SecretRow} {secrets : List Secret}
    (h : Vault.openRows key.bytes (rows.map SecretRow.value) = .saying [] (.ok secrets))
    (hm : s ∈ secrets) :
    ∃ r ∈ rows, Vault.openRow key.bytes r.value = .saying [] (.ok s) := by
  induction rows generalizing secrets with
  | nil =>
    cases h
    cases hm
  | cons r rows ih =>
    rw [List.map_cons, Vault.openRows_cons] at h
    obtain ⟨first, hfirst⟩ | ⟨e, log, he⟩ := Vault.openRow_cases key r.value
    case inr =>
      rw [he, Program.saying_error_bind] at h
      cases (Program.saying_inj h).2
    rw [hfirst, Program.saying_ok_bind] at h
    obtain ⟨later, hlater⟩ | ⟨row, -, e, log, -, he⟩ :=
      Vault.openRows_cases key (rows.map SecretRow.value)
    case inr =>
      rw [he, Program.saying_error_bind] at h
      cases (Program.saying_inj h).2
    rw [hlater] at h
    cases h
    obtain rfl | hm := List.mem_cons.mp hm
    · exact ⟨r, List.mem_cons_self, hfirst⟩
    · obtain ⟨found, hfound, hopen⟩ := ih hlater hm
      exact ⟨found, List.mem_cons_of_mem _ hfound, hopen⟩

theorem ids_of_openRow {key : Bytes} {r : SecretRow}
    (h : Vault.openRow key r.value = .saying [] (.ok s)) :
    s.id = r.id.text ∧ s.orgId = r.orgId.text := by
  rw [Vault.openRow, Program.ofExcept_bind] at h
  cases hr : recordOf r.value with
  | error e =>
    rw [hr] at h
    cases h
  | ok record =>
    rw [hr] at h
    obtain ⟨-, hid, -, horg, -⟩ := Sealing.decryptRecord_eq_ok_iff.mp h
    have hreads := recordOf_eq_ok_iff.mp hr
    obtain ⟨_, hcell, hid'⟩ := hreads.id
    cases r.cell_id.symm.trans hcell
    obtain ⟨_, hcell, horg'⟩ := hreads.org
    cases r.cell_org.symm.trans hcell
    exact ⟨hid.trans hid'.symm, horg.trans horg'.symm⟩

theorem Serves.list (ho : d.denoted org = some u) (h : d.Serves (Vault.list root org user) p) :
    let o := (Vault.list root org user).run Postgres.backend p
    (∃ key : Key, d.HasKey root u key.bytes ∧ ∃ w, d.denoted user = some w ∧
      ∃ rows : List SecretRow, rows.Perm (d.owned u w true) ∧
        ∃ log r, Vault.openRows key.bytes (rows.map SecretRow.value) = .saying log r ∧
          o.result = r) ∨
      ((∀ key, ¬ d.HasKey root u key) ∧ ∃ e, o.result = .error e) := by
  rw [Vault.list_eq] at h ⊢
  obtain ⟨octets, p', hkey, hserves, hrun⟩ | hnone := Serves.resolve ho h
  case inr => exact .inr hnone
  obtain ⟨row, record, hrow, hrecord, hopens⟩ := hkey
  let key : Key := ⟨octets, hopens.2.2⟩
  refine .inl ⟨key, ⟨row, record, hrow, hrecord, hopens⟩, ?_⟩
  obtain ⟨v, ⟨u', w, hu', hw, rows, hperm, rfl⟩, hcases⟩ := hserves.access rfl
  cases ho.symm.trans hu'
  refine ⟨w, hw, rows, hperm, ?_⟩
  obtain ⟨e, hi, -⟩ | ⟨answer, p'', hi, -, hlist⟩ := hcases
  · cases hi
  cases hi
  simp only [hrun, hlist]
  obtain ⟨secrets, hopen⟩ | ⟨-, -, e, log, -, hopen⟩ :=
    Vault.openRows_cases key (rows.map SecretRow.value)
  · exact ⟨_, _, hopen, by rw [show Vault.openRows octets _ = _ from hopen]; rfl⟩
  · refine ⟨_, _, hopen, ?_⟩
    rw [show Vault.openRows octets _ = _ from hopen, Program.saying_error_bind,
      Program.run_saying]

-- ---------------------------------------------------------------------------
-- Reading
-- ---------------------------------------------------------------------------

def openFound (root : Bytes) (secret org : Value) (found : Option Value) : Program Secret :=
  (Program.done (Vault.ownedRecord "FindConsumerSecretById" secret org found)).bind fun record =>
    (OrgKey.resolve root org).bind fun key => Sealing.decryptRecord key record

theorem get_eq (root : Bytes) (secret org : Value) :
    Vault.get root secret org = .access (.fetch secret) (openFound root secret org) := by
  rw [Vault.get, Vault.fetchOwned_eq]
  rfl

/-- A row is read under the text of its organization, as it is opened, and under no other. -/
theorem Serves.get {key : Key} {r : SecretRow} {res : Except Failure Secret}
    (hr : r ∈ d.secrets) (hid : d.denoted secret = some r.id) (ho : d.denoted org = some u)
    (hk : d.HasKey root u key.bytes) (hopen : Vault.openRow key.bytes r.value = .saying log res)
    (h : d.Serves (Vault.get root secret org) p) :
    ((Vault.get root secret org).run Postgres.backend p).result =
      if org.toText = r.orgId.text then res
      else .error (Vault.notFound "FindConsumerSecretById" secret org) := by
  rw [get_eq] at h ⊢
  obtain ⟨v, ⟨id, hid', rfl⟩, hcases⟩ := h.access rfl
  cases hid.symm.trans hid'
  rw [secret?_of_mem hr] at hcases
  obtain ⟨e, hi, -⟩ | ⟨found, p', hi, hserves, hrun⟩ := hcases
  · cases hi
  obtain rfl : some r.value = found := Except.ok.inj hi
  rw [hrun]
  have hcell : cellOf r.value "orgId" = .ok (.uuid r.orgId) := cell_eq_ok_iff.mpr r.cell_org
  by_cases htext : org.toText = r.orgId.text
  case neg =>
    have hforeign : Vault.ownedRecord "FindConsumerSecretById" secret org (some r.value) =
        .error (Vault.notFound "FindConsumerSecretById" secret org) :=
      Vault.ownedRecord_foreign ⟨_, r.cell_org, fun h => htext h.symm⟩
    rw [if_neg htext, openFound, hforeign]
    rfl
  have howned : Vault.ownedRecord "FindConsumerSecretById" secret org (some r.value) =
      recordOf r.value := by
    have htext : (Value.uuid r.orgId).toText = org.toText := htext.symm
    simp [Vault.ownedRecord, hcell, htext, bind, Except.bind]
  rw [Vault.openRow, Program.ofExcept_bind] at hopen
  rw [openFound, howned] at hserves ⊢
  rw [if_pos htext]
  cases hrecord : recordOf r.value with
  | error e =>
    rw [hrecord] at hopen
    have hfailed : Program.saying [] (.error e) = Program.saying log res := hopen
    exact (Program.saying_inj hfailed).2
  | ok record =>
    rw [hrecord] at hserves hopen
    obtain ⟨octets, p'', hkey, -, hrun⟩ | ⟨hnone, -⟩ := Serves.resolve ho hserves
    case inr => exact absurd hk (hnone _)
    obtain rfl := hkey.unique hk
    rw [Program.done_bind, hrun, show Sealing.decryptRecord _ record = _ from hopen,
      Program.run_saying]

-- ---------------------------------------------------------------------------
-- What is listed is read
-- ---------------------------------------------------------------------------

theorem exists_serves_get {id : Uuid} (root : Bytes) (hid : d.denoted secret = some id)
    (ho : d.denoted org = some u) (events : List PoolEvent) (nonces : Nonces) :
    ∃ script, d.Serves (Vault.get root secret org) ⟨script, events, nonces⟩ := by
  have hfetch : d.HasAnswer (.fetch secret) := ⟨_, _, rfl, id, hid, rfl⟩
  have hkey : d.HasAnswer (.findKey org) := ⟨_, _, rfl, u, ho, rfl⟩
  refine exists_serves ?_ events nonces
  rw [get_eq]
  refine ⟨hfetch, fun found => ?_⟩
  exact Program.Ensures.bind_any (p := .done _) trivial fun record =>
    ((OrgKey.resolve_ensures root hkey).mono (fun _ ha => ha) fun _ _ => trivial).bind_any
      fun key => Vault.decryptRecord_ensures key record

theorem exists_serves_list (root : Bytes) (ho : d.denoted org = some u)
    (hu : d.denoted user = some w) (events : List PoolEvent) (nonces : Nonces) :
    ∃ script, d.Serves (Vault.list root org user) ⟨script, events, nonces⟩ := by
  have hkey : d.HasAnswer (.findKey org) := ⟨_, _, rfl, u, ho, rfl⟩
  have hrows : d.HasAnswer (.fetchFiltered org user true) :=
    ⟨_, _, rfl, u, w, ho, hu, _, .refl _, rfl⟩
  refine exists_serves ?_ events nonces
  rw [Vault.list_eq]
  exact ((OrgKey.resolve_ensures root hkey).mono (fun _ ha => ha) fun _ _ => trivial).bind_any
    fun key => ⟨hrows, fun rows => (Vault.openRows_ensures key rows).bind_any fun _ => trivial⟩

theorem Serves.listed {secrets : List Secret} (ho : d.denoted org = some u)
    (h : d.Serves (Vault.list root org user) p)
    (hok : ((Vault.list root org user).run Postgres.backend p).result = .ok secrets)
    (hm : s ∈ secrets) :
    ∃ key : Key, d.HasKey root u key.bytes ∧ ∃ w, d.denoted user = some w ∧
      ∃ r ∈ d.owned u w true, Vault.openRow key.bytes r.value = .saying [] (.ok s) := by
  obtain ⟨key, hk, w, hw, rows, hperm, log, res, hopen, hresult⟩ | ⟨-, e, he⟩ := h.list ho
  case inr => cases he.symm.trans hok
  obtain rfl : res = .ok secrets := hresult.symm.trans hok
  obtain ⟨opened, hquiet⟩ | ⟨-, -, e, lines, -, hbroken⟩ :=
    Vault.openRows_cases key (rows.map SecretRow.value)
  case inr => cases (Program.saying_inj (hopen.symm.trans hbroken)).2
  obtain ⟨rfl, -⟩ := Program.saying_inj (hopen.symm.trans hquiet)
  obtain ⟨r, hr, hopen⟩ := exists_openRow hopen hm
  exact ⟨key, hk, w, hw, r, hperm.mem_iff.mp hr, hopen⟩

/-- For whatever is in the tables: a secret that is listed for an organization, under whatever
spelling of its id, is a secret of that organization, and can be looked for by its id under every
spelling. Under the canonical text the same secret is read. Under any other it is not found,
although the same spelling may have listed it. -/
theorem listed_secrets_read_under_canonical_text (d : Database) (root : Bytes) (u : Uuid)
    (org user : Value) (p : Pool) (secrets : List Secret) (ho : d.denoted org = some u)
    (hp : d.Serves (Vault.list root org user) p)
    (hok : ((Vault.list root org user).run Postgres.backend p).result = .ok secrets) :
    ∀ s ∈ secrets, s.orgId = u.text ∧ ∀ org', d.denoted org' = some u →
      (∃ p', d.Serves (Vault.get root (.text s.id) org') p') ∧
      ∀ p', d.Serves (Vault.get root (.text s.id) org') p' →
        ((Vault.get root (.text s.id) org').run Postgres.backend p').result =
          if org'.toText = u.text then .ok s
          else .error (Vault.notFound "FindConsumerSecretById" (.text s.id) org') := by
  intro s hm
  obtain ⟨key, hk, w, -, r, hr, hopen⟩ := hp.listed ho hok hm
  obtain ⟨hr, howned⟩ := List.mem_filter.mp hr
  obtain ⟨hid, horg⟩ := ids_of_openRow hopen
  have howner : r.orgId = u := by
    simp only [Bool.and_eq_true, decide_eq_true_eq] at howned
    exact howned.1.1
  have hdenoted : d.denoted (.text s.id) = some r.id := by
    rw [hid]
    exact d.reads_text r.id
  refine ⟨horg.trans (howner ▸ rfl), fun org' ho' => ⟨?_, fun p' hp' => ?_⟩⟩
  · obtain ⟨script, hscript⟩ := exists_serves_get root hdenoted ho' [] (Nonces.counting 0)
    exact ⟨_, hscript⟩
  · rw [hp'.get hr hdenoted ho' hk hopen, howner]

-- ---------------------------------------------------------------------------
-- A table of one secret
-- ---------------------------------------------------------------------------

def added (id : Uuid) (time : Timestamp) : Row :=
  [("id", .uuid id), ("version", .int 1), ("createdAt", .time time), ("updatedAt", .time time)]

theorem completes_added {fields : Assoc Field} (hn : fields.names.Nodup) (org user : Value)
    (id : Uuid) (time : Timestamp) :
    Completes (Vault.newRow org user fields) (Vault.newRow org user fields ++ added id time)
      (.uuid id) := by
  have hnew {name : Text} {v : Value} (hname : name ∈ (added id time).names)
      (hv : (added id time).get? name = some v) :
      (Vault.newRow org user fields ++ added id time).get? name = some v := by
    have habsent : (Vault.newRow org user fields).get? name = none := by
      have hcases : name = "id" ∨ name = "version" ∨ name = "createdAt" ∨ name = "updatedAt" := by
        simpa [added, Assoc.names] using hname
      obtain rfl | rfl | rfl | rfl := hcases
      all_goals exact Vault.get?_newRow_plain hn org user (by decide)
    rw [Assoc.get?_append, habsent, Option.none_or, hv]
  refine ⟨fun name v hv => ?_, hnew ?_ (by rfl), ⟨1, hnew ?_ (by rfl)⟩,
    ⟨_, hnew ?_ (by rfl), time, rfl⟩, ⟨_, hnew ?_ (by rfl), time, rfl⟩⟩
  · rw [Assoc.get?_append, hv, Option.some_or]
  all_goals simp [added, Assoc.names]

theorem exists_secretRow (key : Key) {texts : Attributes Text}
    (h : ∀ a, (texts.get a).IsEncodable) (id user org : Uuid) :
    ∃ r : SecretRow, r.userId = user ∧ r.orgId = org ∧ r.hasData = true ∧
      Vault.openRow key.bytes r.value = .saying [] (.ok ⟨id.text, user.text, org.text, texts⟩) := by
  obtain ⟨fields, -, -, hrel⟩ := Sealing.run_encryptAll_pool key (Attributes.forall_mem_toList h)
    (Pool.start [] (Nonces.counting 0))
  have hn : fields.names.Nodup := by
    rw [hrel.names_eq]
    exact show (Attribute.all.map (·.name)).Nodup by decide
  have hcompletes := completes_added hn (.uuid org) (.uuid user) id ⟨2025, 1, 1, 0, 0, 0, 0, some 0⟩
  have hplain {name : Text} (hp : isPlain name) :=
    Vault.get?_newRow_plain hn (.uuid org) (.uuid user) hp
  let r : SecretRow := ⟨_, id, user, org, hcompletes.id,
    hcompletes.cells _ _ ((hplain (by decide)).trans (by rfl)),
    hcompletes.cells _ _ ((hplain (by decide)).trans (by rfl))⟩
  obtain ⟨record, hrecord, hopen⟩ := Vault.opens_completed hrel hcompletes
  refine ⟨r, rfl, rfl, ?_, ?_⟩
  · obtain ⟨f, hf⟩ : ∃ f, fields.get? Attribute.data.name = some f := by
      have hdata := hrel.get? Attribute.data.name
      rw [Attributes.get?_toList] at hdata
      cases hf : fields.get? Attribute.data.name with
      | none =>
        rw [hf] at hdata
        cases hdata
      | some f => exact ⟨f, rfl⟩
    have hcell : r.cells.get? (column Attribute.data.name .ciphertext) =
        some (.text (f.get .ciphertext)) := by
      refine hcompletes.cells _ _ ?_
      rw [Vault.get?_newRow_column hn, hf]
      rfl
    rw [SecretRow.hasData, hcell]
    rfl
  · rw [Vault.openRow, show recordOf r.value = .ok record from hrecord, Program.ofExcept_bind]
    exact hopen

/-- One secret, and the key of its organization; texts are read in either case and with dashes
anywhere. -/
def ofRow (r : SecretRow) (record : OrgKeyRecord) : Database where
  reads := Uuid.read
  reads_text := Uuid.read_text
  secrets := [r]
  nodup := List.nodup_singleton _
  keys u := if u = r.orgId then some (OrgKey.keyRow record) else none

section Listing

variable {root key : Key} {record : OrgKeyRecord} {r : SecretRow} {s : Secret}

theorem hasKey_ofRow (h : OrgKey.Wraps root key record) :
    (ofRow r record).HasKey root.bytes r.orgId key.bytes := by
  obtain ⟨-, -, -, -, halgorithm⟩ := h.sealed
  exact ⟨_, record, if_pos rfl, OrgKey.keyRecordOf_keyRow _ record, halgorithm, h.unwrap,
    key.length_eq⟩

theorem exists_listing (hkey : (ofRow r record).HasKey root.bytes r.orgId key.bytes)
    (hdata : r.hasData = true) (hopen : Vault.openRow key.bytes r.value = .saying [] (.ok s))
    (ho : (ofRow r record).denoted org = some r.orgId)
    (hu : (ofRow r record).denoted user = some r.userId) :
    ∃ p, (ofRow r record).Serves (Vault.list root.bytes org user) p ∧
      ((Vault.list root.bytes org user).run Postgres.backend p).result = .ok [s] := by
  obtain ⟨script, hserves⟩ := exists_serves_list root.bytes ho hu [] (Nonces.counting 0)
  refine ⟨_, hserves, ?_⟩
  obtain ⟨key', hkey', w, hw, rows, hperm, log, res, hrows, hresult⟩ | ⟨hnone, -⟩ := hserves.list ho
  case inr => exact absurd hkey (hnone _)
  cases hu.symm.trans hw
  have howned : (ofRow r record).owned r.orgId r.userId true = [r] := by
    simp [owned, ofRow, hdata]
  rw [howned, List.perm_singleton] at hperm
  subst hperm
  rw [List.map_singleton, Vault.openRows_cons, hkey'.unique hkey, hopen] at hrows
  have hrows : Program.saying [] (.ok [s]) = Program.saying log res := hrows
  exact hresult.trans (Program.saying_inj hrows).2.symm

end Listing

end Database

namespace Registry

open Database

def org : Uuid := ⟨0xA0EEBC999C0B4EF8BB6D6BB9BD380A11, by decide⟩

def user : Uuid := ⟨1, by decide⟩

def upperCase : Text := "A0EEBC99-9C0B-4EF8-BB6D-6BB9BD380A11"

def listing : Program (List Secret) :=
  Vault.list Cabinet.key.bytes (.text upperCase) (.uuid user)

def reading (secret org : Text) : Program Secret :=
  Vault.get Cabinet.key.bytes (.text secret) (.text org)

theorem exists_listed : ∃ (d : Database) (s : Secret) (p : Pool),
    d.denoted (.text upperCase) = some org ∧ d.Serves listing p ∧
      (listing.run Postgres.backend p).result = .ok [s] ∧
      d.HasKey Cabinet.key.bytes org Cabinet.key.bytes ∧
      ∃ r ∈ d.secrets, r.orgId = org ∧
        Vault.openRow Cabinet.key.bytes r.value = .saying [] (.ok s) := by
  obtain ⟨record, hwraps⟩ := OrgKey.exists_wraps Cabinet.key Cabinet.key
  let texts : Attributes Text := ⟨"t", "SECURE_NOTE", "d", ""⟩
  have htexts : ∀ a, (texts.get a).IsEncodable := by rintro (_ | _ | _ | _) <;> decide
  obtain ⟨r, huser, horg, hdata, hopen⟩ :=
    exists_secretRow Cabinet.key htexts ⟨2, by decide⟩ user org
  have hread : (ofRow r record).denoted (.text upperCase) = some org :=
    show Uuid.read upperCase = some org by decide
  have hmember : (ofRow r record).denoted (.uuid user) = some r.userId := congrArg some huser.symm
  have hkey := hasKey_ofRow (r := r) hwraps
  obtain ⟨p, hserves, hresult⟩ := exists_listing hkey hdata hopen (horg ▸ hread) hmember
  exact ⟨ofRow r record, _, p, hread, hserves, hresult, horg ▸ hkey, r, List.mem_singleton_self r,
    horg, hopen⟩

/-- What is listed under the upper case is read under the canonical text. -/
theorem upperCase_listing_reads_back : ∃ (d : Database) (s : Secret) (p p' : Pool),
    d.denoted (.text upperCase) = some org ∧ d.Serves listing p ∧
      (listing.run Postgres.backend p).result = .ok [s] ∧
      d.Serves (reading s.id org.text) p' ∧
      ((reading s.id org.text).run Postgres.backend p').result = .ok s := by
  obtain ⟨d, s, p, hread, hserves, hresult, -⟩ := exists_listed
  obtain ⟨-, hreads⟩ := listed_secrets_read_under_canonical_text d Cabinet.key.bytes org
    (.text upperCase) (.uuid user) p [s] hread hserves hresult s (List.mem_singleton_self s)
  obtain ⟨⟨p', hp'⟩, hall⟩ := hreads (.text org.text) (d.reads_text org)
  exact ⟨d, s, p, p', hread, hserves, hresult, hp', (hall p' hp').trans (if_pos rfl)⟩

/-- What is listed under the upper case is not found under it. -/
theorem upperCase_listing_is_not_found : ∃ (d : Database) (s : Secret) (p p' : Pool),
    d.denoted (.text upperCase) = some org ∧ d.Serves listing p ∧
      (listing.run Postgres.backend p).result = .ok [s] ∧
      d.Serves (reading s.id upperCase) p' ∧
      ((reading s.id upperCase).run Postgres.backend p').result =
        .error (Vault.notFound "FindConsumerSecretById" (.text s.id) (.text upperCase)) := by
  obtain ⟨d, s, p, hread, hserves, hresult, hkey, r, hr, horg, hopen⟩ := exists_listed
  have hid : d.denoted (.text s.id) = some r.id := by
    rw [(ids_of_openRow hopen).1]
    exact d.reads_text r.id
  obtain ⟨script, hp'⟩ := exists_serves_get Cabinet.key.bytes hid hread [] (Nonces.counting 0)
  refine ⟨d, s, p, _, hread, hserves, hresult, hp', (hp'.get hr hid hread hkey hopen).trans ?_⟩
  rw [horg]
  exact if_neg (by decide)

end Registry

end EnvelopeVault
