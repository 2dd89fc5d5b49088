import Mathlib.Data.List.Forall2
import EnvelopeVault.Proofs.Coupling
import EnvelopeVault.Proofs.Vault

/-!
# Organizations do not see each other

`organizations_isolated`: the calls of an organization end alike, log alike and
count alike on any two stores that differ in the rows and keys of others only,
and they leave the rows of others alone. Two such stores are `Beside` each
other, and every access that a call makes keeps them so.
-/

namespace EnvelopeVault

open Layout

namespace Memory

/-- Whether a row belongs to another organization. A row that says nothing of its owner breaks
every listing, so it is nobody else's. -/
def isForeign (org : Text) (row : Row) : Bool := (row.get? "orgId").any (·.toText != org)

def ownRows (org : Text) (rows : Assoc Row) : Assoc Row :=
  rows.filter fun pair => !isForeign org pair.2

def foreignRows (org : Text) (rows : Assoc Row) : Assoc Row :=
  rows.filter fun pair => isForeign org pair.2

/-- The id of the new row that `k` others come before. -/
def newId (m : Memory) (k : Nat) : Text := (nextId { m with planned := m.planned + k }).toText

structure SameBeyondRows (org : Text) (m m' : Memory) : Prop where
  key : m.keys.get? org = m'.keys.get? org
  plan : m.plan = m'.plan
  planned : m.planned = m'.planned
  nonces : m.nonces = m'.nonces
  lookups : m.lookups = m'.lookups
  writes : m.writes = m'.writes

/-- Rows under distinct ids, in two parts. -/
structure Parted (org : Text) (own others rows : Assoc Row) : Prop where
  own : ownRows org rows = own
  others : foreignRows org rows = others
  nodup : rows.names.Nodup

variable {org id : Text} {own others rows : Assoc Row} {row : Row}

-- ---------------------------------------------------------------------------
-- Rows in two parts
-- ---------------------------------------------------------------------------

theorem isForeign_congr {row' : Row} (h : row'.get? "orgId" = row.get? "orgId") :
    isForeign org row' = isForeign org row := by
  rw [isForeign, isForeign, h]

theorem holds_of_isForeign (h : isForeign org row = true) :
    Holds row "orgId" fun owner => owner.toText ≠ org := by
  rw [isForeign, Option.any_eq_true] at h
  obtain ⟨owner, howner, hne⟩ := h
  exact ⟨owner, howner, bne_iff_ne.mp hne⟩

namespace Parted

theorem get? (h : Parted org own others rows) (id : Text) :
    own.get? id = (rows.get? id).filter fun row => !isForeign org row := by
  rw [← h.own]
  exact Assoc.get?_filter (p := fun row => !isForeign org row) h.nodup

theorem of_get? (h : Parted org own others rows) (hid : own.get? id = some row) :
    rows.get? id = some row ∧ isForeign org row = false := by
  rw [h.get?, Option.filter_eq_some_iff] at hid
  simpa using hid

theorem put (h : Parted org own others rows)
    (hid : ∀ found, rows.get? id = some found → isForeign org found = false)
    (hrow : isForeign org row = false) :
    Parted org (own.put id row) others (rows.put id row) where
  own := by
    rw [← h.own]
    exact Assoc.filter_put (p := fun row => !isForeign org row) (by simpa using hid)
      (by simpa using hrow)
  others := by
    rw [← h.others]
    exact Assoc.filter_put_of_not hid hrow
  nodup := Assoc.nodup_put h.nodup

theorem not_isForeign (h : Parted org own others rows) (hid : id ∉ others.names)
    (hrow : rows.get? id = some row) : isForeign org row = false := by
  cases hf : isForeign org row with
  | false => rfl
  | true =>
    refine absurd (List.mem_map.mpr ⟨(id, row), ?_, rfl⟩) hid
    rw [← h.others]
    exact List.mem_filter.mpr ⟨Assoc.mem_of_get? hrow, hf⟩

end Parted

-- ---------------------------------------------------------------------------
-- What an organization is shown
-- ---------------------------------------------------------------------------

theorem isSelected_foreign (h : isForeign org row = true) (user : Text) (requireData : Bool) :
    isSelected org user requireData row = .ok false := by
  obtain ⟨owner, howner, hne⟩ := holds_of_isForeign h
  have hcell : cell row "orgId" = .ok owner := cell_eq_ok_iff.mpr howner
  simp [isSelected, isOwnedBy, hcell, hne, bind, Except.bind, pure, Except.pure]

theorem select_own (org user : Text) (requireData : Bool) (rows : List Row) :
    select org user requireData rows =
      select org user requireData (rows.filter fun row => !isForeign org row) := by
  induction rows with
  | nil => rfl
  | cons row rows ih =>
    cases hf : isForeign org row with
    | true =>
      rw [select, isSelected_foreign hf, List.filter_cons_of_neg (by simp [hf]), ← ih]
      cases select org user requireData rows <;> rfl
    | false => rw [List.filter_cons_of_pos (by simp [hf]), select, select, ih]

theorem Parted.select_eq (h : Parted org own others rows) (user : Text) (requireData : Bool) :
    select org user requireData (rows.map (·.2)) =
      select org user requireData (own.map (·.2)) := by
  rw [select_own, List.filter_map, ← h.own]
  rfl

/-- What an organization may read of a row under an id is what is read of its own one. -/
theorem Parted.ownedRecord_eq (h : Parted org own others rows) (operation secret : Text) :
    Vault.ownedRecord operation (.text secret) (.text org) ((rows.get? secret).map .map) =
      Vault.ownedRecord operation (.text secret) (.text org) ((own.get? secret).map .map) := by
  rw [h.get?]
  cases rows.get? secret with
  | none => rfl
  | some row =>
    cases hf : isForeign org row with
    | false => simp [Option.filter, hf]
    | true =>
      have howner : Holds row "orgId" fun owner => owner.toText ≠ Value.toText (.text org) :=
        holds_of_isForeign hf
      rw [Option.map_some, Vault.ownedRecord_foreign howner]
      simp [Option.filter, hf, Vault.ownedRecord]

-- ---------------------------------------------------------------------------
-- Updates
-- ---------------------------------------------------------------------------

/-- What an update answers and what it makes of a row depends on the row alone. -/
theorem exists_answer_update {fields : Assoc Field} (hf : fields.names.Nodup) (secret : Value)
    (row : Row) (expected : Option Value) :
    ∃ result row', row'.get? "orgId" = row.get? "orgId" ∧
      ∀ m : Memory, m.rows.get? secret.toText = some row →
        answer (.update secret (columnsOf fields) expected) m =
          (result, { m.counted with rows := m.rows.put secret.toText row' }) := by
  have howner : (row.putAll (columnsOf fields)).get? "orgId" = row.get? "orgId" :=
    get?_putColumns_plain hf (by decide) row
  cases he : isExpected row expected with
  | false =>
    refine ⟨.ok none, row, rfl, fun m hm => ?_⟩
    rw [Assoc.put_get? hm]
    simp [answer, updateRow, counted, hm, he, Except.map]
  | true =>
    cases hv : (cell (row.putAll (columnsOf fields)) "version").bind nextVersion with
    | error e =>
      refine ⟨.error e, _, howner, fun m hm => ?_⟩
      simp [answer, updateRow, counted, hm, he, hv, Except.map]
    | ok version =>
      refine ⟨.ok (some (.map ((row.putAll (columnsOf fields)).put "version" version))),
        (row.putAll (columnsOf fields)).put "version" version, ?_, fun m hm => ?_⟩
      · rw [Assoc.get?_put, if_neg (by decide), howner]
      · simp [answer, updateRow, counted, hm, he, hv, Except.map]

-- ---------------------------------------------------------------------------
-- Two stores beside each other
-- ---------------------------------------------------------------------------

/-- Two stores of which an organization sees the same, its own rows. The next `n` new ids are
those of no foreign row. -/
structure Beside (org : Text) (others others' : Assoc Row) (n : Nat) (own : Assoc Row)
    (m m' : Memory) : Prop extends SameBeyondRows org m m' where
  left : Parted org own others m.rows
  right : Parted org own others' m'.rows
  fresh : ∀ k < n, m.newId k ∉ others.names ∧ m.newId k ∉ others'.names

/-- Two stores that are beside each other, whatever the organization's own rows are by now. -/
def Aside (org : Text) (others others' : Assoc Row) (n : Nat) (m m' : Memory) : Prop :=
  ∃ own, Beside org others others' n own m m'

/-- What was found under an id tells the organization what its own rows tell. -/
structure Reveals (org : Text) (own : Assoc Row) (secret : Text) (found : Option Value) :
    Prop where
  owned : ∀ operation, Vault.ownedRecord operation (.text secret) (.text org) found =
    Vault.ownedRecord operation (.text secret) (.text org) ((own.get? secret).map .map)
  present : ∀ row, own.get? secret = some row → found = some (.map row)

def IsOwnRead (org : Text) (a : Access) : Prop :=
  a = .findKey (.text org) ∨ ∃ user, a = .fetchFiltered (.text org) (.text user) true

theorem Parted.reveals (h : Parted org own others rows) (secret : Text) :
    Reveals org own secret ((rows.get? secret).map .map) where
  owned operation := h.ownedRecord_eq operation secret
  present row hrow := by rw [(h.of_get? hrow).1, Option.map_some]

namespace Beside

open Program

variable {others' : Assoc Row} {n n' : Nat} {m m' : Memory} {root : Bytes} {secret user : Text}

theorem aside_of_le (hn : n ≤ n') (h : Beside org others others' n' own m m') :
    Aside org others others' n m m' :=
  ⟨own, { h with fresh := fun k hk => h.fresh k (Nat.lt_of_lt_of_le hk hn) }⟩

theorem aside (h : Beside org others others' n own m m') : Aside org others others' n m m' :=
  ⟨own, h⟩

theorem put (h : Beside org others others' n own m m')
    (hl : ∀ found, m.rows.get? id = some found → isForeign org found = false)
    (hr : ∀ found, m'.rows.get? id = some found → isForeign org found = false)
    (hrow : isForeign org row = false) :
    Beside org others others' n (own.put id row) { m.counted with rows := m.rows.put id row }
      { m'.counted with rows := m'.rows.put id row } :=
  { h with
    left := h.left.put hl hrow
    right := h.right.put hr hrow
    writes := congrArg (· + 1) h.writes }

theorem plan_next (h : Beside org others others' (n + 1) own m m') :
    Beside org others others' n own { m with planned := m.planned + 1 }
      { m' with planned := m'.planned + 1 } :=
  { h with
    planned := congrArg (· + 1) h.planned
    fresh := fun k hk => by
      have hf := h.fresh (k + 1) (by omega)
      rwa [newId, show m.planned + (k + 1) = m.planned + 1 + k by omega] at hf }

theorem drawsAlike :
    DrawsAlike (Beside org others others' n own) (Beside org others others' n own) := by
  intro m m' h
  exact ⟨congrArg (·.next.1) h.nonces, { h with nonces := congrArg (·.next.2) h.nonces }⟩

-- ---------------------------------------------------------------------------
-- Accesses
-- ---------------------------------------------------------------------------

theorem couples_ownRead {a : Access} (ha : IsOwnRead org a) :
    Couples (Beside org others others' n own) (.call a) (.call a)
      (fun x y m m' => x = y ∧ Beside org others others' n own m m')
      (Beside org others others' n own) := by
  rcases ha with rfl | ⟨user, rfl⟩
  · refine .call fun m m' h => ⟨_, _, _, _, rfl, rfl, h.key, ?_⟩
    exact { h with lookups := congrArg (· + 1) h.lookups }
  · intro m m' h
    rw [run_call, run_call, answer_fetchFiltered, answer_fetchFiltered, h.left.select_eq,
      h.right.select_eq]
    cases select org user true (own.map (·.2)) with
    | error e => exact .error e [] h
    | ok rows => exact .ok [] ⟨rfl, h⟩

theorem couples_refl {p : Program α} {G : Except Failure α → Prop} (hn : n ≤ n')
    (hp : p.Ensures (IsOwnRead org) G) :
    Couples (Beside org others others' n' own) p p
      (fun a b m m' => a = b ∧ G (.ok a) ∧ Beside org others others' n' own m m')
      (Aside org others others' n) :=
  (Couples.refl hp drawsAlike fun _ => couples_ownRead).mono (fun _ _ h => h)
    (fun _ _ _ _ h => h) fun _ _ => aside_of_le hn

theorem couples_fetch :
    Couples (Beside org others others' n own) (.call (.fetch (.text secret)))
      (.call (.fetch (.text secret)))
      (fun x y m m' => Reveals org own secret x ∧ Reveals org own secret y ∧
        Beside org others others' n own m m')
      (Aside org others others' n) :=
  .call fun _ _ h => ⟨_, _, _, _, rfl, rfl, h.left.reveals secret, h.right.reveals secret, h⟩

theorem couples_insert {fields : Assoc Field} (hf : fields.names.Nodup) :
    let insert := Program.call (.insert (Vault.newRow (.text org) (.text user) fields))
    Couples (Beside org others others' (n + 1) own) insert insert
      (fun x y m m' => x = y ∧ Aside org others others' n m m') (Aside org others others' n) := by
  have hid := Vault.get?_newRow_plain hf (.text org) (.text user) (show isPlain "id" by decide)
  refine .call fun m m' h => ⟨_, _, _, _, answer_insert hid, answer_insert hid, ?_⟩
  have hnext : m.nextId = m'.nextId := by rw [nextId, nextId, h.plan, h.planned]
  have howner : (insertedRow m.nextId (Vault.newRow (.text org) (.text user) fields)).get?
      "orgId" = some (.text org) := Vault.get?_inserted_plain hf _ _ _ (by decide) (by decide)
  have hown : isForeign org (insertedRow m.nextId
      (Vault.newRow (.text org) (.text user) fields)) = false := by
    simp [isForeign, howner, Value.toText]
  obtain ⟨hl, hr⟩ := h.fresh 0 (by omega)
  rw [← hnext]
  refine ⟨rfl, _, (h.plan_next.put (fun _ => ?_) (fun _ => ?_) hown)⟩
  · exact h.left.not_isForeign hl
  · exact h.right.not_isForeign hr

theorem couples_updateRow {fields : Assoc Field} (hf : fields.names.Nodup)
    (hrow : own.get? secret = some row) (expected : Option Value) :
    let update := Program.call (.update (.text secret) (columnsOf fields) expected)
    ∃ row', Couples (Beside org others others' n own) update update
      (fun x y m m' => x = y ∧ Beside org others others' n (own.put secret row') m m')
      (Aside org others others' n) := by
  obtain ⟨result, row', howner, hanswer⟩ := exists_answer_update hf (.text secret) row expected
  refine ⟨row', ?_⟩
  intro m m' h
  obtain ⟨hl, hown⟩ := h.left.of_get? hrow
  obtain ⟨hr, -⟩ := h.right.of_get? hrow
  have hput : Beside org others others' n (own.put secret row') _ _ :=
    h.put (fun found hfound => Option.some.inj (hl.symm.trans hfound) ▸ hown)
      (fun found hfound => Option.some.inj (hr.symm.trans hfound) ▸ hown)
      ((isForeign_congr howner).trans hown)
  rw [run_call, run_call, hanswer m hl, hanswer m' hr]
  cases result with
  | error e => exact .error e [] hput.aside
  | ok answer => exact .ok [] ⟨rfl, hput⟩

end Beside

-- ---------------------------------------------------------------------------
-- Calls
-- ---------------------------------------------------------------------------

section Calls

open Program

variable {others' : Assoc Row} {n n' : Nat} {root : Bytes} {secret user : Text} {α : Type}

def CouplesAside (org : Text) (others others' : Assoc Row) (n : Nat)
    (R : Memory → Memory → Prop) (p : Program α) : Prop :=
  Couples R p p (fun a b m m' => a = b ∧ Aside org others others' n m m')
    (Aside org others others' n)

theorem CouplesAside.of_ensures {p : Program α} {G : Except Failure α → Prop}
    (hp : p.Ensures (IsOwnRead org) G) :
    CouplesAside org others others' n (Aside org others others' n) p := by
  rintro m m' ⟨own, h⟩
  have hrefl : Couples (Beside org others others' n own) p p _ (Aside org others others' n) :=
    Beside.couples_refl (Nat.le_refl n) hp
  exact hrefl.mono (fun _ _ h => h) (fun _ _ _ _ h => ⟨h.1, h.2.2.aside⟩) (fun _ _ h => h) m m' h

theorem CouplesAside.beside {p : Program α} (h : CouplesAside org others others' n
    (Aside org others others' n) p) :
    CouplesAside org others others' n (Beside org others others' n own) p :=
  fun m m' hm => h m m' hm.aside

theorem CouplesAside.of_beside {p : Program α}
    (h : ∀ own, CouplesAside org others others' n (Beside org others others' n' own) p) :
    CouplesAside org others others' n (Aside org others others' n') p := by
  rintro m m' ⟨own, hm⟩
  exact h own m m' hm

theorem CouplesAside.map {β : Type} {p : Program α} {R : Memory → Memory → Prop}
    (h : CouplesAside org others others' n R p) (f : α → β) :
    CouplesAside org others others' n R (p.bind fun a => .done (.ok (f a))) := by
  refine Couples.map h fun a b m m' => ?_
  rintro ⟨rfl, hm⟩
  exact ⟨rfl, hm⟩

theorem resolve_ensures_own {f : Bytes → Program α}
    (hf : ∀ key, (f key).Ensures (IsOwnRead org) fun _ => True) (root : Bytes) :
    ((OrgKey.resolve root (.text org)).bind f).Ensures (IsOwnRead org) fun _ => True :=
  (OrgKey.resolve_ensures root (.inl rfl)).bind (fun _ _ => trivial) fun key _ => hf key

theorem get_aside (root : Bytes) (secret : Text) :
    CouplesAside org others others' n (Beside org others others' n own)
      (Vault.get root (.text secret) (.text org)) := by
  rw [Vault.get, Vault.fetchOwned_eq]
  refine Beside.couples_fetch.access fun x y => .assume fun hx => .assume fun hy => ?_
  simp only [hx.owned, hy.owned]
  cases Vault.ownedRecord "FindConsumerSecretById" (.text secret) (.text org)
      ((own.get? secret).map .map) with
  | error e => exact .done_error fun _ _ => Beside.aside
  | ok record =>
    exact (CouplesAside.of_ensures (resolve_ensures_own
      (fun key => Vault.decryptRecord_ensures key record) root)).beside

theorem list_aside (root : Bytes) (user : Text) :
    CouplesAside org others others' n (Aside org others others' n)
      (Vault.list root (.text org) (.text user)) := by
  rw [Vault.list, Program.bind_eq]
  refine .of_ensures (resolve_ensures_own (fun key => ?_) root)
  refine ⟨.inr ⟨user, rfl⟩, fun rows => ?_⟩
  exact (Vault.openRows_ensures key rows).bind_any fun secrets => trivial

theorem writeChanges_aside (root : Bytes) (changes : Changes)
    (hrow : own.get? secret = some row) (expected : Option Value) :
    CouplesAside org others others' n (Beside org others others' n own)
      (Vault.writeChanges root (.text secret) changes (.text org) expected) := by
  rw [Vault.writeChanges_eq]
  refine (Beside.couples_refl (Nat.le_refl n)
    (Vault.sealChanges_ensures root changes (.inl rfl))).bind fun fields fields' => .assume ?_
  rintro rfl
  refine .assume fun hf => ?_
  obtain ⟨row', hupdate⟩ := Beside.couples_updateRow hf hrow expected
  refine hupdate.access fun x y => .assume ?_
  rintro rfl
  cases x with
  | none =>
    -- the row that was written to is there in both stores, so both see the same reason
    rw [Vault.conclude, Vault.refused_eq]
    refine Beside.couples_fetch.access fun x y => .assume fun hx => .assume fun hy => ?_
    have hnew : (own.put secret row').get? secret = some row' := by simp [Assoc.get?_put]
    rw [hx.present row' hnew, hy.present row' hnew]
    exact .done_error fun _ _ => Beside.aside
  | some found =>
    have hend : (Vault.conclude (.text secret) (.text org) expected fields (some found)).Ensures
      (IsOwnRead org) fun _ => True := trivial
    exact (CouplesAside.of_ensures hend).beside

theorem update_aside (root : Bytes) (secret : Text) (changes : Changes)
    (expected : Option Value) :
    CouplesAside org others others' n (Beside org others others' n own)
      (Vault.update root (.text secret) changes (.text org) expected) := by
  cases hp : changes.provided.isEmpty with
  | true =>
    rw [Vault.update, if_pos hp]
    exact .done_error fun _ _ => Beside.aside
  | false =>
    rw [Vault.update_eq hp]
    refine Beside.couples_fetch.access fun x y => .assume fun hx => .assume fun hy => ?_
    simp only [Vault.proceed, Vault.admits, hx.owned, hy.owned]
    cases hrow : own.get? secret with
    | none => exact .done_error fun _ _ => Beside.aside
    | some row =>
      split
      · exact .done_error fun _ _ => Beside.aside
      · exact writeChanges_aside root changes hrow expected

theorem create_aside (root : Bytes) (draft : Draft) (user : Text) :
    CouplesAside org others others' n (Beside org others others' (n + 1) own)
      (Vault.create root draft (.text org) (.text user)) := by
  refine (Beside.couples_refl (Nat.le_succ n) (OrgKey.resolve_ensures root (.inl rfl))).bind
    fun key key' => .assume ?_
  rintro rfl
  refine .assume fun _ => ?_
  refine (Beside.couples_refl (Nat.le_succ n) (Sealing.encryptAll_ensures key _)).bind
    fun fields fields' => .assume ?_
  rintro rfl
  refine .assume fun hnames => ?_
  have hf : (Assoc.names fields).Nodup := by
    rw [show Assoc.names fields = _ from hnames, Vault.names_texts]
    decide
  refine (Beside.couples_insert hf).access fun created created' => .assume ?_
  rintro rfl
  exact CouplesAside.of_ensures (Program.Ensures.ofExcept_bind fun created =>
    Program.Ensures.ofExcept_bind fun _ => trivial)

end Calls
end Memory

-- ---------------------------------------------------------------------------
-- Sequences of calls
-- ---------------------------------------------------------------------------

/-- A delete names no organization, so it is nobody's. -/
def Call.IsBy (org : Text) : Call → Prop
  | .create _ owner _ | .get _ owner | .list owner _ | .update _ _ owner _ => owner = org
  | .delete _ => False

def Call.isCreate : Call → Bool
  | .create .. => true
  | _ => false

open Memory

variable {org : Text} {others others' : Assoc Row} {m m' : Memory}

theorem Call.program_aside {call : Call} (root : Bytes) (hc : call.IsBy org) (n : Nat) :
    CouplesAside org others others' n
      (Aside org others others' (n + if call.isCreate then 1 else 0)) (call.program root) := by
  cases call with
  | create draft owner user =>
    cases hc
    exact (CouplesAside.of_beside fun own => create_aside root draft user).map Reply.id
  | get secret owner =>
    cases hc
    exact (CouplesAside.of_beside fun own => get_aside root secret).map Reply.secret
  | list owner user =>
    cases hc
    exact (list_aside root user).map Reply.secrets
  | update secret changes owner expected =>
    cases hc
    exact (CouplesAside.of_beside fun own => update_aside root secret changes _).map Reply.id
  | delete secret => cases hc

theorem Memory.Aside.run {calls : List Call} (root : Bytes)
    (hcalls : ∀ call ∈ calls, call.IsBy org)
    (h : Aside org others others' (calls.countP Call.isCreate) m m') :
    List.Forall₂
      (fun o o' => o.result = o'.result ∧ o.log = o'.log ∧
        Aside org others others' 0 o.state o'.state)
      (Call.outcomes root calls m) (Call.outcomes root calls m') := by
  induction calls generalizing m m' with
  | nil => exact .nil
  | cons call calls ih =>
    obtain ⟨hcall, hrest⟩ := List.forall_mem_cons.mp hcalls
    rw [List.countP_cons] at h
    have hstep := Call.program_aside root hcall _ m m' h
    rw [Call.outcomes, Call.outcomes]
    generalize (call.program root).run backend m = o at hstep ⊢
    generalize (call.program root).run backend m' = o' at hstep ⊢
    cases hstep with
    | ok log hs =>
      obtain ⟨rfl, own, hs⟩ := hs
      exact .cons ⟨rfl, rfl, hs.aside_of_le (Nat.zero_le _)⟩ (ih hrest hs.aside)
    | error e log hs =>
      obtain ⟨own, hs⟩ := hs
      exact .cons ⟨rfl, rfl, hs.aside_of_le (Nat.zero_le _)⟩ (ih hrest hs.aside)

/-- Take two stores with the same rows of an organization, in the same order, and the same key
record of it, where all rows and keys of others may differ. Any calls of the organization, one
after the other, end in both with the same values and failures, after the same lines, key lookups
and writes; they leave the same rows of the organization and the rows of others as they were.
So what others have, down to its existence, cannot be told. Ids are texts in calls, and texts or
UUIDs in rows: a number of too many digits (`Value.isWritable`) is no id. -/
theorem organizations_isolated (root : Bytes) (org : Text) (m m' : Memory)
    (hids : m.rows.names.Nodup) (hids' : m'.rows.names.Nodup)
    (hown : ownRows org m.rows = ownRows org m'.rows) (hbeyond : m.SameBeyondRows org m')
    (calls : List Call) (hcalls : ∀ call ∈ calls, call.IsBy org)
    (hnew : ∀ k < calls.countP Call.isCreate,
      m.newId k ∉ (foreignRows org m.rows).names ∧
        m.newId k ∉ (foreignRows org m'.rows).names) :
    List.Forall₂
      (fun o o' => o.result = o'.result ∧ o.log = o'.log ∧
        o.state.SameBeyondRows org o'.state ∧
        ownRows org o.state.rows = ownRows org o'.state.rows ∧
        foreignRows org o.state.rows = foreignRows org m.rows ∧
        foreignRows org o'.state.rows = foreignRows org m'.rows)
      (Call.outcomes root calls m) (Call.outcomes root calls m') := by
  have h : Beside org (foreignRows org m.rows) (foreignRows org m'.rows)
      (calls.countP Call.isCreate) (ownRows org m.rows) m m' :=
    { hbeyond with left := ⟨rfl, rfl, hids⟩, right := ⟨hown.symm, rfl, hids'⟩, fresh := hnew }
  refine (h.aside.run root hcalls).imp fun o o' => ?_
  rintro ⟨hresult, hlog, own, hs⟩
  exact ⟨hresult, hlog, hs.toSameBeyondRows, hs.left.own.trans hs.right.own.symm, hs.left.others,
    hs.right.others⟩

namespace Neighbours

def own : Assoc Row := [("s0", Assoc.putAll Memory.blankRow
  [("id", .text "s0"), ("userId", .text "u"), ("orgId", .text "o")])]

def foreign : Assoc Row := [("s9", [("orgId", .text "p"), ("titleIV", .int 0)])]

def store (rows : Assoc Row) : Memory :=
  { Memory.empty [.text "s1"] (Nonces.counting 0) with rows }

def calls : List Call :=
  [.get "s9" "o", .update "s9" ⟨some "t", none, none, none⟩ "o" none, .get "s0" "o",
    .list "o" "u", .create ⟨"t", "t", "d", none⟩ "o" "u"]

end Neighbours

/-- The hypotheses hold of a store with a broken row of another organization, and of the same
store without it. -/
theorem neighbours_isolated :
    List.Forall₂ (fun o o' => o.result = o'.result ∧ o.log = o'.log)
      (Call.outcomes [] Neighbours.calls (Neighbours.store (Neighbours.foreign ++ Neighbours.own)))
      (Call.outcomes [] Neighbours.calls (Neighbours.store Neighbours.own)) := by
  refine (organizations_isolated [] "o" (Neighbours.store (Neighbours.foreign ++ Neighbours.own))
    (Neighbours.store Neighbours.own) (by decide) (by decide) rfl ⟨rfl, rfl, rfl, rfl, rfl, rfl⟩
    Neighbours.calls ?_ (by decide)).imp fun o o' h => ⟨h.1, h.2.1⟩
  simp [Neighbours.calls, Call.IsBy]

end EnvelopeVault
