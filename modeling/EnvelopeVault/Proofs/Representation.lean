import EnvelopeVault.Proofs.PlainStore
import EnvelopeVault.Proofs.Rewriting

/-!
# Rows that stand for plain entries

Rows and entries are tied by `Represents`: the row reads as a record whose
fields are the texts of the entry, encrypted under the key of the owner. An
updated row stands for the changed entry, an inserted one for four texts at
version 1, and the rows that the store lists stand for the entries that are
listed and are opened to their secrets.
-/

namespace EnvelopeVault

open FieldCipher Layout

-- ---------------------------------------------------------------------------
-- Results
-- ---------------------------------------------------------------------------

/-- The same value, or a failure for the same reason. -/
inductive Agrees {α : Type} : Except Failure α → Except Reason α → Prop
  | ok (a : α) : Agrees (.ok a) (.ok a)
  | error {e : Failure} {k : Reason} (h : e.reason? = some k) : Agrees (.error e) (.error k)

-- ---------------------------------------------------------------------------
-- Rows and entries
-- ---------------------------------------------------------------------------

namespace Attributes

variable {α : Type} {r : Attributes (Option α)}

theorem complete?_eq_some_iff {s : Attributes α} :
    r.complete? = some s ↔ ∀ a, r.get a = some (s.get a) := by
  obtain ⟨title, type, data, comment⟩ := r
  obtain ⟨title', type', data', comment'⟩ := s
  simp only [complete?, bind, Option.bind_eq_some_iff, pure, Option.some.injEq, mk.injEq]
  constructor
  · rintro ⟨_, rfl, _, rfl, _, rfl, _, rfl, rfl, rfl, rfl, rfl⟩ (_ | _ | _ | _) <;> rfl
  · intro h
    exact ⟨_, h .title, _, h .type, _, h .data, _, h .comment, rfl, rfl, rfl, rfl⟩

theorem exists_of_complete?_eq_none (h : r.complete? = none) : ∃ a, r.get a = none := by
  obtain ⟨title, type, data, comment⟩ := r
  obtain _ | title := title
  · exact ⟨.title, rfl⟩
  obtain _ | type := type
  · exact ⟨.type, rfl⟩
  obtain _ | data := data
  · exact ⟨.data, rfl⟩
  obtain _ | comment := comment
  · exact ⟨.comment, rfl⟩
  cases h

end Attributes

structure SecretRecord.Conceals (key : Key) (r : SecretRecord) (id : Text) (e : PlainEntry) :
    Prop where
  id : r.id = id
  user : r.userId = e.user
  org : r.orgId = e.org
  algorithm : r.algorithm = aes256Gcm
  fields : ∀ a, (r.fields.get a).Rel (Seals key) (e.texts.get a)

/-- A row of an entry: it can be read, at the version of the entry and with its texts under the
key of its owner. -/
structure Represents (keyOf : Text → Key) (id : Text) (row : Row) (e : PlainEntry) : Prop where
  version : Holds row "version" (· = .int e.version)
  record : ∃ r, Reads row r ∧ r.Conceals (keyOf e.org) id e

def Decrypts (keyOf : Text → Key) (id : Text) (row : Row) (e : PlainEntry) : Prop :=
  ∃ r, recordOf (.map row) = .ok r ∧ r.id = id ∧ r.userId = e.user ∧ r.orgId = e.org ∧
    r.version = e.version ∧ ∀ a,
      match e.texts.get a with
      | none => r.fields.get a = none
      | some t => Sealing.openAttribute (keyOf e.org).bytes r a = .ok t

namespace SecretRecord.Conceals

variable {key : Key} {r : SecretRecord} {id : Text} {e : PlainEntry}

theorem openAttribute (h : r.Conceals key id e) (ht : e.texts.get a = some t) :
    Sealing.openAttribute key.bytes r a = .ok t := by
  have hf := h.fields a
  rw [ht] at hf
  cases hr : r.fields.get a with
  | none =>
    rw [hr] at hf
    cases hf
  | some f =>
    rw [hr] at hf
    cases hf with
    | some hf => rw [Sealing.openAttribute, hr, ← seals_iff_decrypt.mp hf]

theorem field_eq_none (h : r.Conceals key id e) (ht : e.texts.get a = none) :
    r.fields.get a = none := by
  have hf := h.fields a
  rw [ht] at hf
  cases hr : r.fields.get a with
  | none => rfl
  | some f =>
    rw [hr] at hf
    cases hf

theorem settle_decryptRecord (h : r.Conceals key id e) (keys : Assoc OrgKeyRecord) (n : Nonces) :
    ∃ result, (Sealing.decryptRecord key.bytes r).settle keys n = some (result, n) ∧
      Agrees result (e.secret id) := by
  rw [PlainEntry.secret]
  cases hc : e.texts.complete? with
  | some texts =>
    have hopen a := h.openAttribute (Attributes.complete?_eq_some_iff.mp hc a)
    rw [Sealing.decryptRecord_ok h.algorithm hopen, h.id, h.user, h.org]
    exact ⟨_, rfl, .ok _⟩
  | none =>
    obtain ⟨missing, hm⟩ := Attributes.exists_of_complete?_eq_none hc
    have hopen (a : Attribute) :
        r.fields.get a = none ∨ ∃ t, Sealing.openAttribute key.bytes r a = .ok t := by
      cases ht : e.texts.get a with
      | none => exact .inl (h.field_eq_none ht)
      | some t => exact .inr ⟨t, h.openAttribute ht⟩
    obtain ⟨e', he, hk⟩ :=
      Sealing.exists_settle_decryptRecord h.algorithm hopen (h.field_eq_none hm)
    exact ⟨_, he, .error (Failure.reason?_eq_vault_iff.mpr hk)⟩

end SecretRecord.Conceals

namespace Represents

variable {keyOf : Text → Key} {id : Text} {row : Row} {e : PlainEntry}

theorem decrypts (h : Represents keyOf id row e) : Decrypts keyOf id row e := by
  obtain ⟨r, hr, hc⟩ := h.record
  refine ⟨r, recordOf_eq_ok_iff.mpr hr, hc.id, hc.user, hc.org, hr.version_eq h.version, ?_⟩
  intro a
  cases ht : e.texts.get a with
  | none => exact hc.field_eq_none ht
  | some t => exact hc.openAttribute ht

theorem holds_id (h : Represents keyOf id row e) : Holds row "id" fun v => v.toText = id := by
  obtain ⟨r, hr, hc⟩ := h.record
  exact hc.id ▸ hr.id

theorem holds_org (h : Represents keyOf id row e) :
    Holds row "orgId" fun v => v.toText = e.org := by
  obtain ⟨r, hr, hc⟩ := h.record
  exact hc.org ▸ hr.org

theorem holds_user (h : Represents keyOf id row e) :
    Holds row "userId" fun v => v.toText = e.user := by
  obtain ⟨r, hr, hc⟩ := h.record
  exact hc.user ▸ hr.user

theorem holds_part (h : Represents keyOf id row e) (a : Attribute) (part : Part) :
    Holds row (column a.name part) fun v => v.isNull = (e.texts.get a).isNone := by
  obtain ⟨r, hr, hc⟩ := h.record
  obtain ⟨parts, hparts, hread⟩ := hr.fields a
  refine ⟨parts.get part, hparts part, ?_⟩
  have hf := hc.fields a
  generalize r.fields.get a = field? at hf hread
  generalize e.texts.get a = t? at hf ⊢
  cases hf with
  | none => exact hread part
  | some _ => exact hread.1 part

theorem isSelected (h : Represents keyOf id row e) (org user : Text) :
    Memory.isSelected org user true row = .ok (e.isListed org user) := by
  obtain ⟨owner, howner, ho⟩ := h.holds_org
  obtain ⟨member, hmember, hu⟩ := h.holds_user
  obtain ⟨data, hdata, hd⟩ := h.holds_part .data .ciphertext
  have hd : data.isNull = e.texts.data.isNone := hd
  have ho' : cell row "orgId" = .ok owner := cell_eq_ok_iff.mpr howner
  have hu' : cell row "userId" = .ok member := cell_eq_ok_iff.mpr hmember
  have hd' : cell row (column Attribute.data.name .ciphertext) = .ok data :=
    cell_eq_ok_iff.mpr hdata
  by_cases h1 : e.org = org
  · by_cases h2 : e.user = user
    · simp [Memory.isSelected, Memory.isOwnedBy, Memory.hasData, PlainEntry.isListed, bind, pure,
        Except.bind, Except.pure, ho', hu', hd', ho, hu, hd, h1, h2]
    · simp [Memory.isSelected, Memory.isOwnedBy, PlainEntry.isListed, bind, pure,
        Except.bind, Except.pure, ho', hu', ho, hu, h1, h2]
  · simp [Memory.isSelected, Memory.isOwnedBy, PlainEntry.isListed, bind, pure,
      Except.bind, Except.pure, ho', ho, h1]

variable {fields : Assoc Field}

/-- An update of a row is a change of its entry. -/
theorem overlay {changes : Changes} (h : Represents keyOf id row e)
    (hrel : Assoc.Rel (fun _ => Seals (keyOf e.org)) fields changes.provided) :
    Represents keyOf id (overlay row fields (e.version + 1)) (e.change changes) := by
  have hn : fields.names.Nodup := hrel.names_eq ▸ changes.nodup_provided
  obtain ⟨r, hr, hc⟩ := h.record
  refine ⟨overlay_version .., _,
    hr.rewritten (rewrites_overlay hn row _) (overlay_version ..).integer, ?_⟩
  refine ⟨hc.id, hc.user, hc.org, hc.algorithm, fun a => ?_⟩
  have hnew := hrel.get? a.name
  have hold := hc.fields a
  rw [Changes.get?_provided] at hnew
  simp only [PlainEntry.change, SecretRecord.rewritten, Attributes.get_ofFn]
  generalize Assoc.get? fields a.name = field? at hnew ⊢
  generalize changes.get a = t? at hnew ⊢
  cases hnew with
  | none => exact hold
  | some hnew => exact .some hnew

theorem inserted {texts : Attributes Text}
    (hrel : Assoc.Rel (fun _ => Seals (keyOf org)) fields texts.toList) (user : Text) (id : Value) :
    Represents keyOf id.toText
      (Memory.insertedRow id (Vault.newRow (.text org) (.text user) fields))
      ⟨org, user, 1, .ofFn fun a => some (texts.get a)⟩ := by
  have hn : fields.names.Nodup := by
    rw [hrel.names_eq]
    exact show (Attribute.all.map (·.name)).Nodup by decide
  have hfield (a : Attribute) :
      ∃ f, fields.get? a.name = some f ∧ Seals (keyOf org) f (texts.get a) := by
    have h := hrel.get? a.name
    rw [Attributes.get?_toList] at h
    generalize fields.get? a.name = field? at h ⊢
    cases h with
    | some h => exact ⟨_, rfl, h⟩
  have hr := Vault.reads_inserted hn (.text org) (.text user)
    (fun a => (hfield a).imp fun _ h => h.1) id
  have hversion : Holds (Memory.insertedRow id (Vault.newRow (.text org) (.text user) fields))
      "version" (· = .int 1) :=
    ⟨_, Vault.get?_inserted_plain hn _ _ id (by decide) (by decide), rfl⟩
  refine ⟨hversion, _, hr, rfl, rfl, rfl, rfl, fun a => ?_⟩
  obtain ⟨f, hf, hseal⟩ := hfield a
  simp only [Attributes.get_ofFn, hf]
  exact .some hseal

end Represents

-- ---------------------------------------------------------------------------
-- Listing
-- ---------------------------------------------------------------------------

section Listing

variable {keyOf : Text → Key} {rows : Assoc Row} {entries : Assoc PlainEntry}

theorem exists_select (h : Assoc.Rel (Represents keyOf) rows entries) (org user : Text) :
    ∃ selected : Assoc Row,
      Memory.select org user true (rows.map (·.2)) = .ok (selected.map (·.2)) ∧
      Assoc.Rel (Represents keyOf) selected
        (entries.filter fun pair => pair.2.isListed org user) := by
  induction h with
  | nil => exact ⟨[], rfl, .nil⟩
  | @cons id row e rows entries head tail ih =>
    obtain ⟨selected, hselect, hrel⟩ := ih
    have hhead := head.isSelected org user
    cases hl : e.isListed org user with
    | true =>
      refine ⟨(id, row) :: selected, ?_, ?_⟩
      · simp [Memory.select, hhead, hselect, hl, bind, Except.bind, pure, Except.pure]
      · simpa [hl] using Assoc.Rel.cons head hrel
    | false =>
      refine ⟨selected, ?_, by simpa [hl] using hrel⟩
      simp [Memory.select, hhead, hselect, hl, bind, Except.bind, pure, Except.pure]

theorem settle_openRows (h : Assoc.Rel (Represents keyOf) rows entries)
    (ho : ∀ pair ∈ entries, pair.2.org = org) (keys : Assoc OrgKeyRecord) (n : Nonces) :
    ∃ result, (Vault.openRows (keyOf org).bytes (rows.map fun pair => .map pair.2)).settle keys n =
        some (result, n) ∧ Agrees result (PlainStore.secrets entries) := by
  induction h with
  | nil => exact ⟨_, rfl, .ok _⟩
  | @cons id row e rows entries head tail ih =>
    obtain ⟨hown, hrest⟩ := List.forall_mem_cons.mp ho
    obtain ⟨r, hr, hc⟩ := head.record
    obtain ⟨result, hresult, ha⟩ := hc.settle_decryptRecord keys n
    obtain ⟨results, hresults, has⟩ := ih hrest
    rw [show e.org = org from hown] at hresult
    rw [List.map_cons, Vault.openRows, recordOf_eq_ok_iff.mpr hr, Program.bind_eq,
      Program.ofExcept_bind, PlainStore.secrets]
    generalize e.secret id = x at ha ⊢
    cases ha with
    | error hk => exact ⟨_, Program.settle_bind_error hresult, .error hk⟩
    | ok secret =>
      simp only [Program.bind_eq]
      rw [Program.settle_bind_ok hresult]
      generalize PlainStore.secrets entries = xs at has ⊢
      cases has with
      | error hk => exact ⟨_, Program.settle_bind_error hresults, .error hk⟩
      | ok secrets =>
        rw [Program.settle_bind_ok hresults]
        exact ⟨_, rfl, .ok _⟩

end Listing

end EnvelopeVault
