import EnvelopeVault.Proofs.Coupling
import EnvelopeVault.Proofs.Frames

/-!
# Updates in either order

`independent_updates_commute`: two updates that expect no version, of different
secrets or of different attributes of one secret, can be run in either order.
What an update does to the rows is a function of the row under its id
(`Revision.amend`); it reads that row first, but nothing that it looks at is
changed by an update of other attributes (`admits_overlay`). So the functions of
the two updates commute (`amend_comm`), and so do the updates.
-/

namespace EnvelopeVault

open FieldCipher Layout Program Vault

-- ---------------------------------------------------------------------------
-- Rows that are written over twice
-- ---------------------------------------------------------------------------

theorem Changes.exists_of_mem_provided {c : Changes} (h : name ∈ Assoc.names c.provided) :
    ∃ a t, name = Attribute.name a ∧ c.get a = some t := by
  obtain ⟨a, -, rfl⟩ := List.mem_map.mp (c.names_provided.subset h)
  cases ht : c.get a with
  | some t => exact ⟨a, t, rfl, ht⟩
  | none =>
    rw [← c.get?_provided, Assoc.get?_eq_none_iff] at ht
    exact absurd h ht

namespace Layout

variable {fields fields' : Assoc Field} {row : Row} {v v' : Int}

theorem exists_of_mem_columnsOf (hn : fields.names.Nodup)
    (h : name ∈ (columnsOf fields).names) :
    ∃ field ∈ fields.names, ∃ part, name = column field part := by
  rw [Query.names_columnsOf hn] at h
  obtain ⟨field, hfield, h⟩ := List.mem_flatMap.mp h
  obtain ⟨part, -, rfl⟩ := List.mem_map.mp h
  exact ⟨field, hfield, part, rfl⟩

theorem version_not_mem_columnsOf (hn : fields.names.Nodup) :
    ("version" : Text) ∉ (columnsOf fields).names :=
  Assoc.get?_eq_none_iff.mp (get?_columnsOf_plain hn (by decide))

theorem overlay_overlay (hn' : fields'.names.Nodup) (hv : ("version" : Text) ∈ row.names) :
    overlay (overlay row fields v) fields' v' =
      ((row.putAll (columnsOf fields)).putAll (columnsOf fields')).put "version" (.int v') := by
  have hkept : ("version" : Text) ∈ (row.putAll (columnsOf fields)).names :=
    Assoc.mem_names_putAll hv _
  rw [overlay, overlay, Assoc.put_putAll_comm hkept (version_not_mem_columnsOf hn'),
    Assoc.put_put]

theorem overlay_comm (hn : fields.names.Nodup) (hn' : fields'.names.Nodup)
    (hdisjoint : ∀ name ∈ fields.names, name ∉ fields'.names)
    (hcolumns : ∀ name ∈ (columnsOf fields).names, name ∈ row.names)
    (hv : ("version" : Text) ∈ row.names) (v₁ v₂ : Int) :
    overlay (overlay row fields v₁) fields' v = overlay (overlay row fields' v₂) fields v := by
  rw [overlay_overlay hn' hv, overlay_overlay hn hv, Assoc.putAll_comm hcolumns]
  intro name hm hm'
  obtain ⟨field, hfield, part, rfl⟩ := exists_of_mem_columnsOf hn hm
  obtain ⟨other, hother, part', heq⟩ := exists_of_mem_columnsOf hn' hm'
  obtain ⟨rfl, -⟩ := column_inj.mp heq
  exact hdisjoint field hfield hother

/-- The version in a row, where it is an integer. -/
def version (row : Row) : Int :=
  match row.get? "version" with
  | some (.int v) => v
  | _ => 0

theorem version_eq (h : Holds row "version" (· = .int v)) : version row = v := by
  obtain ⟨_, hfound, rfl⟩ := h
  rw [version, hfound]

end Layout

namespace Vault

variable {secret org : Value} {fields : Assoc Field} {row : Row} {r : SecretRecord}

/-- Fields that are written over a row do not matter to whether an update goes on with it. -/
theorem admits_overlay (hr : Reads row r) (hn : fields.names.Nodup) (v : Int) :
    admits secret org none (some (.map (overlay row fields v))) =
      admits secret org none (some (.map row)) := by
  have hr' : Reads (overlay row fields v) (r.rewritten fields v) :=
    hr.rewritten (rewrites_overlay hn row v) (overlay_version ..).integer
  by_cases ho : r.orgId = org.toText
  · rw [admits_of_reads hr ho, admits_of_reads hr' ho]
    rfl
  · have foreign {row : Row} (h : Holds row "orgId" fun owner => owner.toText = r.orgId) :
        admits secret org none (some (.map row)) =
          .error (notFound updateOperation secret org) := by
      obtain ⟨owner, howner, hown⟩ := h
      rw [admits, ownedRecord_foreign ⟨owner, howner, fun h => ho (hown.symm.trans h)⟩]
      rfl
    rw [foreign hr.org, foreign hr'.org]

end Vault

-- ---------------------------------------------------------------------------
-- One update
-- ---------------------------------------------------------------------------

/-- An update that expects no version, with the nonces that it draws. -/
structure Revision where
  secret : Value
  org : Value
  changes : Changes
  nonces : Nonces

namespace Revision

variable (root : Bytes) (u : Revision) (keys : Assoc OrgKeyRecord)

def program : Program Text := Vault.update root u.secret u.changes u.org none

def run (m : Memory) : Outcome Memory Text :=
  (u.program root).run Memory.backend { m with nonces := u.nonces }

/-- The fields that the update writes, if it has texts, a key, and can seal the texts. -/
def fields? : Option (Assoc Field) :=
  if u.changes.provided.isEmpty then none
  else
    match (sealChanges root u.changes u.org).settle keys u.nonces with
    | some (.ok fields, _) => some fields
    | _ => none

/-- What becomes of the row under the update's id. -/
def amend (row : Row) : Row :=
  match u.fields? root keys, admits u.secret u.org none (some (.map row)) with
  | some fields, .ok _ => overlay row fields (version row + 1)
  | _, _ => row

variable {root u keys} {row : Row} {m : Memory} {fields : Assoc Field}

theorem names_fields? (h : u.fields? root keys = some fields) :
    fields.names = Assoc.names u.changes.provided := by
  obtain ⟨r, left, hsettle, hsealed⟩ :=
    exists_settle_sealChanges root u.changes u.org keys u.nonces
  rw [fields?, hsettle] at h
  split at h
  · cases h
  · cases r with
    | error e => cases h
    | ok sealed =>
      cases h
      obtain ⟨key, -, hrel⟩ := hsealed fields rfl
      exact hrel.names_eq

theorem nodup_fields? (h : u.fields? root keys = some fields) : fields.names.Nodup :=
  names_fields? h ▸ u.changes.nodup_provided

theorem amend_written (hf : u.fields? root keys = some fields)
    (ha : admits u.secret u.org none (some (.map row)) = .ok ()) :
    u.amend root keys row = overlay row fields (version row + 1) := by
  rw [amend, hf, ha]

/-- The update leaves the row as it is: it is refused on reading it, or has nothing to write. -/
def Skips (u : Revision) (root : Bytes) (keys : Assoc OrgKeyRecord) (row : Row) : Prop :=
  u.fields? root keys = none ∨ ∃ e, admits u.secret u.org none (some (.map row)) = .error e

theorem Skips.amend (h : u.Skips root keys row) : u.amend root keys row = row := by
  obtain hf | ⟨e, he⟩ := h
  · rw [Revision.amend, hf]
  · rw [Revision.amend, he]
    cases u.fields? root keys <;> rfl

theorem amend_cases (u : Revision) (root : Bytes) (keys : Assoc OrgKeyRecord) (row : Row) :
    u.Skips root keys row ∨
      ∃ fields r, u.fields? root keys = some fields ∧ Reads row r ∧
        admits u.secret u.org none (some (.map row)) = .ok () := by
  cases hf : u.fields? root keys with
  | none => exact .inl (.inl hf)
  | some fields =>
    cases ha : admits u.secret u.org none (some (.map row)) with
    | error e => exact .inl (.inr ⟨e, ha⟩)
    | ok _ =>
      obtain ⟨r, hr, -⟩ := reads_of_admits ha
      exact .inr ⟨fields, r, rfl, hr, rfl⟩

/-- What an update looks at in a row is not changed by another one. -/
theorem admits_amend (u : Revision) (secret org : Value) :
    admits secret org none (some (.map (u.amend root keys row))) =
      admits secret org none (some (.map row)) := by
  obtain hskips | ⟨fields, r, hf, hr, ha⟩ := amend_cases u root keys row
  · rw [hskips.amend]
  · rw [amend_written hf ha, admits_overlay hr (nodup_fields? hf)]

theorem Skips.after (h : u.Skips root keys row) (v : Revision) :
    u.Skips root keys (v.amend root keys row) := by
  refine h.imp_right ?_
  rintro ⟨e, he⟩
  exact ⟨e, (admits_amend v u.secret u.org).trans he⟩

theorem amend_plain (u : Revision) (h : isPlain name) (hne : name ≠ "version") :
    (u.amend root keys row).get? name = row.get? name := by
  obtain hskips | ⟨fields, r, hf, -, ha⟩ := amend_cases u root keys row
  · rw [hskips.amend]
  · rw [amend_written hf ha, overlay_plain (nodup_fields? hf) row _ name h hne]

theorem amend_version (u : Revision) (hv : Holds row "version" (· = .int v)) :
    ∃ v' : Int, Holds (u.amend root keys row) "version" (· = .int v') := by
  obtain hskips | ⟨fields, r, hf, -, ha⟩ := amend_cases u root keys row
  · exact ⟨v, by rwa [hskips.amend]⟩
  · refine ⟨version row + 1, ?_⟩
    rw [amend_written hf ha]
    exact overlay_version ..

/-- They are updates of different secrets, or no attribute is provided by both. -/
def Independent (u v : Revision) : Prop :=
  u.secret.toText = v.secret.toText → ∀ a, u.changes.get a = none ∨ v.changes.get a = none

variable {v : Revision}

theorem disjoint_fields? {fields' : Assoc Field}
    (h : ∀ a, u.changes.get a = none ∨ v.changes.get a = none)
    (hf : u.fields? root keys = some fields) (hf' : v.fields? root keys = some fields') :
    ∀ name ∈ fields.names, name ∉ fields'.names := by
  intro name hm hm'
  rw [names_fields? hf] at hm
  rw [names_fields? hf'] at hm'
  obtain ⟨a, t, rfl, ht⟩ := Changes.exists_of_mem_provided hm
  obtain ⟨b, t', hname, ht'⟩ := Changes.exists_of_mem_provided hm'
  have hab : a = b := by
    cases a <;> cases b <;> first | rfl | exact absurd hname (by decide)
  subst hab
  rcases h a with hnone | hnone
  · simp [hnone] at ht
  · simp [hnone] at ht'

theorem mem_column_of_fields? {r : SecretRecord} (hr : Reads row r)
    (hf : u.fields? root keys = some fields) :
    ∀ name ∈ (columnsOf fields).names, name ∈ row.names := by
  intro name hm
  obtain ⟨field, hfield, part, rfl⟩ := exists_of_mem_columnsOf (nodup_fields? hf) hm
  rw [names_fields? hf] at hfield
  obtain ⟨a, -, rfl, -⟩ := Changes.exists_of_mem_provided hfield
  exact hr.mem_column a part

/-- Both updates of a row that provide different attributes leave the same in either order. -/
theorem amend_comm (h : ∀ a, u.changes.get a = none ∨ v.changes.get a = none)
    (hv : Holds row "version" (· = .int n)) :
    v.amend root keys (u.amend root keys row) = u.amend root keys (v.amend root keys row) := by
  obtain hu | ⟨fields, r, hf, hr, ha⟩ := amend_cases u root keys row
  · rw [hu.amend, (hu.after v).amend]
  obtain hw | ⟨fields', r', hf', -, ha'⟩ := amend_cases v root keys row
  · rw [hw.amend, (hw.after u).amend]
  have hafter : admits v.secret v.org none (some (.map (u.amend root keys row))) = .ok () :=
    (admits_amend u v.secret v.org).trans ha'
  have hafter' : admits u.secret u.org none (some (.map (v.amend root keys row))) = .ok () :=
    (admits_amend v u.secret u.org).trans ha
  have hnames : ("version" : Text) ∈ row.names := by
    obtain ⟨_, hfound, -⟩ := hv
    exact Assoc.mem_names_of_get? hfound
  rw [amend_written hf' hafter, amend_written hf hafter', amend_written hf ha,
    amend_written hf' ha', version_eq (overlay_version ..), version_eq (overlay_version ..)]
  exact overlay_comm (nodup_fields? hf) (nodup_fields? hf') (disjoint_fields? h hf hf')
    (mem_column_of_fields? hr hf) hnames ..

-- ---------------------------------------------------------------------------
-- What it does to the rows
-- ---------------------------------------------------------------------------

theorem run_rows (u : Revision) (root : Bytes) (hm : m.HasIntegerVersions) :
    (u.run root m).state.rows = m.rows.adjust u.secret.toText (u.amend root m.keys) := by
  have unchanged (h : ∀ row, m.rows.get? u.secret.toText = some row →
      u.Skips root m.keys row) :
      m.contents.rows = m.rows.adjust u.secret.toText (u.amend root m.keys) :=
    (Assoc.adjust_eq_self fun row hrow => (h row hrow).amend).symm
  change ((u.program root).effect u.nonces m).2.rows = _
  cases hp : u.changes.provided.isEmpty with
  | true =>
    rw [program, update, if_pos hp]
    exact unchanged fun _ _ => .inl (if_pos hp)
  | false =>
    rw [program, effect_update hp]
    cases ha : admits u.secret u.org none ((m.rows.get? u.secret.toText).map .map) with
    | error e =>
      refine unchanged fun row hrow => .inr ⟨e, ?_⟩
      rwa [hrow] at ha
    | ok _ =>
      obtain ⟨row, r, v, hrow, -, -, hv, he⟩ := row_of_admits hm ha
      obtain ⟨s, left, hsettle, -⟩ :=
        exists_settle_sealChanges root u.changes u.org m.keys u.nonces
      have hs : u.fields? root m.keys = s.toOption := by
        simp only [fields?, hp, Bool.false_eq_true, if_false, hsettle]
        cases s <;> rfl
      cases s with
      | error e =>
        change ((writeChanges ..).effect u.nonces m).2.rows = _
        rw [effect_writeChanges_error hsettle]
        exact unchanged fun _ _ => .inl hs
      | ok fields =>
        rw [hrow] at ha
        change ((writeChanges ..).effect u.nonces m).2.rows = _
        rw [effect_writeChanges hsettle,
          effect_answer (Memory.answer_update_written hrow hv (nodup_fields? hs) he),
          Assoc.adjust_of_get? hrow, amend_written hs ha, version_eq hv]
        rfl

theorem run_keys (u : Revision) (root : Bytes) (m : Memory) : (u.run root m).state.keys = m.keys :=
  Program.run_keys ..

theorem run_versions (u : Revision) (root : Bytes) (hm : m.HasIntegerVersions) :
    (u.run root m).state.HasIntegerVersions := by
  intro id row hrow
  rw [u.run_rows root hm, Assoc.get?_adjust] at hrow
  split at hrow
  · obtain ⟨before, hbefore, rfl⟩ := Option.map_eq_some_iff.mp hrow
    obtain ⟨v, hv⟩ := hm id before hbefore
    exact amend_version u hv
  · exact hm id row hrow

end Revision

-- ---------------------------------------------------------------------------
-- What it comes to
-- ---------------------------------------------------------------------------

/-- Two rows in which updates see no difference. -/
structure LooksAlike (row row' : Row) : Prop where
  admits : ∀ secret org, Vault.admits secret org none (some (.map row')) =
    Vault.admits secret org none (some (.map row))
  id : row'.get? "id" = row.get? "id"
  version : ∃ v : Int, Holds row "version" (· = .int v)
  version' : ∃ v : Int, Holds row' "version" (· = .int v)

theorem LooksAlike.refl {row : Row} (hv : Holds row "version" (· = .int n)) : LooksAlike row row :=
  ⟨fun _ _ => rfl, rfl, ⟨n, hv⟩, ⟨n, hv⟩⟩

structure Memory.Facing (id : Text) (row? row?' : Option Row) (m m' : Memory) : Prop where
  found : m.rows.get? id = row?
  found' : m'.rows.get? id = row?'
  keys : m'.keys = m.keys
  nonces : m'.nonces = m.nonces

namespace Memory.Facing

variable {id : Text} {row? row?' : Option Row} {secret : Value} {row row' : Row}
  {fields : Assoc Field}

theorem drawsAlike : DrawsAlike (Facing id row? row?') (Facing id row? row?') :=
  fun _ _ h => ⟨congrArg (·.next.1) h.nonces.symm,
    { h with nonces := congrArg (·.next.2) h.nonces }⟩

theorem couples_lookup (id : Text) (row? row?' : Option Row) (a : Access) (ha : a.IsLookup) :
    Couples (Facing id row? row?') (.call a) (.call a)
      (fun x y m m' => x = y ∧ Facing id row? row?' m m') (Facing id row? row?') := by
  obtain ⟨org, rfl⟩ := ha
  exact .call fun m m' h => ⟨_, _, _, _, rfl, rfl, by rw [h.keys],
    ⟨h.found, h.found', h.keys, h.nonces⟩⟩

theorem couples_fetch (secret : Value) :
    Couples (Facing secret.toText row? row?') (.call (.fetch secret)) (.call (.fetch secret))
      (fun x y m m' => (x = row?.map .map ∧ y = row?'.map .map) ∧
        Facing secret.toText row? row?' m m') (Facing secret.toText row? row?') :=
  .call fun m m' h => ⟨_, _, _, _, rfl, rfl,
    ⟨by rw [h.found], by rw [h.found']⟩, h⟩

theorem couples_updateRow (h : LooksAlike row row') (hn : fields.names.Nodup) :
    Couples (Facing secret.toText (some row) (some row'))
      (.call (.update secret (columnsOf fields) none))
      (.call (.update secret (columnsOf fields) none))
      (fun x y _ _ => ∃ written written', x = some (.map written) ∧ y = some (.map written') ∧
        cellOf (.map written') "id" = cellOf (.map written) "id")
      fun _ _ => True := by
  obtain ⟨v, hv⟩ := h.version
  obtain ⟨v', hv'⟩ := h.version'
  have keeps (row : Row) (v : Int) : (overlay row fields v).get? "id" = row.get? "id" :=
    overlay_plain hn row v "id" (by decide) (by decide)
  refine .call fun m m' hm => ⟨_, _, _, _, answer_update_written hm.found hv hn rfl,
    answer_update_written hm.found' hv' hn rfl, _, _, rfl, rfl, ?_⟩
  simp only [cellOf, cell, keeps, h.id]

end Memory.Facing

namespace Revision

variable {root : Bytes} {u : Revision}

theorem couples_program (root : Bytes) {row? row?' : Option Row} (h : row?.Rel LooksAlike row?') :
    Couples (Memory.Facing u.secret.toText row? row?') (u.program root) (u.program root)
      (fun a b _ _ => a = b) fun _ _ => True := by
  rw [program]
  cases hp : u.changes.provided.isEmpty with
  | true =>
    rw [update, if_pos hp]
    exact .done_error fun _ _ _ => trivial
  | false =>
    rw [update_eq hp]
    refine ((Memory.Facing.couples_fetch u.secret).mono_error fun _ _ _ => trivial).access
      fun x y => .assume ?_
    rintro ⟨rfl, rfl⟩
    cases h with
    | none => exact .done_error fun _ _ _ => trivial
    | @some row row' hrow =>
      simp only [proceed, Option.map_some, hrow.admits u.secret u.org]
      cases admits u.secret u.org none (some (.map row)) with
      | error e => exact .done_error fun _ _ _ => trivial
      | ok _ =>
        rw [writeChanges_eq]
        have hseal := Couples.refl
          (sealChanges_ensures root u.changes (P := Access.IsLookup) ⟨u.org, rfl⟩)
          Memory.Facing.drawsAlike
          (Memory.Facing.couples_lookup u.secret.toText (some row) (some row'))
        refine (hseal.mono_error fun _ _ _ => trivial).bind fun fields fields' => .assume ?_
        rintro rfl
        refine .assume fun hn => (Memory.Facing.couples_updateRow hrow hn).access fun x y => ?_
        rintro m m' ⟨written, written', rfl, rfl, hid⟩
        simp only [conclude, hid]
        cases cellOf (.map written) "id" with
        | error e => exact .error e _ trivial
        | ok id => exact .ok _ rfl

theorem looksAlike_amend (v : Revision) (hv : Holds row "version" (· = .int n)) :
    LooksAlike row (v.amend root keys row) where
  admits := admits_amend v
  id := amend_plain v (by decide) (by decide)
  version := ⟨n, hv⟩
  version' := amend_version v hv

/-- Another update that has run before makes no difference to what an update comes to. -/
theorem run_after (u v : Revision) (root : Bytes) {m : Memory} (hm : m.HasIntegerVersions) :
    (u.run root (v.run root m).state).result = (u.run root m).result ∧
      (u.run root (v.run root m).state).log = (u.run root m).log := by
  have hrows := v.run_rows root hm
  have hlooks : (m.rows.get? u.secret.toText).Rel LooksAlike
      ((v.run root m).state.rows.get? u.secret.toText) := by
    rw [hrows, Assoc.get?_adjust]
    cases hrow : m.rows.get? u.secret.toText with
    | none => simp
    | some row =>
      obtain ⟨n, hn⟩ := hm _ row hrow
      split
      · exact .some (looksAlike_amend v hn)
      · exact .some (.refl hn)
  have halike := couples_program root hlooks { m with nonces := u.nonces }
    { (v.run root m).state with nonces := u.nonces } ⟨rfl, rfl, v.run_keys root m, rfl⟩
  change Alike _ _ (u.run root m) (u.run root (v.run root m).state) at halike
  generalize u.run root m = o at halike ⊢
  generalize u.run root (v.run root m).state = o' at halike ⊢
  cases halike with
  | ok log h => exact ⟨congrArg Except.ok h.symm, rfl⟩
  | error e log h => exact ⟨rfl, rfl⟩

end Revision

/-- On a store whose versions are integers, whatever else is in its rows, two updates that expect
no version, of different secrets or of different attributes of one, come to the same in either
order: each one's result and lines are what they are without the other, and the rows and keys that
both leave are the same, in the same order. The store in memory keeps no time of update, so
nothing is left out of the rows. -/
theorem independent_updates_commute (root : Bytes) (m : Memory) (hm : m.HasIntegerVersions)
    (u v : Revision) (h : u.Independent v) :
    let u₁ := u.run root m
    let v₂ := v.run root u₁.state
    let v₁ := v.run root m
    let u₂ := u.run root v₁.state
    u₂.result = u₁.result ∧ u₂.log = u₁.log ∧ v₂.result = v₁.result ∧ v₂.log = v₁.log ∧
      u₂.state.rows = v₂.state.rows ∧ u₂.state.keys = v₂.state.keys := by
  intro u₁ v₂ v₁ u₂
  obtain ⟨hresult, hlog⟩ := u.run_after v root hm
  obtain ⟨hresult', hlog'⟩ := v.run_after u root hm
  have hkeys : u₁.state.keys = m.keys := u.run_keys root m
  have hkeys' : v₁.state.keys = m.keys := v.run_keys root m
  refine ⟨hresult, hlog, hresult', hlog', ?_, ?_⟩
  · rw [v.run_rows root (u.run_versions root hm), u.run_rows root (v.run_versions root hm),
      u.run_rows root hm, v.run_rows root hm, hkeys, hkeys']
    refine Assoc.adjust_comm fun hsecret row hrow => ?_
    obtain ⟨n, hn⟩ := hm _ row hrow
    exact Revision.amend_comm (fun a => (h hsecret.symm a).symm) hn
  · exact ((u.run_keys root _).trans hkeys').trans ((v.run_keys root _).trans hkeys).symm

/-- The hypotheses hold of updates of the title and of the data of one row, which both succeed. -/
theorem title_and_data_updates_commute :
    ∃ record, OrgKey.Wraps Cabinet.key Cabinet.key record ∧
      let m := Cabinet.store record aes256Gcm
      let u : Revision := ⟨.text "s1", .text "o1", ⟨some "t", none, none, none⟩, .counting 0⟩
      let v : Revision := ⟨.text "s1", .text "o1", ⟨none, none, some "d", none⟩, .counting 1⟩
      m.HasIntegerVersions ∧ u.Independent v ∧
        (u.run Cabinet.key.bytes (v.run Cabinet.key.bytes m).state).result = .ok "s1" ∧
        (v.run Cabinet.key.bytes (u.run Cabinet.key.bytes m).state).result = .ok "s1" ∧
        (u.run Cabinet.key.bytes (v.run Cabinet.key.bytes m).state).state.rows =
          (v.run Cabinet.key.bytes (u.run Cabinet.key.bytes m).state).state.rows := by
  obtain ⟨record, hrecord⟩ := OrgKey.exists_wraps Cabinet.key Cabinet.key
  let m := Cabinet.store record aes256Gcm
  let u : Revision := ⟨.text "s1", .text "o1", ⟨some "t", none, none, none⟩, .counting 0⟩
  let v : Revision := ⟨.text "s1", .text "o1", ⟨none, none, some "d", none⟩, .counting 1⟩
  have hm : m.HasIntegerVersions := Cabinet.versions record _
  have hindependent : u.Independent v := by
    rintro - (_ | _ | _ | _)
    · exact .inr rfl
    · exact .inl rfl
    · exact .inl rfl
    · exact .inl rfl
  have succeeds (changes : Changes) (nonces : Nonces) (hp : changes.provided.isEmpty = false)
      (ht : ∀ pair ∈ changes.provided, pair.2.IsEncodable) :
      (Revision.run Cabinet.key.bytes ⟨.text "s1", .text "o1", changes, nonces⟩ m).result =
        .ok "s1" :=
    Vault.exists_update_ok hp ht rfl (Cabinet.reads aes256Gcm) rfl ⟨_, rfl, rfl⟩ rfl
      (Cabinet.settles hrecord aes256Gcm)
  obtain ⟨hresult, -, hresult', -, hrows, -⟩ :=
    independent_updates_commute Cabinet.key.bytes m hm u v hindependent
  exact ⟨record, hrecord, hm, hindependent, hresult.trans (succeeds _ _ rfl (by decide)),
    hresult'.trans (succeeds _ _ rfl (by decide)), hrows⟩

end EnvelopeVault
