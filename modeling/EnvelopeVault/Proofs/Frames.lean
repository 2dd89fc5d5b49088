import EnvelopeVault.Proofs.FailedRequests
import EnvelopeVault.Proofs.Readback
import EnvelopeVault.Proofs.Statements

/-!
# What a successful request leaves as it was

`successful_requests_frame`: a request that succeeds changes no more of the rows than
it is for (`Request.Leaves`). A new row goes to the end, a deleted one leaves the
others in their order, and reading changes nothing. An update replaces one row in
its place, and in the row the version and the columns of the provided attributes
(`Layout.Patched`): nothing is asked of the other attributes, which may be absent
or beyond decryption.
-/

namespace EnvelopeVault

open FieldCipher Layout

-- ---------------------------------------------------------------------------
-- Rows that are updated
-- ---------------------------------------------------------------------------

def Changes.Writes (changes : Changes) (name : Text) : Prop :=
  name = "version" ∨ ∃ a t part, changes.get a = some t ∧ name = column a.name part

namespace Layout

/-- A row before and after an update: the version is counted up, the three columns of each
provided attribute are those of one field, in which its text was sealed, and all other columns
are as they were, in the same order. -/
structure Patched (key : Key) (changes : Changes) (row row' : Row) : Prop where
  cells : Assoc.SameBut changes.Writes row row'
  version : ∃ v : Int, Holds row "version" (· = .int v) ∧ Holds row' "version" (· = .int (v + 1))
  fields : ∀ a t, changes.get a = some t → ∃ f, Seals key f t ∧
    ∀ part, Holds row' (column a.name part) (· = .text (f.get part))

theorem Reads.mem_column {row : Row} (h : Reads row r) (a : Attribute) (part : Part) :
    column a.name part ∈ row.names := by
  obtain ⟨parts, hparts, -⟩ := h.fields a
  exact Assoc.mem_names_of_get? (hparts part)

theorem patched_overlay {key : Key} {changes : Changes} {row : Row} {fields : Assoc Field}
    (hr : Reads row r) (hv : Holds row "version" (· = .int v))
    (hseals : Assoc.Rel (fun _ => Seals key) fields changes.provided) :
    Patched key changes row (overlay row fields (v + 1)) := by
  have hn : fields.names.Nodup := hseals.names_eq ▸ changes.nodup_provided
  have hprovided (a : Attribute) :
      (fields.get? a.name).Rel (Seals key) (changes.get a) :=
    changes.get?_provided a ▸ hseals.get? a.name
  refine ⟨?_, ⟨v, hv, overlay_version ..⟩, fun a t ht => ?_⟩
  · refine .put (.putAll (.refl row) fun name hm => ?_) (.inl rfl) ?_ _
    · rw [Query.names_columnsOf hn] at hm
      obtain ⟨_, hfield, hm⟩ := List.mem_flatMap.mp hm
      obtain ⟨part, -, rfl⟩ := List.mem_map.mp hm
      rw [hseals.names_eq] at hfield
      obtain ⟨a, -, rfl⟩ := List.mem_map.mp (changes.names_provided.subset hfield)
      refine ⟨.inr ?_, hr.mem_column a part⟩
      cases ht : changes.get a with
      | some t => exact ⟨a, t, part, ht, rfl⟩
      | none =>
        rw [← changes.get?_provided, Assoc.get?_eq_none_iff] at ht
        exact absurd hfield ht
    · obtain ⟨_, hfound, -⟩ := hv
      exact Assoc.mem_names_of_get? hfound
  · have hfield := hprovided a
    rw [ht] at hfield
    cases hget : fields.get? a.name with
    | none =>
      rw [hget] at hfield
      cases hfield
    | some f =>
      rw [hget] at hfield
      cases hfield with
      | some hseal =>
        refine ⟨f, hseal, fun part => ⟨_, ?_, rfl⟩⟩
        rw [get?_overlay_column hn, hget]
        rfl

end Layout

-- ---------------------------------------------------------------------------
-- Operations
-- ---------------------------------------------------------------------------

open Memory (Spared)

variable {m m' : Memory} {root : Bytes} {secret org user : Value}

theorem Program.run_bind_reads {α β : Type} {G : Except Failure α → Prop} {p : Program α}
    {f : α → Program β} {b : β} (hp : p.Ensures Access.IsRead G) (hs : Spared m m')
    (h : ((p.bind f).run Memory.backend m').result = .ok b) :
    ∃ a m'', G (.ok a) ∧ Spared m m'' ∧ ((f a).run Memory.backend m'').result = .ok b ∧
      ((p.bind f).run Memory.backend m').state = ((f a).run Memory.backend m'').state := by
  obtain ⟨hspared, hG⟩ := run_reads hp hs
  obtain ⟨a, ha, hresult⟩ := run_bind_ok h
  refine ⟨a, _, hG a ha, hspared, hresult, ?_⟩
  rw [run_bind, Outcome.andThen, ha]

theorem Program.run_keys {α : Type} (p : Program α) (m : Memory) :
    (p.run Memory.backend m).state.keys = m.keys := by
  induction p generalizing m with
  | done result => rfl
  | note line next ih => exact ih m
  | draw next ih => exact ih _ _
  | access a next ih =>
    have ha := Memory.answer_keys a m
    simp only [run, Memory.backend]
    generalize Memory.answer a m = o at ha ⊢
    obtain ⟨_ | answer, m'⟩ := o
    · exact ha
    · exact (ih answer m').trans ha

theorem Vault.exists_created {draft : Draft} {t : Text}
    (h : ((create root draft org user).run Memory.backend m).result = .ok t) :
    ∃ row, Holds row "id" (· = m.nextId) ∧
      ((create root draft org user).run Memory.backend m).state.rows =
        m.rows.put m.nextId.toText row := by
  obtain ⟨key, m₁, -, hs₁, h, hstate⟩ :=
    Program.run_bind_reads (OrgKey.resolve_ensures root trivial) ⟨rfl, rfl⟩ h
  obtain ⟨fields, m₂, hnames, hs₂, h, hstate'⟩ :=
    Program.run_bind_reads (Sealing.encryptAll_ensures key _) hs₁ h
  have hn : (Assoc.names fields).Nodup := by
    rw [show Assoc.names fields = _ from hnames, names_texts]
    decide
  have hid := get?_newRow_plain hn org user (show isPlain "id" by decide)
  have hnext : m₂.contents.nextId = m.contents.nextId := by rw [hs₂.contents]
  change m₂.nextId = m.nextId at hnext
  have hcell : cellOf (.map (Memory.insertedRow m₂.nextId (newRow org user fields))) "id" =
      .ok m₂.nextId := cell_eq_ok_iff.mpr (Memory.get?_insertedRow_id ..)
  refine ⟨Memory.insertedRow m₂.nextId (newRow org user fields),
    ⟨_, Memory.get?_insertedRow_id .., hnext⟩,
    (congrArg (·.rows) (hstate.trans hstate')).trans ?_⟩
  rw [Program.bind_eq, Program.call_bind, Program.run_answer (Memory.answer_insert hid), hcell,
    ← hnext, ← Memory.rows_congr hs₂.contents]
  rfl

theorem Vault.exists_deleted {t : Text}
    (h : ((delete secret).run Memory.backend m).result = .ok t) :
    (m.rows.get? secret.toText).isSome ∧
      ((delete secret).run Memory.backend m).state.rows = m.rows.erase secret.toText := by
  rw [delete, Program.bind_eq, Program.call_bind,
    Program.run_answer (Memory.answer_delete ..)] at h ⊢
  cases hrow : m.rows.get? secret.toText with
  | none =>
    rw [hrow] at h
    cases h
  | some row =>
    refine ⟨rfl, ?_⟩
    dsimp only [Option.map_some]
    cases cellOf (.map row) "id" <;> rfl

-- ---------------------------------------------------------------------------
-- Requests
-- ---------------------------------------------------------------------------

namespace Request

/-- What a request that succeeds leaves of the rows of a store. -/
def Leaves (root : Bytes) (m m' : Memory) : Request → Prop
  | .create _ _ _ => m.nextId.toText ∉ m.rows.names →
      ∃ row, Holds row "id" (· = m.nextId) ∧ m'.rows = m.rows ++ [(m.nextId.toText, row)]
  | .update secret given org _ => ∃ changes key row row' before after,
      Changes.read given = .ok changes ∧
      ((OrgKey.resolve root org).run Memory.backend m).result = .ok (Key.bytes key) ∧
      secret.toText ∉ Assoc.names before ∧
      m.rows = before ++ (secret.toText, row) :: after ∧
      m'.rows = before ++ (secret.toText, row') :: after ∧ Patched key changes row row'
  | .delete secret => secret.toText ∈ m.rows.names ∧
      m'.rows = m.rows.filter (·.1 != secret.toText)
  | .get .. | .list .. | .resolve _ => Spared m m'

variable {reply : Reply}

theorem create_leaves
    (h : (((create secret org user).program root).run Memory.backend m).result = .ok reply) :
    (create secret org user).Leaves root m
      (((create secret org user).program root).run Memory.backend m).state := by
  rw [program] at h ⊢
  cases hread : Draft.read secret with
  | faulty faults =>
    rw [hread] at h
    cases h
  | ok draft =>
    rw [hread] at h
    obtain ⟨t, ht, hstate⟩ :=
      Program.run_map_ok (p := Vault.create root draft org user) (f := Reply.id) h
    obtain ⟨row, hid, hrows⟩ := Vault.exists_created ht
    intro hfresh
    rw [Assoc.put_eq_append hfresh] at hrows
    exact ⟨row, hid, (congrArg (·.rows) hstate).trans hrows⟩

theorem delete_leaves
    (h : (((delete secret).program root).run Memory.backend m).result = .ok reply) :
    (delete secret).Leaves root m
      (((delete secret).program root).run Memory.backend m).state := by
  obtain ⟨t, ht, hstate⟩ := Program.run_map_ok (p := Vault.delete secret) (f := Reply.id) h
  obtain ⟨hfound, hrows⟩ := Vault.exists_deleted ht
  obtain ⟨row, hrow⟩ := Option.isSome_iff_exists.mp hfound
  exact ⟨Assoc.mem_names_of_get? hrow, (congrArg (·.rows) hstate).trans hrows⟩

theorem update_leaves {given : Value} {expected : Option Value} (hm : m.HasIntegerVersions)
    (h : (((update secret given org expected).program root).run Memory.backend m).result =
      .ok reply) :
    (update secret given org expected).Leaves root m
      (((update secret given org expected).program root).run Memory.backend m).state := by
  rw [program] at h ⊢
  cases hread : Changes.read given with
  | faulty faults =>
    rw [hread] at h
    cases h
  | ok changes =>
    rw [hread] at h
    obtain ⟨t, ht, hstate⟩ := Program.run_map_ok
      (p := Vault.update root secret changes org expected) (f := Reply.id) h
    obtain ⟨row, r, key, v, fields, hwrote⟩ := Vault.exists_wrote hm ht
    obtain ⟨before, after, hbefore, hrows, hput⟩ := Assoc.exists_put_split hwrote.found
    refine ⟨changes, key, row, _, before, after, hread, ?_, hbefore, hrows, ?_,
      patched_overlay hwrote.reads hwrote.version hwrote.seals⟩
    · exact congrArg Prod.fst (Program.effect_settled (hwrote.resolves m.nonces))
    · exact (congrArg (·.rows) hstate).trans (hwrote.rows.trans (hput _))

/-- On a store whose versions are integers, whatever else is in its rows, a request that succeeds
leaves the keys as they were, and of the rows what it is not for. A creation under an id that is
not in use adds one row at the end. An update replaces the row under its id in its place, and in
it the version, which is counted up, and the columns of the provided attributes, each three at
once. A delete takes the row under its id away, and the others keep their order. All else reads:
no row is written, not even to be left as it was. -/
theorem successful_requests_frame (root : Bytes) (m : Memory) (hm : m.HasIntegerVersions)
    (r : Request) (reply : Reply)
    (h : ((r.program root).run Memory.backend m).result = .ok reply) :
    let m' := ((r.program root).run Memory.backend m).state
    m'.keys = m.keys ∧ r.Leaves root m m' := by
  refine ⟨Program.run_keys .., ?_⟩
  have reads (hr : r.IsReading) : Spared m ((r.program root).run Memory.backend m).state :=
    (Program.run_reads (reading_ensures root hr) ⟨rfl, rfl⟩).1
  cases r with
  | get | list | resolve => exact reads trivial
  | create secret org user => exact create_leaves h
  | update secret given org expected => exact update_leaves hm h
  | delete secret => exact delete_leaves h

end Request

/-- The hypotheses hold of a row without fields, of which the title alone is updated. -/
theorem title_update_keeps_the_rest : ∃ record, OrgKey.Wraps Cabinet.key Cabinet.key record ∧
    let m := Cabinet.store record aes256Gcm
    let o := ((Request.update (.text "s1") (.map [("title", .text "t")]) (.text "o1") none).program
      Cabinet.key.bytes).run Memory.backend m
    m.HasIntegerVersions ∧ o.result = .ok (.id "s1") ∧
      ∃ row, o.state.rows = [(("s1" : Text), row)] ∧ Holds row "version" (· = .int 2) := by
  obtain ⟨record, hrecord⟩ := OrgKey.exists_wraps Cabinet.key Cabinet.key
  let m := Cabinet.store record aes256Gcm
  let changes : Changes := ⟨some "t", none, none, none⟩
  have hupdate : ((Vault.update Cabinet.key.bytes (.text "s1") changes (.text "o1") none).run
      Memory.backend m).result = .ok "s1" :=
    Vault.exists_update_ok rfl (by decide) rfl (Cabinet.reads aes256Gcm) rfl ⟨_, rfl, rfl⟩ rfl
      (Cabinet.settles hrecord aes256Gcm)
  have h : (((Request.update (.text "s1") (.map [("title", .text "t")]) (.text "o1") none).program
      Cabinet.key.bytes).run Memory.backend m).result = .ok (.id "s1") := by
    have hmap := congrArg (·.result) (Program.run_map Memory.backend
      (Vault.update Cabinet.key.bytes (.text "s1") changes (.text "o1") none) Reply.id m)
    rw [hupdate] at hmap
    exact hmap
  refine ⟨record, hrecord, Cabinet.versions record _, h, ?_⟩
  obtain ⟨-, _, _, row, row', before, after, -, -, -, hrows, hrows', hpatched⟩ :=
    Request.successful_requests_frame Cabinet.key.bytes m (Cabinet.versions record _) _ _ h
  obtain ⟨v, hv, hv'⟩ := hpatched.version
  cases before with
  | nil =>
    cases hrows
    obtain ⟨_, hfound, hint⟩ := hv
    cases hfound
    cases hint
    exact ⟨row', hrows', hv'⟩
  | cons first before =>
    have hlength := congrArg List.length hrows
    simp [m, Cabinet.store] at hlength

end EnvelopeVault
