import EnvelopeVault.Proofs.Atomic

/-!
# Failed requests change nothing

`failed_requests_change_nothing`: a request that fails has left all rows and
keys as they were, and only a delete has tried to write at all. A request reads
as long as it can fail; once it writes, it succeeds (`Spares`).
-/

namespace EnvelopeVault

open Layout

def Access.IsRead : Access → Prop
  | .findKey _ | .fetch _ | .fetchFiltered .. => True
  | _ => False

namespace Memory

variable {m : Memory} {row : Row}

/-- The same contents after the same number of writes. -/
structure Spared (m m' : Memory) : Prop where
  contents : m'.contents = m.contents
  writes : m'.writes = m.writes

-- ---------------------------------------------------------------------------
-- Rows hold their ids
-- ---------------------------------------------------------------------------

def HasIds (m : Memory) : Prop :=
  ∀ name row, m.rows.get? name = some row → (row.get? "id").isSome

namespace HasIds

theorem put (h : m.HasIds) (name : Text) (hrow : (row.get? "id").isSome) :
    HasIds { m with rows := m.rows.put name row } := by
  intro other found hfound
  rw [Assoc.get?_put] at hfound
  split at hfound
  · cases hfound
    exact hrow
  · exact h other found hfound

theorem putRow (h : m.HasIds) (cells : Row) : (m.putRow cells).2.HasIds := by
  cases hid : (Assoc.putAll blankRow cells).get? "id" with
  | some id =>
    simp only [Memory.putRow, withId, hid]
    exact h.put _ (by rw [hid, Option.isSome_some])
  | none =>
    simp only [Memory.putRow, withId, hid]
    exact h.put _ (by rw [Assoc.get?_put, if_pos rfl, Option.isSome_some])

theorem answer (h : m.HasIds) (a : Access) : (Memory.answer a m).2.HasIds := by
  have hc : m.counted.HasIds := h
  cases a with
  | insert cells => exact hc.putRow cells
  | update secret columns expected =>
    simp only [Memory.answer, updateRow]
    split
    · exact hc
    · rename_i row hrow
      have hid := Assoc.isSome_get?_putAll (hc _ _ hrow) columns
      split
      · split
        · refine hc.put _ ?_
          rwa [Assoc.get?_put, if_neg (by decide)]
        · exact hc.put _ hid
      · exact hc
  | delete secret =>
    intro name row hrow
    simp only [Memory.answer, deleteRow, Assoc.get?_erase] at hrow
    split at hrow
    · cases hrow
    · exact h name row hrow
  | _ => exact h

theorem run {α : Type} (p : Program α) (h : m.HasIds) : (p.run backend m).state.HasIds := by
  induction p generalizing m with
  | done result => exact h
  | note line next ih => exact ih h
  | draw next ih => exact ih _ h
  | access a next ih =>
    have ha := h.answer a
    simp only [Program.run, backend]
    generalize Memory.answer a m = o at ha ⊢
    obtain ⟨_ | answer, s⟩ := o
    · exact ha
    · exact ih answer ha

end HasIds
end Memory

namespace Program

open Memory (Spared)

variable {α β : Type} {m m' : Memory} {G : Except Failure α → Prop}

-- ---------------------------------------------------------------------------
-- Programs that read
-- ---------------------------------------------------------------------------

theorem run_reads {p : Program α} (hp : p.Ensures Access.IsRead G) (h : Spared m m') :
    Spared m (p.run Memory.backend m').state ∧
      ∀ a, (p.run Memory.backend m').result = .ok a → G (.ok a) := by
  induction p generalizing m' with
  | done result =>
    refine ⟨h, fun a ha => ?_⟩
    cases ha
    exact hp
  | note line next ih => exact ih hp h
  | draw next ih => exact ih _ (hp _) ⟨h.contents, h.writes⟩
  | access a next ih =>
    obtain ⟨ha, hnext⟩ := hp
    have hs : Spared m (Memory.answer a m').2 := by
      cases a with
      | findKey | fetch | fetchFiltered => exact ⟨h.contents, h.writes⟩
      | _ => cases ha
    simp only [run, Memory.backend]
    generalize Memory.answer a m' = o at hs ⊢
    obtain ⟨_ | answer, s⟩ := o
    · refine ⟨hs, fun a ha => ?_⟩
      cases ha
    · exact ih answer (hnext answer) hs

/-- A program that leaves a store as it was if it fails. -/
def Spares (m : Memory) (p : Program α) : Prop :=
  ∀ m', Spared m m' → ∀ e, (p.run Memory.backend m').result = .error e →
    Spared m (p.run Memory.backend m').state

namespace Spares

theorem reads {p : Program α} (hp : p.Ensures Access.IsRead G) : Spares m p :=
  fun _ h _ _ => (run_reads hp h).1

theorem succeeds {p : Program α}
    (hp : ∀ m', Spared m m' → ∃ a, (p.run Memory.backend m').result = .ok a) : Spares m p := by
  intro m' h e he
  obtain ⟨a, ha⟩ := hp m' h
  rw [ha] at he
  cases he

theorem bind_reads {p : Program α} {f : α → Program β} (hp : p.Ensures Access.IsRead G)
    (hf : ∀ a, G (.ok a) → Spares m (f a)) : Spares m (p.bind f) := by
  intro m' h e he
  obtain ⟨hs, hG⟩ := run_reads hp h
  rw [run_bind] at he ⊢
  generalize p.run Memory.backend m' = o at hs hG he ⊢
  obtain ⟨_ | a, log, s⟩ := o
  · exact hs
  · exact hf a (hG a rfl) s hs e he

theorem map {p : Program α} (hp : Spares m p) (f : α → β) :
    Spares m (p.bind fun a => .done (.ok (f a))) := by
  intro m' h e he
  have hs := hp m' h
  rw [run_bind] at he ⊢
  generalize p.run Memory.backend m' = o at hs he ⊢
  obtain ⟨e' | a, log, s⟩ := o
  · exact hs e' rfl
  · cases he

theorem fetch {secret : Value} {next : Option Value → Program α}
    (hn : Spares m (next ((m.rows.get? secret.toText).map .map))) :
    Spares m (.access (.fetch secret) next) := by
  intro m' h
  rw [← Memory.rows_congr h.contents] at hn
  exact hn m' h

end Spares
end Program

-- ---------------------------------------------------------------------------
-- Requests
-- ---------------------------------------------------------------------------

open Program (Spares)

variable {m : Memory} {root : Bytes} {secret org user : Value} {expected : Option Value}

theorem Vault.create_spares (draft : Draft) : Spares m (create root draft org user) := by
  refine .bind_reads (OrgKey.resolve_ensures root trivial) fun key _ => ?_
  refine .bind_reads (Sealing.encryptAll_ensures key _) fun fields hnames => ?_
  have hf : (Assoc.names fields).Nodup := by
    rw [show Assoc.names fields = _ from hnames, names_texts]
    decide
  have hid := get?_newRow_plain hf org user (show isPlain "id" by decide)
  refine .succeeds fun m' _ => ?_
  have hcell : cellOf (.map (Memory.insertedRow m'.nextId (newRow org user fields))) "id" =
      .ok m'.nextId := cell_eq_ok_iff.mpr (Memory.get?_insertedRow_id ..)
  rw [Program.bind_eq, Program.call_bind, Program.run_answer (Memory.answer_insert hid), hcell]
  exact ⟨_, rfl⟩

theorem Vault.update_spares (hm : m.HasIntegerVersions) (changes : Changes) :
    Spares m (update root secret changes org expected) := by
  cases hp : changes.provided.isEmpty with
  | true =>
    rw [update, if_pos hp]
    exact .reads (G := fun _ => True) trivial
  | false =>
    rw [update_eq hp]
    refine .fetch ?_
    rw [proceed]
    split
    · exact .reads (G := fun _ => True) trivial
    · rename_i ha
      obtain ⟨row, r, v, hrow, hr, -, hv, he⟩ := row_of_admits hm ha
      rw [writeChanges_eq]
      refine .bind_reads (sealChanges_ensures root changes trivial) fun fields hf => ?_
      refine .succeeds fun m' h => ?_
      rw [← Memory.rows_congr h.contents] at hrow
      obtain ⟨id, hid, -⟩ := hr.id.congr (overlay_plain hf row (v + 1) "id" (by decide) (by decide))
      have hcell : cellOf (.map (overlay row fields (v + 1))) "id" = .ok id :=
        cell_eq_ok_iff.mpr hid
      rw [Program.run_answer (Memory.answer_update_written hrow hv hf he), conclude, hcell]
      exact ⟨_, rfl⟩

namespace Request

def IsReading : Request → Prop
  | .get .. | .list .. | .resolve _ => True
  | _ => False

theorem reading_ensures (root : Bytes) {r : Request} (hr : r.IsReading) :
    (r.program root).Ensures Access.IsRead fun _ => True := by
  cases r with
  | create | update | delete => cases hr
  | get secret org =>
    refine ((Vault.get_brief root secret org).ensures ?_ ?_).bind_any fun _ => trivial
    · rintro _ ⟨_, rfl⟩
      trivial
    · rintro _ rfl
      trivial
  | list org user =>
    refine ((Vault.list_brief root org user).ensures ?_ ?_).bind_any fun _ => trivial
    · rintro _ ⟨_, rfl⟩
      trivial
    · rintro _ rfl
      trivial
  | resolve org =>
    exact (OrgKey.resolve_ensures root trivial).bind (fun _ _ => trivial) fun _ _ => trivial

theorem spares (hm : m.HasIntegerVersions) {r : Request} (hr : ∀ secret, r ≠ .delete secret) :
    Spares m (r.program root) := by
  cases r with
  | create secret org user =>
    refine .bind_reads (p := .ofExcept _) (G := fun _ => True) trivial fun draft _ => ?_
    exact (Vault.create_spares draft).map Reply.id
  | get | list | resolve => exact .reads (reading_ensures root trivial)
  | update secret changes org expected =>
    refine .bind_reads (p := .ofExcept _) (G := fun _ => True) trivial fun changes _ => ?_
    exact (Vault.update_spares hm changes).map Reply.id
  | delete secret => exact absurd rfl (hr secret)

theorem delete_error (hm : m.HasIds)
    (h : (((delete secret).program root).run Memory.backend m).result = .error e) :
    (((delete secret).program root).run Memory.backend m).state.contents = m.contents := by
  rw [program, Vault.delete, Program.bind_eq, Program.bind_eq, Program.call_bind, Program.bind,
    Program.run_answer (Memory.answer_delete ..)] at h ⊢
  cases hrow : m.rows.get? secret.toText with
  | none =>
    rw [Assoc.erase_of_not_mem (Assoc.get?_eq_none_iff.mp hrow)]
    rfl
  | some row =>
    obtain ⟨id, hid⟩ := Option.isSome_iff_exists.mp (hm _ row hrow)
    have hcell : cellOf (.map row) "id" = .ok id := cell_eq_ok_iff.mpr hid
    rw [hrow, Option.map_some] at h
    simp only [hcell] at h
    cases h

end Request

/-- A request that fails leaves the rows, their order and all of their columns as they were, and
the keys too, whatever rows and keys there are and whatever is asked. Only a delete has counted as
a write: an update that is refused by the store does not occur where nobody else writes. Ids are
texts or UUIDs, in requests as in rows: a number of too many digits (`Value.isWritable`) is no
id. -/
theorem failed_requests_change_nothing (root : Bytes) (m : Memory)
    (hversions : m.HasIntegerVersions) (hids : m.HasIds) (r : Request) (e : Failure)
    (h : ((r.program root).run Memory.backend m).result = .error e) :
    let after := ((r.program root).run Memory.backend m).state
    after.rows = m.rows ∧ after.keys = m.keys ∧ after.planned = m.planned ∧
      (after.writes = m.writes ∨ ∃ secret, r = .delete secret) := by
  have unchanged {after : Memory} (hc : after.contents = m.contents) :
      after.rows = m.rows ∧ after.keys = m.keys ∧ after.planned = m.planned :=
    ⟨Memory.rows_congr hc, congrArg (·.keys) hc, congrArg (·.planned) hc⟩
  by_cases hr : ∃ secret, r = .delete secret
  · obtain ⟨secret, rfl⟩ := hr
    obtain ⟨hrows, hkeys, hplanned⟩ := unchanged (Request.delete_error hids h)
    exact ⟨hrows, hkeys, hplanned, .inr ⟨secret, rfl⟩⟩
  · have hs := Request.spares hversions (fun secret hd => hr ⟨secret, hd⟩) m ⟨rfl, rfl⟩ e h
    obtain ⟨hrows, hkeys, hplanned⟩ := unchanged hs.contents
    exact ⟨hrows, hkeys, hplanned, .inl hs.writes⟩

/-- The hypotheses hold of a store with a row, where an update fails because the organization has
no key. -/
theorem keyless_update_changes_nothing :
    let o := (((Race.requests 0).program []).run Memory.backend Race.store)
    (∃ e, o.result = .error e) ∧ o.state.rows = Race.store.rows := by
  refine ⟨⟨_, rfl⟩, ?_⟩
  refine (failed_requests_change_nothing [] Race.store Race.store_versions ?_ (Race.requests 0) _
    rfl).1
  intro id row h
  obtain ⟨-, rfl⟩ := Prod.mk.inj (List.mem_singleton.mp (Assoc.mem_of_get? h))
  rfl

end EnvelopeVault
