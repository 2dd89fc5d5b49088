import EnvelopeVault.Proofs.Layout
import EnvelopeVault.Store.Memory

/-!
# The store in memory, access by access

What each access finds and what it leaves behind. The counters and the nonces
of the store never matter to an answer (`answer_congr`), so states are compared
by their `contents`. Where versions are integers, every refusal leaves the
contents as they are and every update counts its row up by one.
-/

namespace EnvelopeVault

theorem Value.isNumber_unique {v : Value} (h : v.isNumber a = true) (h' : v.isNumber b = true) :
    a = b := by
  cases v <;> simp_all [isNumber]

namespace Memory

-- ---------------------------------------------------------------------------
-- Contents
-- ---------------------------------------------------------------------------

/-- What accesses are answered from: the counters are set back, the nonces forgotten. -/
def contents (m : Memory) : Memory :=
  { m with writes := 0, lookups := 0, nonces := Nonces.counting 0 }

@[simp] theorem contents_nonces (m : Memory) (n : Nonces) :
    contents { m with nonces := n } = m.contents := rfl

variable {m m' : Memory}

theorem rows_congr (h : m.contents = m'.contents) : m.rows = m'.rows := congrArg (·.rows) h

theorem answer_congr (h : m.contents = m'.contents) (a : Access) :
    (answer a m).1 = (answer a m').1 ∧ (answer a m).2.contents = (answer a m').2.contents := by
  obtain ⟨rows, keys, writes, lookups, plan, planned, nonces⟩ := m
  obtain ⟨rows', keys', writes', lookups', plan', planned', nonces'⟩ := m'
  simp only [contents, Memory.mk.injEq, true_and, and_true] at h
  obtain ⟨rfl, rfl, rfl, rfl⟩ := h
  cases a with
  | insert row =>
    simp only [answer, counted, putRow, withId]
    split <;> exact ⟨rfl, rfl⟩
  | update secret columns expected =>
    simp only [answer, counted, updateRow]
    split
    · exact ⟨rfl, rfl⟩
    · split
      · split <;> exact ⟨rfl, rfl⟩
      · exact ⟨rfl, rfl⟩
  | _ => exact ⟨rfl, rfl⟩

-- ---------------------------------------------------------------------------
-- Accesses
-- ---------------------------------------------------------------------------

/-- An access changes rows and counters, and may use up a new id. -/
theorem exists_answer_state (a : Access) (m : Memory) :
    ∃ rows writes lookups planned,
      (answer a m).2 = ⟨rows, m.keys, writes, lookups, m.plan, planned, m.nonces⟩ := by
  cases a with
  | insert row =>
    simp only [answer, counted, putRow, withId]
    split <;> exact ⟨_, _, _, _, rfl⟩
  | update secret columns expected =>
    simp only [answer, counted, updateRow]
    split
    · exact ⟨_, _, _, _, rfl⟩
    · split
      · split <;> exact ⟨_, _, _, _, rfl⟩
      · exact ⟨_, _, _, _, rfl⟩
  | _ => exact ⟨_, _, _, _, rfl⟩

theorem answer_keys (a : Access) (m : Memory) : (answer a m).2.keys = m.keys := by
  obtain ⟨_, _, _, _, h⟩ := exists_answer_state a m
  rw [h]

theorem answer_nonces (a : Access) (m : Memory) : (answer a m).2.nonces = m.nonces := by
  obtain ⟨_, _, _, _, h⟩ := exists_answer_state a m
  rw [h]

theorem answer_key (org : Value) (m : Memory) :
    answer (.findKey org) m =
      (.ok (m.keys.get? org.toText), { m with lookups := m.lookups + 1 }) := rfl

theorem answer_delete (secret : Value) (m : Memory) :
    answer (.delete secret) m =
      (.ok ((m.rows.get? secret.toText).map .map),
        { m.counted with rows := m.rows.erase secret.toText }) := rfl

theorem answer_fetchFiltered (org user : Text) (requireData : Bool) (m : Memory) :
    answer (.fetchFiltered (.text org) (.text user) requireData) m =
      ((select org user requireData (m.rows.map (·.2))).map fun rows => rows.map .map, m) := rfl

def insertedRow (id : Value) (cells : Row) : Row := (Assoc.putAll blankRow cells).put "id" id

theorem get?_insertedRow_id (id : Value) (cells : Row) :
    (insertedRow id cells).get? "id" = some id := by
  rw [insertedRow, Assoc.get?_put, if_pos rfl]

theorem get?_insertedRow {cells : Row} {name : Text} (hc : cells.names.Nodup) (id : Value)
    (h : "id" ≠ name) :
    (insertedRow id cells).get? name = (cells.get? name).or (blankRow.get? name) := by
  rw [insertedRow, Assoc.get?_put, if_neg h, Assoc.get?_putAll hc]

theorem answer_insert {row : Row} (h : row.get? "id" = none) :
    answer (.insert row) m =
      (.ok (.map (insertedRow m.nextId row)),
        { m with
          writes := m.writes + 1
          planned := m.planned + 1
          rows := m.rows.put m.nextId.toText (insertedRow m.nextId row) }) := by
  have hid : (Assoc.putAll blankRow row).get? "id" = none := by
    rw [Assoc.get?_putAll_of_not_mem (Assoc.get?_eq_none_iff.mp h)]
    rfl
  simp only [answer, putRow, withId, counted, hid]
  rfl

/-- The rows that can be found have integers as versions. -/
def HasIntegerVersions (m : Memory) : Prop :=
  ∀ id row, m.rows.get? id = some row → ∃ v : Int, Layout.Holds row "version" (· = .int v)

theorem isExpected_eq {row : Row} (hv : Layout.Holds row "version" (· = .int v)) :
    isExpected row expected = expected.all (·.isNumber v) := by
  obtain ⟨_, hg, rfl⟩ := hv
  cases expected <;> simp [isExpected, hg, Value.same]

section Update

variable {secret : Value} {fields : Assoc Field} {expected : Option Value}

theorem answer_update_absent (h : m.rows.get? secret.toText = none) :
    answer (.update secret columns expected) m = (.ok none, m.counted) := by
  simp [answer, updateRow, counted, h, Except.map]

variable {row : Row} (h : m.rows.get? secret.toText = some row)
  (hv : Layout.Holds row "version" (· = .int v))
include h hv

theorem answer_update_refused (he : expected.all (·.isNumber v) = false) :
    answer (.update secret columns expected) m = (.ok none, m.counted) := by
  simp [answer, updateRow, counted, h, isExpected_eq hv, he, Except.map]

theorem answer_update_written (hf : fields.names.Nodup)
    (he : expected.all (·.isNumber v) = true) :
    answer (.update secret (Layout.columnsOf fields) expected) m =
      (.ok (some (.map (Layout.overlay row fields (v + 1)))),
        { m.counted with
          rows := m.rows.put secret.toText (Layout.overlay row fields (v + 1)) }) := by
  obtain ⟨_, hg, rfl⟩ := hv
  have hcell : Layout.cell (row.putAll (Layout.columnsOf fields)) "version" = .ok (.int v) := by
    rw [Layout.cell_eq_ok_iff, Layout.get?_putColumns_plain hf (by decide), hg]
  simp only [answer, updateRow, counted, h, isExpected_eq ⟨_, hg, rfl⟩, he, if_true, hcell,
    Except.bind, nextVersion, Except.map, Option.map_some]
  rfl

end Update

end Memory
end EnvelopeVault
