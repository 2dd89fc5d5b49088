import EnvelopeVault.Proofs.Layout
import EnvelopeVault.Store.Pool

/-!
# The statement of an access, and what it binds

An access is one statement, unless an update is refused before
(`Access.IsIssued`). The column list of an insertion or an update is read against
the arguments, each column through the place that stands for it
(`Query.bindings`). An update binds the columns that it was given, in their
order, and takes the columns of attributes only; an insertion binds those cells
of the row that have a column.
-/

namespace EnvelopeVault

namespace Assoc

theorem map_get? {m : Assoc α} (h : m.names.Nodup) :
    (m.names.map fun name => (name, m.get? name)) = m.map fun cell => (cell.1, some cell.2) := by
  induction m with
  | nil => rfl
  | cons pair rest ih =>
    obtain ⟨name, value⟩ := pair
    obtain ⟨hn, hr⟩ := List.nodup_cons.mp h
    have hrest : ((names rest).map fun other => (other, get? ((name, value) :: rest) other)) =
        (names rest).map fun other => (other, get? rest other) := by
      refine List.map_congr_left fun other ho => ?_
      rw [get?, if_neg (ne_of_mem_of_not_mem ho hn).symm]
    rw [names_cons, List.map_cons, hrest, ih hr]
    simp [get?]

end Assoc

namespace Query

def argument? (q : Query) : Nat → Option Value
  | 0 => none
  | n + 1 => q.args[n]?

/-- The columns that a statement gives values to, each with the argument at its place. -/
def bindings (q : Query) : List (Text × Option Value) :=
  match q.sql with
  | .insert columns => columns.zip ((Sql.insertPlaces columns).map q.argument?)
  | .update columns _ => (Sql.assignments columns).map fun (name, n) => (name, q.argument? n)
  | _ => []

-- ---------------------------------------------------------------------------
-- Insertions
-- ---------------------------------------------------------------------------

theorem bindings_insert (row : Row) :
    (insert row).bindings =
      (Sql.insertColumns.filter row.has).map fun name => (name, row.get? name) := by
  have hrow (name : Text) (h : name ∈ Sql.insertColumns.filter row.has) :
      some ((row.get? name).getD .null) = row.get? name := by
    have hhas := (List.mem_filter.mp h).2
    rw [Assoc.has, Option.isSome_iff_exists] at hhas
    obtain ⟨v, hv⟩ := hhas
    rw [hv]
    rfl
  simp only [bindings, insert]
  generalize Sql.insertColumns.filter row.has = columns at hrow
  refine List.ext_getElem (by simp [Sql.insertPlaces]) fun i hi _ => ?_
  have hi : i < columns.length := by simpa [Sql.insertPlaces] using hi
  have harg := hrow columns[i] (List.getElem_mem hi)
  simp [Sql.insertPlaces, argument?, hi, harg, Nat.add_comm 1 i]

theorem bindings_insert_all {row : Row} (h : row.names = Sql.insertColumns) :
    (insert row).bindings = row.map fun cell => (cell.1, some cell.2) := by
  have hn : row.names.Nodup := by
    rw [h]
    decide
  have hall : Sql.insertColumns.filter row.has = row.names := by
    rw [← h, List.filter_eq_self]
    intro name hm
    rw [Assoc.has, Option.isSome_iff_ne_none, ne_eq, Assoc.get?_eq_none_iff]
    exact fun hnot => hnot hm
  rw [bindings_insert, hall, Assoc.map_get? hn]

-- ---------------------------------------------------------------------------
-- Updates
-- ---------------------------------------------------------------------------

theorem bindings_update (h : update secret columns expected = .ok q) :
    q.bindings = columns.map fun cell => (cell.1, some cell.2) := by
  unfold update at h
  simp only at h
  split at h
  · cases h
  split at h
  · cases h
  cases h
  refine List.ext_getElem (by simp [bindings, Sql.assignments, Assoc.names]) fun i hi _ => ?_
  have hi : i < columns.length := by simpa [bindings, Sql.assignments, Assoc.names] using hi
  simp [bindings, Sql.assignments, Assoc.names, argument?, Nat.add_comm 2 i, hi,
    List.getElem?_append_left]

theorem names_columnsOf {fields : Assoc Field} (h : fields.names.Nodup) :
    (Layout.columnsOf fields).names =
      fields.names.flatMap fun name => Part.all.map (column name) := by
  rw [Layout.columnsOf_eq h]
  clear h
  induction fields with
  | nil => rfl
  | cons pair rest ih =>
    rw [List.flatMap_cons, Assoc.names, List.map_append, Assoc.names_cons, List.flatMap_cons, ← ih]
    rfl

theorem update_of_known {columns : Row} (hne : columns ≠ [])
    (hknown : ∀ name ∈ columns.names, name ∈ Layout.encryptedColumns)
    (secret : Value) (expected : Option Value) :
    update secret columns expected = .ok ⟨.row, .update columns.names expected.isSome,
      secret :: (columns.map (·.2) ++ expected.toList)⟩ := by
  have hunknown : columns.names.filter
      (fun name => !Layout.encryptedColumns.contains name) = [] :=
    List.filter_eq_nil_iff.mpr fun name hm => by simpa using hknown name hm
  rw [update, hunknown, List.isEmpty_eq_false_iff.mpr hne]
  rfl

theorem exists_update {fields : Assoc Field} (hn : fields.names.Nodup)
    (hne : fields ≠ []) (hf : ∀ name ∈ fields.names, ∃ a : Attribute, name = a.name)
    (secret : Value) (expected : Option Value) :
    ∃ q, update secret (Layout.columnsOf fields) expected = .ok q := by
  have hnames := names_columnsOf hn
  refine ⟨_, update_of_known (fun hnil => ?_) (fun name hm => ?_) secret expected⟩
  · rw [hnil] at hnames
    cases fields with
    | nil => exact hne rfl
    | cons pair rest => cases hnames
  · rw [hnames] at hm
    obtain ⟨field, hfield, hm⟩ := List.mem_flatMap.mp hm
    obtain ⟨a, rfl⟩ := hf field hfield
    exact List.mem_flatMap.mpr ⟨a, by cases a <;> decide, hm⟩

end Query

-- ---------------------------------------------------------------------------
-- Accesses
-- ---------------------------------------------------------------------------

namespace Access

def statement : Access → Except Failure Query
  | .findKey org => .ok (.selectKey org)
  | .fetch secret => .ok (.selectById secret)
  | .fetchFiltered org user requireData => .ok (.selectFiltered org user requireData)
  | .insert row => .ok (.insert row)
  | .update secret columns expected => Query.update secret columns expected
  | .delete secret => .ok (.deleteById secret)

/-- Whether the access gets to the database at all. -/
def IsIssued (a : Access) : Prop := ∃ q, a.statement = .ok q

end Access
end EnvelopeVault
