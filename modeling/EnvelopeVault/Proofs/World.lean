import EnvelopeVault.Proofs.Memory

/-!
# The store among several callers

Between two accesses of one caller the others may write. `Evolves` says what
they can have done meanwhile: key records stay, rows that are gone stay gone,
and a row that is left has its owner, its times and its labels still, each field
as it was or as three new texts, and a version that is no smaller. One access
moves a store along in this way (`World.after_evolves`), so any number of them
does.
-/

namespace EnvelopeVault
namespace Layout

-- ---------------------------------------------------------------------------
-- Rows
-- ---------------------------------------------------------------------------

/-- What updates make of a row. -/
structure Succeeds (row row' : Row) : Prop where
  plain : SamePlain row row'
  version : ∃ v v' : Int, Holds row "version" (· = .int v) ∧
    Holds row' "version" (· = .int v') ∧ v ≤ v'
  fields : ∀ a : Attribute,
    (∀ part, row'.get? (column a.name part) = row.get? (column a.name part)) ∨
      ∃ f : Field, ∀ part, row'.get? (column a.name part) = some (.text (f.get part))

variable {row row' row'' : Row}

theorem Succeeds.refl (hv : Holds row "version" (· = .int v)) : Succeeds row row where
  plain _ _ _ := rfl
  version := ⟨v, v, hv, hv, Int.le_refl v⟩
  fields _ := .inl fun _ => rfl

theorem Succeeds.trans (h : Succeeds row row') (h' : Succeeds row' row'') :
    Succeeds row row'' where
  plain name hn hne := (h'.plain name hn hne).trans (h.plain name hn hne)
  version := by
    obtain ⟨u, v, hu, hv, huv⟩ := h.version
    obtain ⟨v', w, hv', hw, hvw⟩ := h'.version
    cases hv.unique hv'
    exact ⟨u, w, hu, hw, Int.le_trans huv hvw⟩
  fields a := by
    rcases h'.fields a with hsame | hnew
    · rcases h.fields a with hsame' | ⟨f, hf⟩
      · exact .inl fun part => (hsame part).trans (hsame' part)
      · exact .inr ⟨f, fun part => (hsame part).trans (hf part)⟩
    · exact .inr hnew

theorem Succeeds.overlay {fields : Assoc Field} (hf : fields.names.Nodup)
    (hv : Holds row "version" (· = .int v)) : Succeeds row (overlay row fields (v + 1)) where
  plain := overlay_plain hf row _
  version := ⟨v, v + 1, hv, overlay_version row _, by omega⟩
  fields a := by
    cases hg : fields.get? a.name with
    | none =>
      exact .inl fun part => by rw [get?_overlay_column hf, hg, Option.map_none, Option.none_or]
    | some f => exact .inr ⟨f, fun part => by rw [get?_overlay_column hf, hg]; rfl⟩

theorem Succeeds.version_le (h : Succeeds row row') (hv : Holds row "version" (· = .int v))
    (hv' : Holds row' "version" (· = .int v')) : v ≤ v' := by
  obtain ⟨u, u', hu, hu', hle⟩ := h.version
  cases hv.unique hu
  cases hv'.unique hu'
  exact hle

/-- A row that could be read can be read after any number of updates. -/
theorem Succeeds.reads (h : Succeeds row row') (hr : Reads row r) :
    ∃ r', Reads row' r' ∧ r'.orgId = r.orgId := by
  obtain ⟨_, v', -, hv', -⟩ := h.version
  have hfields : ∀ a : Attribute, ∃ field?, FieldReads row' a field? := by
    intro a
    rcases h.fields a with hsame | ⟨f, hf⟩
    · exact ⟨_, (hr.fields a).congr hsame⟩
    · exact ⟨_, .texts hf⟩
  obtain ⟨fields, hfields⟩ := Classical.axiomOfChoice hfields
  refine ⟨{ r with fields := .ofFn fields, version := v' }, hr.change h.plain hv'.integer ?_, rfl⟩
  intro a
  rw [Attributes.get_ofFn]
  exact hfields a

end Layout

open Layout

-- ---------------------------------------------------------------------------
-- Stores
-- ---------------------------------------------------------------------------

/-- A store, with every id that a row of it ever had. -/
structure World where
  memory : Memory
  used : List Text

namespace World

def start (m : Memory) : World := ⟨m, m.rows.names⟩

def after (w : World) (a : Access) : World :=
  let m := (Memory.answer a w.memory).2
  ⟨m, m.rows.names ++ w.used⟩

structure Sound (w : World) : Prop where
  used : ∀ id ∈ w.memory.rows.names, id ∈ w.used
  versions : w.memory.HasIntegerVersions

/-- What accesses can make of a store. -/
structure Evolves (w w' : World) : Prop where
  keys : w'.memory.keys = w.memory.keys
  used : ∀ id ∈ w.used, id ∈ w'.used
  rows : ∀ id ∈ w.used, ∀ row', w'.memory.rows.get? id = some row' →
    ∃ row, w.memory.rows.get? id = some row ∧ Succeeds row row'

theorem Sound.start {m : Memory} (h : m.HasIntegerVersions) : (World.start m).Sound :=
  ⟨fun _ hid => hid, h⟩

variable {w w' w'' : World}

theorem Evolves.refl (h : w.Sound) : w.Evolves w where
  keys := rfl
  used _ hid := hid
  rows id _ row hrow := by
    obtain ⟨v, hv⟩ := h.versions id row hrow
    exact ⟨row, hrow, .refl hv⟩

theorem Evolves.trans (h : w.Evolves w') (h' : w'.Evolves w'') : w.Evolves w'' where
  keys := h'.keys.trans h.keys
  used id hid := h'.used id (h.used id hid)
  rows id hid row'' hrow'' := by
    obtain ⟨row', hrow', hs'⟩ := h'.rows id (h.used id hid) row'' hrow''
    obtain ⟨row, hrow, hs⟩ := h.rows id hid row' hrow'
    exact ⟨row, hrow, hs.trans hs'⟩

/-- An id without a row that was in use once, or that is in use, has no row later on. -/
theorem Evolves.absent {id : Text} (h : w.Evolves w') (hid : id ∈ w.used)
    (hn : w.memory.rows.get? id = none) : w'.memory.rows.get? id = none := by
  cases hg : w'.memory.rows.get? id with
  | none => rfl
  | some row' =>
    obtain ⟨row, hrow, -⟩ := h.rows id hid row' hg
    rw [hn] at hrow
    cases hrow

end World

-- ---------------------------------------------------------------------------
-- Accesses
-- ---------------------------------------------------------------------------

/-- Inserts leave the id and the version to the store, updates write columns of fields only. -/
def Access.IsOrderly : Access → Prop
  | .insert row => row.get? "id" = none ∧ row.get? "version" = none
  | .update _ columns _ => ∃ fields : Assoc Field, fields.names.Nodup ∧ columns = columnsOf fields
  | _ => True

def Access.IsFresh (w : World) : Access → Prop
  | .insert _ => w.memory.nextId.toText ∉ w.used
  | _ => True

/-- Whether an answer says that an update was taken. -/
def Access.isTaken : (a : Access) → a.Answer → Bool
  | .update .., answer => answer.isSome
  | _, _ => false

def Access.took (m : Memory) (a : Access) : Bool :=
  match (Memory.answer a m).1 with
  | .ok answer => a.isTaken answer
  | .error _ => false

def Access.writes (m : Memory) (id : Text) (a : Access) : Bool :=
  match a with
  | .update secret .. => secret.toText == id && a.took m
  | _ => false

theorem Access.writes_of_took {a : Access} (h : a.took m = true) :
    ∃ secret columns expected, a = .update secret columns expected ∧
      a.writes m secret.toText = true := by
  cases a with
  | update secret columns expected =>
    refine ⟨secret, columns, expected, rfl, ?_⟩
    rw [writes, BEq.rfl, Bool.true_and, h]
  | _ =>
    unfold took at h
    split at h <;> cases h

namespace World

variable {w : World} {a : Access} {id : Text}

theorem of_writes (hs : w.Sound) (ha : a.IsOrderly) (h : a.writes w.memory id = true) :
    ∃ (secret : Value) (fields : Assoc Field) (expected : Option Value) (row : Row) (v : Int),
      a = .update secret (columnsOf fields) expected ∧ secret.toText = id ∧
      fields.names.Nodup ∧ w.memory.rows.get? id = some row ∧
      Holds row "version" (· = .int v) ∧ expected.all (·.isNumber v) = true ∧
      (w.after a).memory.rows = w.memory.rows.put id (overlay row fields (v + 1)) := by
  cases a with
  | update secret columns expected =>
    obtain ⟨fields, hn, rfl⟩ := ha
    simp only [Access.writes, Bool.and_eq_true, beq_iff_eq] at h
    obtain ⟨rfl, h⟩ := h
    cases hg : w.memory.rows.get? secret.toText with
    | none =>
      rw [Access.took, Memory.answer_update_absent hg] at h
      cases h
    | some row =>
      obtain ⟨v, hv⟩ := hs.versions _ row hg
      cases he : expected.all (·.isNumber v) with
      | false =>
        rw [Access.took, Memory.answer_update_refused hg hv he] at h
        cases h
      | true =>
        refine ⟨secret, fields, expected, row, v, rfl, rfl, hn, rfl, hv, he, ?_⟩
        rw [after, Memory.answer_update_written hg hv hn he]
  | _ => cases h

theorem contents_of_refused {secret : Value} (hs : w.Sound)
    (ha : (Access.update secret columns expected).IsOrderly)
    (h : (Access.update secret columns expected).took w.memory = false) :
    (w.after (.update secret columns expected)).memory.contents = w.memory.contents := by
  obtain ⟨fields, hn, rfl⟩ := ha
  cases hg : w.memory.rows.get? secret.toText with
  | none =>
    rw [after, Memory.answer_update_absent hg]
    rfl
  | some row =>
    obtain ⟨v, hv⟩ := hs.versions _ row hg
    cases he : expected.all (·.isNumber v) with
    | false =>
      rw [after, Memory.answer_update_refused hg hv he]
      rfl
    | true =>
      rw [Access.took, Memory.answer_update_written hg hv hn he] at h
      cases h

/-- The rows after an access that is no update taken by the store are those before it, but for
a new one. -/
theorem of_not_writes (hs : w.Sound) (ha : a.IsOrderly) (h : a.writes w.memory id = false)
    (hrow : (w.after a).memory.rows.get? id = some row') :
    w.memory.rows.get? id = some row' ∨
      ∃ cells, a = .insert cells ∧ id = w.memory.nextId.toText ∧
        Holds row' "version" (· = .int 1) := by
  cases a with
  | insert cells =>
    simp only [after, Memory.answer_insert ha.1, Assoc.get?_put] at hrow
    split at hrow
    · rename_i hid
      cases hrow
      refine .inr ⟨cells, rfl, hid.symm, .int 1, ?_, rfl⟩
      rw [Memory.insertedRow, Assoc.get?_put, if_neg (by decide),
        Assoc.get?_putAll_of_not_mem (Assoc.get?_eq_none_iff.mp ha.2)]
      rfl
    · exact .inl hrow
  | update secret columns expected =>
    obtain ⟨fields, hn, rfl⟩ := ha
    cases hg : w.memory.rows.get? secret.toText with
    | none =>
      rw [after, Memory.answer_update_absent hg] at hrow
      exact .inl hrow
    | some row =>
      obtain ⟨v, hv⟩ := hs.versions _ row hg
      cases he : expected.all (·.isNumber v) with
      | false =>
        rw [after, Memory.answer_update_refused hg hv he] at hrow
        exact .inl hrow
      | true =>
        have hne : secret.toText ≠ id := by
          rintro rfl
          simp [Access.writes, Access.took, Memory.answer_update_written hg hv hn he,
            Access.isTaken] at h
        simp only [after, Memory.answer_update_written hg hv hn he, Assoc.get?_put,
          if_neg hne] at hrow
        exact .inl hrow
  | delete secret =>
    simp only [after, Memory.answer, Memory.deleteRow, Memory.counted, Assoc.get?_erase] at hrow
    split at hrow
    · cases hrow
    · exact .inl hrow
  | _ => exact .inl hrow

theorem after_rows (hs : w.Sound) (ha : a.IsOrderly) (hf : a.IsFresh w)
    (h : (w.after a).memory.rows.get? id = some row') :
    (id ∉ w.used ∧ Holds row' "version" (· = .int 1)) ∨
      ∃ row, w.memory.rows.get? id = some row ∧ Succeeds row row' := by
  cases hw : a.writes w.memory id with
  | true =>
    obtain ⟨_, fields, _, row, v, -, -, hn, hrow, hv, -, hafter⟩ := of_writes hs ha hw
    rw [hafter, Assoc.get?_put, if_pos rfl] at h
    cases h
    exact .inr ⟨row, hrow, .overlay hn hv⟩
  | false =>
    rcases of_not_writes hs ha hw h with hsame | ⟨cells, rfl, rfl, hv⟩
    · obtain ⟨v, hv⟩ := hs.versions id row' hsame
      exact .inr ⟨row', hsame, .refl hv⟩
    · exact .inl ⟨hf, hv⟩

theorem after_sound (hs : w.Sound) (ha : a.IsOrderly) (hf : a.IsFresh w) : (w.after a).Sound where
  used _ hid := List.mem_append_left _ hid
  versions id row' h := by
    rcases after_rows hs ha hf h with ⟨-, hv⟩ | ⟨row, -, hsucc⟩
    · exact ⟨1, hv⟩
    · obtain ⟨-, v, -, hv, -⟩ := hsucc.version
      exact ⟨v, hv⟩

theorem after_evolves (hs : w.Sound) (ha : a.IsOrderly) (hf : a.IsFresh w) :
    w.Evolves (w.after a) where
  keys := Memory.answer_keys a w.memory
  used _ hid := List.mem_append_right _ hid
  rows id hid row' h := by
    rcases after_rows hs ha hf h with ⟨hn, -⟩ | hrow
    · exact absurd hid hn
    · exact hrow

end World
end EnvelopeVault
