import EnvelopeVault.Layout
import EnvelopeVault.Proofs.Assoc
import EnvelopeVault.Proofs.Program

/-!
# Reading rows, and overwriting their fields

`recordOf_eq_ok_iff`: a row gives a record exactly if every cell of the row
reads as what the record has in its place. Because the reading goes cell by
cell, overwriting the three columns of some attributes changes those attributes
of the record and nothing else (`Reads.change`).
-/

namespace EnvelopeVault

-- ---------------------------------------------------------------------------
-- Names of columns
-- ---------------------------------------------------------------------------

theorem column_inj : column name part = column other part' ↔ name = other ∧ part = part' := by
  constructor
  · intro h
    -- the last letter tells the part
    have hlast : part.suffix.getLast? = part'.suffix.getLast? := by
      have h := congrArg List.getLast? h
      rwa [column, column, List.getLast?_append, List.getLast?_append, Option.or_of_isSome,
        Option.or_of_isSome] at h
      · cases part' <;> decide
      · cases part <;> decide
    have hpart : part = part' := by
      cases part <;> cases part' <;> first | rfl | exact absurd hlast (by decide)
    subst hpart
    exact ⟨List.append_cancel_right h, rfl⟩
  · rintro ⟨rfl, rfl⟩
    rfl

namespace Checked

-- ---------------------------------------------------------------------------
-- Readers that succeed
-- ---------------------------------------------------------------------------

theorem map_eq_ok_iff {f : α → β} {c : Checked α} :
    f <$> c = .ok b ↔ ∃ a, c = .ok a ∧ f a = b := by
  cases c with
  | ok a => simp [Functor.map, map]
  | faulty faults => simp [Functor.map, map]

theorem seq_eq_ok_iff {f : Checked (α → β)} {c : Checked α} :
    f <*> c = .ok b ↔ ∃ g a, f = .ok g ∧ c = .ok a ∧ g a = b := by
  cases f <;> cases c <;> simp [Seq.seq, both]

theorem under_eq_ok_iff {c : Checked α} : c.under name = .ok a ↔ c = .ok a := by
  cases c <;> simp [under]

theorem ofChecked_eq_ok_iff {c : Checked α} : Failure.ofChecked model c = .ok a ↔ c = .ok a := by
  cases c <;> simp [Failure.ofChecked]

end Checked

namespace Layout

def isPlain (name : Text) : Bool := Part.all.all fun part => !part.suffix.isSuffixOf name

theorem ne_column (h : isPlain name) : name ≠ column field part := by
  rintro rfl
  have hm : part ∈ Part.all := by cases part <;> decide
  have hs := List.all_eq_true.mp h part hm
  rw [column, List.isSuffixOf_iff_suffix.mpr (List.suffix_append ..)] at hs
  cases hs

theorem get?_column_of_plain {row : Row} (h : row.names.all isPlain) :
    row.get? (column name part) = none := by
  rw [Assoc.get?_eq_none_iff]
  intro hm
  exact ne_column (List.all_eq_true.mp h _ hm) rfl

-- ---------------------------------------------------------------------------
-- The columns of fields
-- ---------------------------------------------------------------------------

theorem get?_fieldColumns (name other : Text) (f : Field) (part : Part) :
    (fieldColumns name f).get? (column other part) =
      if name = other then some (.text (f.get part)) else none := by
  by_cases h : name = other
  · cases part <;> simp [fieldColumns, Part.all, Assoc.get?, column_inj, h]
  · simp [fieldColumns, Part.all, Assoc.get?, column_inj, h]

theorem get?_fieldColumns_plain (h : isPlain name) : (fieldColumns field f).get? name = none := by
  rw [Assoc.get?_eq_none_iff]
  intro hm
  obtain ⟨pair, hp, rfl⟩ := List.mem_map.mp hm
  obtain ⟨part, -, rfl⟩ := List.mem_map.mp hp
  exact ne_column h rfl

theorem nodup_columns {fields : Assoc Field} (h : fields.names.Nodup) :
    (Assoc.names (fields.flatMap fun (name, f) => fieldColumns name f)).Nodup := by
  induction fields with
  | nil => exact List.nodup_nil
  | cons pair rest ih =>
    obtain ⟨name, f⟩ := pair
    obtain ⟨hn, hr⟩ := List.nodup_cons.mp h
    rw [List.flatMap_cons, Assoc.names, List.map_append]
    refine List.nodup_append.mpr ⟨?_, ih hr, ?_⟩
    · simp [fieldColumns, Part.all, column_inj]
    · rintro _ ha _ hb rfl
      obtain ⟨own, hown, rfl⟩ := List.mem_map.mp ha
      obtain ⟨part, -, rfl⟩ := List.mem_map.mp hown
      obtain ⟨later, hlater, heq⟩ := List.mem_map.mp hb
      obtain ⟨⟨other, g⟩, hmem, hcol⟩ := List.mem_flatMap.mp hlater
      obtain ⟨part', -, rfl⟩ := List.mem_map.mp hcol
      obtain ⟨rfl, -⟩ := column_inj.mp heq
      exact hn (List.mem_map.mpr ⟨_, hmem, rfl⟩)

theorem columnsOf_eq {fields : Assoc Field} (h : fields.names.Nodup) :
    columnsOf fields = fields.flatMap fun (name, f) => fieldColumns name f :=
  Assoc.putAll_eq_append (nodup_columns h)

theorem get?_columnsOf {fields : Assoc Field} (h : fields.names.Nodup) :
    (columnsOf fields).get? (column name part) =
      (fields.get? name).map fun f => .text (f.get part) := by
  rw [columnsOf_eq h]
  clear h
  induction fields with
  | nil => rfl
  | cons pair rest ih =>
    obtain ⟨other, f⟩ := pair
    rw [List.flatMap_cons, Assoc.get?_append, get?_fieldColumns, ih]
    by_cases hn : other = name <;> simp [Assoc.get?, hn]

theorem get?_columnsOf_plain {fields : Assoc Field} (h : fields.names.Nodup)
    (hn : isPlain name) : (columnsOf fields).get? name = none := by
  rw [columnsOf_eq h]
  clear h
  induction fields with
  | nil => rfl
  | cons pair rest ih =>
    rw [List.flatMap_cons, Assoc.get?_append, get?_fieldColumns_plain hn, ih, Option.or_self]

theorem nodup_names_columnsOf {fields : Assoc Field} (h : fields.names.Nodup) :
    (columnsOf fields).names.Nodup :=
  columnsOf_eq h ▸ nodup_columns h

theorem get?_putColumns {fields : Assoc Field} (h : fields.names.Nodup) (row : Row) :
    (row.putAll (columnsOf fields)).get? (column name part) =
      ((fields.get? name).map fun f => .text (f.get part)).or (row.get? (column name part)) := by
  rw [Assoc.get?_putAll (nodup_names_columnsOf h), get?_columnsOf h]

theorem get?_putColumns_plain {fields : Assoc Field} (h : fields.names.Nodup) (hn : isPlain name)
    (row : Row) : (row.putAll (columnsOf fields)).get? name = row.get? name := by
  rw [Assoc.get?_putAll (nodup_names_columnsOf h), get?_columnsOf_plain h hn, Option.none_or]

-- ---------------------------------------------------------------------------
-- Records of rows
-- ---------------------------------------------------------------------------

theorem cell_eq_ok_iff {row : Row} : cell row name = .ok v ↔ row.get? name = some v := by
  unfold cell
  split <;> simp_all

/-- A column of a row, with what its value has to satisfy. -/
def Holds (row : Row) (name : Text) (P : Value → Prop) : Prop :=
  ∃ v, row.get? name = some v ∧ P v

theorem Holds.congr {row row' : Row} (h : Holds row name P) (he : row'.get? name = row.get? name) :
    Holds row' name P := by
  rwa [Holds, he]

theorem Holds.unique {row : Row} (h : Holds row name (· = v)) (h' : Holds row name (· = w)) :
    v = w := by
  obtain ⟨_, hv, rfl⟩ := h
  obtain ⟨_, hw, rfl⟩ := h'
  exact Option.some.inj (hv.symm.trans hw)

theorem Holds.integer {row : Row} (h : Holds row name (· = .int n)) :
    Holds row name fun v => Checked.integer v = .ok n := by
  obtain ⟨_, hv, rfl⟩ := h
  exact ⟨_, hv, rfl⟩

/-- What the columns of an attribute hold: three nulls, or three parts of a field. -/
def FieldReads (row : Row) (a : Attribute) (field? : Option Field) : Prop :=
  ∃ parts : Triple Value, (∀ part, row.get? (column a.name part) = some (parts.get part)) ∧
    match field? with
    | none => ∀ part, (parts.get part).isNull = true
    | some f => (∀ part, (parts.get part).isNull = false) ∧ Field.ofParts parts = .ok f

theorem partsOf_eq_ok_iff {row : Row} :
    partsOf (.map row) name = .ok parts ↔
      ∀ part, row.get? (column name part) = some (parts.get part) := by
  simp only [partsOf, cellOf, bind_ok, cell_eq_ok_iff]
  constructor
  · rintro ⟨c, hc, i, hi, t, ht, h⟩
    cases h
    rintro (_ | _ | _)
    · exact hc
    · exact hi
    · exact ht
  · intro h
    exact ⟨_, h .ciphertext, _, h .iv, _, h .tag, rfl⟩

theorem all_parts (P : Part → Bool) : Part.all.all P = true ↔ ∀ part, P part = true := by
  constructor
  · intro h part
    exact List.all_eq_true.mp h part (by cases part <;> decide)
  · intro h
    exact List.all_eq_true.mpr fun part _ => h part

theorem any_parts (P : Part → Bool) : Part.all.any P = false ↔ ∀ part, P part = false := by
  constructor
  · intro h part
    have := List.any_eq_false.mp h part (by cases part <;> decide)
    simpa using this
  · intro h
    exact List.any_eq_false.mpr fun part _ => by simp [h part]

theorem fieldOf_eq_ok_iff {id : Text} :
    fieldOf (.map row) id a = .ok field? ↔ FieldReads row a field? := by
  simp only [fieldOf, bind_ok, partsOf_eq_ok_iff, FieldReads]
  refine exists_congr fun parts => and_congr_right fun _ => ?_
  have hall := all_parts fun part => (parts.get part).isNull
  have hany := any_parts fun part => (parts.get part).isNull
  cases field? with
  | none =>
    rw [← hall]
    by_cases h : (Part.all.all fun part => (parts.get part).isNull) = true
    · simp [h, pure, Except.pure]
    · simp only [h]
      by_cases h' : (Part.all.any fun part => (parts.get part).isNull) = true
      · simp [h']
      · cases hp : Field.ofParts parts <;>
          simp [h', Failure.ofChecked, Functor.map, Except.map]
  | some f =>
    rw [← hany]
    by_cases h : (Part.all.any fun part => (parts.get part).isNull) = true
    · by_cases h' : (Part.all.all fun part => (parts.get part).isNull) = true <;>
        simp [h, h', pure, Except.pure]
    · have h' : (Part.all.all fun part => (parts.get part).isNull) = false := by
        have hf := hany.mp (by simpa using h)
        simp [Part.all, hf]
      cases hp : Field.ofParts parts <;>
        simp [h, h', Failure.ofChecked, Functor.map, Except.map]

structure Reads (row : Row) (r : SecretRecord) : Prop where
  id : Holds row "id" fun v => v.toText = r.id
  user : Holds row "userId" fun v => v.toText = r.userId
  org : Holds row "orgId" fun v => v.toText = r.orgId
  algorithm : Holds row "algorithm" fun v => Checked.text v = .ok r.algorithm
  encoding : Holds row "keyEncoding" fun v => Checked.text v = .ok r.keyEncoding
  version : Holds row "version" fun v => Checked.integer v = .ok r.version
  created : Holds row "createdAt" fun v => Checked.nullable Checked.timestamp v = .ok r.createdAt
  updated : Holds row "updatedAt" fun v => Checked.nullable Checked.timestamp v = .ok r.updatedAt
  fields : ∀ a, FieldReads row a (r.fields.get a)

theorem recordOf_eq_ok_iff : recordOf (.map row) = .ok r ↔ Reads row r := by
  simp only [recordOf, recordWith, bind_ok, cellOf, cell_eq_ok_iff, fieldOf_eq_ok_iff,
    Checked.ofChecked_eq_ok_iff, Checked.seq_eq_ok_iff, Checked.map_eq_ok_iff,
    Checked.under_eq_ok_iff]
  constructor
  · rintro ⟨id, hid, user, huser, org, horg, algorithm, halg, encoding, henc, version, hver,
      created, hcre, updated, hupd, title, htitle, type, htype, data, hdata, comment, hcomment,
      _, _, ⟨_, _, ⟨_, _, ⟨_, _, ⟨_, ha, rfl⟩, he, rfl⟩, hv, rfl⟩, hc, rfl⟩, hu, rfl⟩
    refine ⟨⟨_, hid, rfl⟩, ⟨_, huser, rfl⟩, ⟨_, horg, rfl⟩, ⟨_, halg, ha⟩, ⟨_, henc, he⟩,
      ⟨_, hver, hv⟩, ⟨_, hcre, hc⟩, ⟨_, hupd, hu⟩, ?_⟩
    rintro (_ | _ | _ | _)
    · exact htitle
    · exact htype
    · exact hdata
    · exact hcomment
  · obtain ⟨id, user, org, fields, algorithm, encoding, version, created, updated⟩ := r
    rintro ⟨⟨_, hid, rfl⟩, ⟨_, huser, rfl⟩, ⟨_, horg, rfl⟩, ⟨_, halg, ha⟩, ⟨_, henc, he⟩,
      ⟨_, hver, hv⟩, ⟨_, hcre, hc⟩, ⟨_, hupd, hu⟩, hf⟩
    exact ⟨_, hid, _, huser, _, horg, _, halg, _, henc, _, hver, _, hcre, _, hupd,
      _, hf .title, _, hf .type, _, hf .data, _, hf .comment,
      _, _, ⟨_, _, ⟨_, _, ⟨_, _, ⟨_, ha, rfl⟩, he, rfl⟩, hv, rfl⟩, hc, rfl⟩, hu, rfl⟩

-- ---------------------------------------------------------------------------
-- Rows that are written over
-- ---------------------------------------------------------------------------

theorem FieldReads.texts {row : Row} {f : Field}
    (h : ∀ part, row.get? (column a.name part) = some (.text (f.get part))) :
    FieldReads row a (some f) := by
  refine ⟨f.map .text, ?_, ?_, rfl⟩
  · rintro (_ | _ | _)
    · exact h .ciphertext
    · exact h .iv
    · exact h .tag
  · rintro (_ | _ | _) <;> rfl

theorem FieldReads.congr {row row' : Row} (h : FieldReads row a field?)
    (he : ∀ part, row'.get? (column a.name part) = row.get? (column a.name part)) :
    FieldReads row' a field? := by
  obtain ⟨parts, hp, hf⟩ := h
  exact ⟨parts, fun part => (he part).trans (hp part), hf⟩

/-- A later row has what an earlier one has, but for the version and the fields. -/
def SamePlain (row row' : Row) : Prop :=
  ∀ name, isPlain name → name ≠ "version" → row'.get? name = row.get? name

theorem Reads.change {row row' : Row} {fields : Attributes (Option Field)} (h : Reads row r)
    (hp : SamePlain row row') (hv : Holds row' "version" fun v => Checked.integer v = .ok n)
    (hf : ∀ a, FieldReads row' a (fields.get a)) :
    Reads row' { r with fields, version := n } where
  id := h.id.congr (hp _ (by decide) (by decide))
  user := h.user.congr (hp _ (by decide) (by decide))
  org := h.org.congr (hp _ (by decide) (by decide))
  algorithm := h.algorithm.congr (hp _ (by decide) (by decide))
  encoding := h.encoding.congr (hp _ (by decide) (by decide))
  version := hv
  created := h.created.congr (hp _ (by decide) (by decide))
  updated := h.updated.congr (hp _ (by decide) (by decide))
  fields := hf

theorem Reads.version_eq {row : Row} (h : Reads row r) (hv : Holds row "version" (· = .int n)) :
    r.version = n := by
  obtain ⟨v, hg, hr⟩ := h.version
  obtain ⟨_, hn, rfl⟩ := hv
  cases hg.symm.trans hn
  cases hr
  rfl

/-- The row after an update: some fields anew, under a new version. -/
def overlay (row : Row) (fields : Assoc Field) (version : Int) : Row :=
  (row.putAll (columnsOf fields)).put "version" (.int version)

section Overlay

variable {fields : Assoc Field} (h : fields.names.Nodup) (row : Row) (version : Int)
include h

theorem overlay_plain : SamePlain row (overlay row fields version) := by
  intro name hn hne
  rw [overlay, Assoc.get?_put, if_neg (Ne.symm hne), get?_putColumns_plain h hn]

omit h in
theorem overlay_version : Holds (overlay row fields version) "version" (· = .int version) :=
  ⟨_, by rw [overlay, Assoc.get?_put, if_pos rfl], rfl⟩

theorem get?_overlay_column :
    (overlay row fields version).get? (column name part) =
      ((fields.get? name).map fun f => .text (f.get part)).or (row.get? (column name part)) := by
  rw [overlay, Assoc.get?_put, if_neg (ne_column (by decide)), get?_putColumns h]

end Overlay
end Layout
end EnvelopeVault
