import EnvelopeVault.Proofs.Statements
import EnvelopeVault.Proofs.Vault

/-!
# The layout of rows is exact

`row_layout_exact`, both ways. The columns of fields give the fields back, under
whatever names. A row that holds what a record is made of reads as the record,
whatever else it holds and in whatever order. A row that reads as a record holds
the columns of its fields, and a row with a torn attribute, some of its columns
null and some not, is refused for the first of them before any other column is
looked into.
-/

namespace EnvelopeVault

theorem Attribute.exists_isFirst {P : Attribute → Prop} (h : P a) : ∃ a, IsFirst P a := by
  by_cases ht : P .title
  · exact ⟨_, ht, [], _, rfl, by simp⟩
  by_cases hy : P .type
  · exact ⟨_, hy, [.title], _, rfl, by simpa using ht⟩
  by_cases hd : P .data
  · exact ⟨_, hd, [.title, .type], _, rfl, by simpa using ⟨ht, hy⟩⟩
  cases a with
  | comment => exact ⟨_, h, [.title, .type, .data], _, rfl, by simpa using ⟨ht, hy, hd⟩⟩
  | _ => contradiction

theorem Attribute.IsFirst.not_before {P : Attribute → Prop} (h : IsFirst P a)
    (hb : b ∈ all.takeWhile (· ≠ a)) : ¬ P b := by
  obtain ⟨-, before, after, hall, hbefore⟩ := h
  have hnodup : (before ++ a :: after).Nodup := hall ▸ show all.Nodup by decide
  have ha : ∀ c ∈ before, decide (c ≠ a) = true := fun c hc =>
    decide_eq_true ((List.nodup_append.mp hnodup).2.2 c hc a List.mem_cons_self)
  rw [hall, List.takeWhile_append_of_pos ha] at hb
  exact hbefore b (by simpa using hb)

theorem Triple.get_map {α β : Type} (f : α → β) (t : Triple α) (part : Part) :
    (t.map f).get part = f (t.get part) := by
  cases part <;> rfl

namespace Layout

-- ---------------------------------------------------------------------------
-- Fields in columns
-- ---------------------------------------------------------------------------

def stem? (column : Text) : Option Text :=
  let suffix := Part.ciphertext.suffix
  if suffix.isSuffixOf column then some (column.take (column.length - suffix.length)) else none

def textAt? (columns : Row) (name : Text) : Option Text :=
  match columns.get? name with
  | some (.text t) => some t
  | _ => none

/-- The field whose ciphertext is in the column `name`, if its other parts are there as well. -/
def fieldAt? (columns : Row) (name : Text) : Option (Text × Field) := do
  let field ← stem? name
  let ciphertext ← textAt? columns (column field .ciphertext)
  let iv ← textAt? columns (column field .iv)
  let tag ← textAt? columns (column field .tag)
  return (field, ⟨ciphertext, iv, tag⟩)

/-- The fields in columns, in the order of their ciphertexts. -/
def fieldsIn (columns : Row) : Assoc Field :=
  columns.filterMap fun cell => fieldAt? columns cell.1

theorem stem?_eq_some_iff : stem? c = some name ↔ c = column name .ciphertext := by
  rw [stem?]
  constructor
  · intro h
    split at h
    · rename_i hs
      obtain ⟨stem, rfl⟩ := List.isSuffixOf_iff_suffix.mp hs
      cases h
      simp [column]
    · cases h
  · rintro rfl
    simp [column]

theorem fieldAt?_column {columns : Row} {f : Field}
    (h : ∀ part, columns.get? (column name part) = some (.text (f.get part))) (part : Part) :
    fieldAt? columns (column name part) = if part = .ciphertext then some (name, f) else none := by
  have htext (part : Part) : textAt? columns (column name part) = some (f.get part) := by
    rw [textAt?, h]
  split
  · subst part
    rw [fieldAt?, stem?_eq_some_iff.mpr rfl]
    simp only [Option.bind_eq_bind, Option.bind_some, htext]
    rfl
  · rename_i hne
    have hstem : stem? (column name part) = none := by
      refine Option.eq_none_iff_forall_ne_some.mpr fun other hs => ?_
      exact hne (column_inj.mp (stem?_eq_some_iff.mp hs)).2
    rw [fieldAt?, hstem]
    rfl

theorem fieldsIn_columnsOf {fields : Assoc Field} (h : fields.names.Nodup) :
    fieldsIn (columnsOf fields) = fields := by
  have general : ∀ chosen : Assoc Field, chosen ⊆ fields →
      (chosen.flatMap fun pair => fieldColumns pair.1 pair.2).filterMap
        (fun cell => fieldAt? (columnsOf fields) cell.1) = chosen := by
    intro chosen hchosen
    induction chosen with
    | nil => rfl
    | cons pair rest ih =>
      obtain ⟨name, f⟩ := pair
      obtain ⟨hpair, hrest⟩ := List.cons_subset.mp hchosen
      have hcolumn (part : Part) : (columnsOf fields).get? (column name part) =
          some (.text (f.get part)) := by
        rw [get?_columnsOf h, Assoc.get?_of_mem h hpair]
        rfl
      rw [List.flatMap_cons, List.filterMap_append, ih hrest]
      simp [fieldColumns, Part.all, fieldAt?_column hcolumn]
  have hcolumns : columnsOf fields = fields.flatMap fun pair => fieldColumns pair.1 pair.2 :=
    columnsOf_eq h
  have hall := general fields (List.Subset.refl fields)
  rwa [← hcolumns] at hall

-- ---------------------------------------------------------------------------
-- Rows of records
-- ---------------------------------------------------------------------------

def nullColumns (absent : List Attribute) : Row :=
  absent.flatMap fun a => Part.all.map fun part => (column a.name part, .null)

/-- The twelve columns of attributes: three texts each, or three nulls. -/
def attributeColumns (fields : Attributes (Option Field)) : Row :=
  columnsOf (Assoc.present fields.toList) ++
    nullColumns (Attribute.all.filter fun a => (fields.get a).isNone)

def plainNames : List Text :=
  ["id", "userId", "orgId", "algorithm", "keyEncoding", "version", "createdAt", "updatedAt"]

/-- The other columns of a record, under ids as they are stored. -/
def plainColumns (id user org : Value) (r : SecretRecord) : Row :=
  [("id", id), ("userId", user), ("orgId", org), ("algorithm", .text r.algorithm),
    ("keyEncoding", .text r.keyEncoding), ("version", .int r.version),
    ("createdAt", Value.ofOption .time r.createdAt),
    ("updatedAt", Value.ofOption .time r.updatedAt)]

theorem get?_nullColumns {absent : List Attribute} (h : a ∈ absent) (part : Part) :
    (nullColumns absent).get? (column a.name part) = some .null := by
  induction absent with
  | nil => cases h
  | cons first rest ih =>
    rw [nullColumns, List.flatMap_cons, Assoc.get?_append]
    by_cases hn : first.name = a.name
    · cases part <;> simp [Part.all, Assoc.get?, column_inj, hn]
    · have hfirst : Assoc.get? (Part.all.map fun part => (column first.name part, Value.null))
          (column a.name part) = none := by
        simp [Part.all, Assoc.get?, column_inj, hn]
      rw [hfirst, Option.none_or]
      exact ih ((List.mem_cons.mp h).resolve_left fun h => hn (h ▸ rfl))

theorem get?_attributeColumns (fields : Attributes (Option Field)) (a : Attribute) (part : Part) :
    (attributeColumns fields).get? (column a.name part) =
      some (Value.ofOption (fun f => .text (f.get part)) (fields.get a)) := by
  have hnames : (Assoc.names fields.toList).Nodup :=
    show (Attribute.all.map (·.name)).Nodup by decide
  have hpresent : (Assoc.present fields.toList).get? a.name = fields.get a := by
    rw [Assoc.get?_present hnames, Attributes.get?_toList]
    rfl
  rw [attributeColumns, Assoc.get?_append,
    get?_columnsOf ((Assoc.names_present _).nodup hnames), hpresent]
  cases hf : fields.get a with
  | some f => rfl
  | none =>
    have habsent : a ∈ Attribute.all.filter fun a => (fields.get a).isNone :=
      List.mem_filter.mpr ⟨a.mem_all, by rw [hf]; rfl⟩
    rw [get?_nullColumns habsent]
    rfl

theorem nullable_timestamp (t? : Option Timestamp) :
    Checked.nullable Checked.timestamp (Value.ofOption .time t?) = .ok t? := by
  cases t? <;> rfl

/-- The columns of a record; its own ids count for nothing. -/
def rowOf (id user org : Value) (r : SecretRecord) : Row :=
  plainColumns id user org r ++ attributeColumns r.fields

theorem reads_of_columns {row : Row} {id user org : Value} {r : SecretRecord}
    (hrow : ∀ name v, (rowOf id user org r).get? name = some v → row.get? name = some v) :
    Reads row { r with id := id.toText, userId := user.toText, orgId := org.toText } := by
  have plain {name : Text} {v : Value} (h : (plainColumns id user org r).get? name = some v) :
      row.get? name = some v := by
    refine hrow name v ?_
    rw [rowOf, Assoc.get?_append, h]
    rfl
  refine ⟨⟨id, plain rfl, rfl⟩, ⟨user, plain rfl, rfl⟩, ⟨org, plain rfl, rfl⟩,
    ⟨_, plain rfl, rfl⟩, ⟨_, plain rfl, rfl⟩, ⟨_, plain rfl, rfl⟩,
    ⟨_, plain rfl, nullable_timestamp _⟩, ⟨_, plain rfl, nullable_timestamp _⟩, fun a => ?_⟩
  have hcolumn (part : Part) : row.get? (column a.name part) =
      some (Value.ofOption (fun f => .text (f.get part)) (r.fields.get a)) := by
    refine hrow _ _ ?_
    have hplain : (plainColumns id user org r).get? (column a.name part) = none :=
      get?_column_of_plain (show plainNames.all isPlain by decide)
    rw [rowOf, Assoc.get?_append, hplain, get?_attributeColumns, Option.none_or]
  cases hf : r.fields.get a with
  | none =>
    refine ⟨⟨.null, .null, .null⟩, fun part => ?_, fun part => by cases part <;> rfl⟩
    rw [hcolumn, hf]
    cases part <;> rfl
  | some f =>
    refine .texts fun part => ?_
    rw [hcolumn, hf]
    rfl

-- ---------------------------------------------------------------------------
-- Torn rows
-- ---------------------------------------------------------------------------

variable {row : Row}

/-- The columns of an attribute are there, and hold text or nothing. -/
def HoldsTexts (row : Row) (a : Attribute) : Prop :=
  ∃ texts : Triple (Option Text), ∀ part,
    row.get? (column a.name part) = some (Value.ofOption .text (texts.get part))

theorem fieldOf_incomplete (h : Incomplete row a) (id : Text) :
    fieldOf (.map row) id a = .error (.vault
      { cause := .incompleteField, secretId := .text id, field := .text a.name }) := by
  obtain ⟨parts, hparts, ⟨absent, hnull⟩, present, hpresent⟩ := h
  have hall : (Part.all.all fun part => (parts.get part).isNull) = false :=
    Bool.eq_false_iff.mpr fun h => by
      rw [(all_parts _).mp h present] at hpresent
      cases hpresent
  have hany : (Part.all.any fun part => (parts.get part).isNull) = true :=
    Bool.not_eq_false _ |>.mp fun h => by
      rw [(any_parts _).mp h absent] at hnull
      cases hnull
  simp [fieldOf, partsOf_eq_ok_iff.mpr hparts, hall, hany, bind, Except.bind]

theorem isNull_ofOption_text (t? : Option Text) :
    (Value.ofOption Value.text t?).isNull = t?.isNone := by
  cases t? <;> rfl

theorem exists_fieldReads (ht : HoldsTexts row a) (h : ¬ Incomplete row a) :
    ∃ field?, FieldReads row a field? := by
  obtain ⟨texts, htexts⟩ := ht
  have hparts (part : Part) : row.get? (column a.name part) =
      some ((texts.map (Value.ofOption .text)).get part) := by
    rw [Triple.get_map, htexts]
  have hnull (part : Part) : ((texts.map (Value.ofOption Value.text)).get part).isNull =
      (texts.get part).isNone := by
    rw [Triple.get_map, isNull_ofOption_text]
  by_cases habsent : ∃ part, (texts.get part).isNone = true
  · obtain ⟨absent, habsent⟩ := habsent
    refine ⟨none, _, hparts, fun part => Bool.not_eq_false _ |>.mp fun hpresent => ?_⟩
    exact h ⟨_, hparts, ⟨absent, (hnull absent).trans habsent⟩, part, hpresent⟩
  · obtain ⟨c?, i?, t?⟩ := texts
    have hsome (part : Part) : ∃ t, Triple.get ⟨c?, i?, t?⟩ part = some t :=
      Option.ne_none_iff_exists'.mp fun hn => habsent ⟨part, Option.isNone_iff_eq_none.mpr hn⟩
    obtain ⟨c, rfl : c? = some c⟩ := hsome .ciphertext
    obtain ⟨i, rfl : i? = some i⟩ := hsome .iv
    obtain ⟨t, rfl : t? = some t⟩ := hsome .tag
    refine ⟨some ⟨c, i, t⟩, .texts fun part => ?_⟩
    rw [htexts]
    cases part <;> rfl

/-- Where an attribute is texts or nulls, what is read from it is all that it holds. -/
theorem FieldReads.columns (h : FieldReads row a field?) (ht : HoldsTexts row a) (part : Part) :
    row.get? (column a.name part) =
      some (Value.ofOption (fun f => .text (f.get part)) field?) := by
  obtain ⟨parts, hparts, hfield⟩ := h
  obtain ⟨texts, htexts⟩ := ht
  have heq (part : Part) : parts.get part = Value.ofOption .text (texts.get part) :=
    Option.some.inj ((hparts part).symm.trans (htexts part))
  rw [hparts]
  refine congrArg some ?_
  cases field? with
  | none =>
    have hnull := hfield part
    rw [heq, isNull_ofOption_text, Option.isNone_iff_eq_none] at hnull
    rw [heq, hnull]
    rfl
  | some f =>
    obtain ⟨hpresent, hread⟩ := hfield
    have htext (part : Part) : ∃ t, parts.get part = .text t := by
      have hsome := hpresent part
      rw [heq, isNull_ofOption_text, Option.isNone_eq_false_iff, Option.isSome_iff_exists] at hsome
      obtain ⟨t, ht⟩ := hsome
      exact ⟨t, by rw [heq, ht]; rfl⟩
    obtain ⟨c, i, t⟩ := parts
    obtain ⟨c, rfl : _ = Value.text c⟩ := htext .ciphertext
    obtain ⟨i, rfl : _ = Value.text i⟩ := htext .iv
    obtain ⟨t, rfl : _ = Value.text t⟩ := htext .tag
    cases hread
    cases part <;> rfl

/-- Reading a row with all plain columns starts with its attributes. -/
theorem recordOf_eq (hplain : ∀ name ∈ plainNames, row.has name) {id : Value}
    (hid : row.get? "id" = some id) :
    ∃ rest : Attributes (Option Field) → Except Failure SecretRecord,
      recordOf (.map row) = (do
        let title ← fieldOf (.map row) id.toText .title
        let type ← fieldOf (.map row) id.toText .type
        let data ← fieldOf (.map row) id.toText .data
        let comment ← fieldOf (.map row) id.toText .comment
        rest ⟨title, type, data, comment⟩) := by
  have hcell (name : Text) (h : name ∈ plainNames) :
      ∃ v, cellOf (.map row) name = .ok v := by
    obtain ⟨v, hv⟩ := Option.isSome_iff_exists.mp (hplain name h)
    exact ⟨v, cell_eq_ok_iff.mpr hv⟩
  have hid : cellOf (.map row) "id" = .ok id := cell_eq_ok_iff.mpr hid
  obtain ⟨user, huser⟩ := hcell "userId" (by decide)
  obtain ⟨org, horg⟩ := hcell "orgId" (by decide)
  obtain ⟨algorithm, halgorithm⟩ := hcell "algorithm" (by decide)
  obtain ⟨encoding, hencoding⟩ := hcell "keyEncoding" (by decide)
  obtain ⟨version, hversion⟩ := hcell "version" (by decide)
  obtain ⟨created, hcreated⟩ := hcell "createdAt" (by decide)
  obtain ⟨updated, hupdated⟩ := hcell "updatedAt" (by decide)
  rw [recordOf, hid, huser, horg, halgorithm, hencoding, hversion, hcreated, hupdated]
  exact ⟨fun fields => Failure.ofChecked SecretRecord.modelName (recordWith id.toText user.toText
    org.toText fields algorithm encoding version created updated), rfl⟩

theorem recordOf_torn (hplain : ∀ name ∈ plainNames, row.has name)
    (ht : ∀ a, HoldsTexts row a) (h : Attribute.IsFirst (Incomplete row) a) {id : Value}
    (hid : row.get? "id" = some id) :
    recordOf (.map row) = .error (.vault
      { cause := .incompleteField, secretId := .text id.toText, field := .text a.name }) := by
  obtain ⟨rest, heq⟩ := recordOf_eq hplain hid
  have hfirst (b : Attribute) (hb : b ∈ Attribute.all.takeWhile (· ≠ a)) :
      ∃ field?, fieldOf (.map row) id.toText b = .ok field? := by
    obtain ⟨field?, hreads⟩ := exists_fieldReads (ht b) (h.not_before hb)
    exact ⟨field?, fieldOf_eq_ok_iff.mpr hreads⟩
  have hstop := fieldOf_incomplete h.1 id.toText
  rw [heq]
  cases a with
  | title => rw [hstop]; rfl
  | type =>
    obtain ⟨_, htitle⟩ := hfirst .title (by decide)
    rw [htitle, hstop]
    rfl
  | data =>
    obtain ⟨_, htitle⟩ := hfirst .title (by decide)
    obtain ⟨_, htype⟩ := hfirst .type (by decide)
    rw [htitle, htype, hstop]
    rfl
  | comment =>
    obtain ⟨_, htitle⟩ := hfirst .title (by decide)
    obtain ⟨_, htype⟩ := hfirst .type (by decide)
    obtain ⟨_, hdata⟩ := hfirst .data (by decide)
    rw [htitle, htype, hdata, hstop]
    rfl

-- ---------------------------------------------------------------------------
-- Both ways
-- ---------------------------------------------------------------------------

/-- The columns of fields are three for each name, all different, and give the fields back.
A row with the columns of a record is read as that record. A row whose attributes are texts
and nulls is refused for the first torn one, whatever its other cells hold, and holds the
columns of the record that is read from it otherwise. -/
theorem row_layout_exact :
    (∀ fields : Assoc Field, fields.names.Nodup →
      (columnsOf fields).names = fields.names.flatMap (fun name => Part.all.map (column name)) ∧
      (columnsOf fields).names.Nodup ∧ (columnsOf fields).length = 3 * fields.length ∧
      fieldsIn (columnsOf fields) = fields) ∧
    (∀ (row : Row) (id user org : Value) (r : SecretRecord),
      (∀ name v, (rowOf id user org r).get? name = some v → row.get? name = some v) →
      recordOf (.map row) =
        .ok { r with id := id.toText, userId := user.toText, orgId := org.toText }) ∧
    ∀ (row : Row) (id : Value), (∀ name ∈ plainNames, row.has name) →
      (∀ a, HoldsTexts row a) → row.get? "id" = some id →
      ((∃ a, Incomplete row a) → ∃ a, Attribute.IsFirst (Incomplete row) a ∧
        recordOf (.map row) = .error (.vault
          { cause := .incompleteField, secretId := .text id.toText, field := .text a.name })) ∧
      ∀ r, recordOf (.map row) = .ok r → r.id = id.toText ∧
        ∀ (a : Attribute) part, row.get? (column a.name part) =
          (attributeColumns r.fields).get? (column a.name part) := by
  refine ⟨fun fields h => ?_, fun row id user org r hrow => ?_, fun row id hplain ht hid => ?_⟩
  · have hnames := Query.names_columnsOf h
    refine ⟨hnames, nodup_names_columnsOf h, ?_, fieldsIn_columnsOf h⟩
    rw [columnsOf_eq h]
    simp [List.length_flatMap, fieldColumns, Part.all, List.map_const', Nat.mul_comm]
  · exact recordOf_eq_ok_iff.mpr (reads_of_columns hrow)
  · refine ⟨fun htorn => ?_, fun r hr => ?_⟩
    · obtain ⟨_, htorn⟩ := htorn
      obtain ⟨a, hfirst⟩ := Attribute.exists_isFirst htorn
      exact ⟨a, hfirst, recordOf_torn hplain ht hfirst hid⟩
    · have hreads := recordOf_eq_ok_iff.mp hr
      obtain ⟨id', hid', hread⟩ := hreads.id
      cases hid'.symm.trans hid
      refine ⟨hread.symm, fun a part => ?_⟩
      rw [(hreads.fields a).columns (ht a), get?_attributeColumns]

def tornRow : Row :=
  [("id", .text "s1"), ("userId", .text "u"), ("orgId", .text "o"), ("algorithm", .text "a"),
    ("keyEncoding", .text "e"), ("version", .null), ("createdAt", .null), ("updatedAt", .null),
    ("titleCiphertext", .null), ("titleIV", .null), ("titleTag", .null),
    ("typeCiphertext", .null), ("typeIV", .text "i"), ("typeTag", .null),
    ("dataCiphertext", .text "c"), ("dataIV", .text "i"), ("dataTag", .null),
    ("commentCiphertext", .null), ("commentIV", .null), ("commentTag", .null)]

/-- Names that end like columns, a record under a UUID, and torn attributes before a version
that is none. -/
theorem torn_attribute_before_null_version :
    let fields : Assoc Field := [("data", ⟨"c", "i", "t"⟩), ("dataIV", ⟨"", "IV", ""⟩)]
    let u : Uuid := ⟨0x1234, by decide⟩
    let r : SecretRecord :=
      ⟨[], [], [], ⟨some ⟨"c", "i", "t"⟩, none, none, none⟩, "a", "e", -1, none, none⟩
    fieldsIn (columnsOf fields) = fields ∧
      recordOf (.map (rowOf (.uuid u) (.text "u") (.text "o") r)) =
        .ok { r with id := (Value.uuid u).toText, userId := "u", orgId := "o" } ∧
      ∃ a, Attribute.IsFirst (Incomplete tornRow) a ∧ recordOf (.map tornRow) =
        .error (.vault
          { cause := .incompleteField, secretId := .text "s1", field := .text a.name }) := by
  intro fields u r
  obtain ⟨encodes, decodes, checks⟩ := row_layout_exact
  refine ⟨(encodes fields (by decide)).2.2.2, decodes _ _ _ _ r fun _ _ h => h, ?_⟩
  refine (checks tornRow (.text "s1") (by decide) ?_ rfl).1 ⟨.type, ?_⟩
  · rintro (_ | _ | _ | _)
    · exact ⟨⟨none, none, none⟩, fun part => by cases part <;> rfl⟩
    · exact ⟨⟨none, some "i", none⟩, fun part => by cases part <;> rfl⟩
    · exact ⟨⟨some "c", some "i", none⟩, fun part => by cases part <;> rfl⟩
    · exact ⟨⟨none, none, none⟩, fun part => by cases part <;> rfl⟩
  · exact ⟨⟨.null, .text "i", .null⟩, fun part => by cases part <;> rfl, ⟨.tag, rfl⟩, .iv, rfl⟩

end Layout
end EnvelopeVault
