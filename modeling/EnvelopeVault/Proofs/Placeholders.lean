import EnvelopeVault.Proofs.PoolRuns

/-!
# The places of a statement

A statement goes to the database as text, and the database reads the places off
that text. It reads the places of the pieces, as long as no column has a dollar
sign in its name (`placesIn_pieces`). From this follows for insertions and
updates which argument each column gets, that no argument is left over, and
that the text is made of the columns alone (`placeholders_bind_their_columns`).
-/

namespace EnvelopeVault

-- ---------------------------------------------------------------------------
-- Numbers in text
-- ---------------------------------------------------------------------------

namespace Text

theorem isDigit_of_mem_ofNat (h : c ∈ ofNat n) : c.isDigit = true := by
  obtain ⟨d, hd, rfl⟩ := List.mem_map.mp h
  have hdigit := Nat.isDigit_of_mem_toDigits (by decide) (by decide) hd
  rw [Char.isDigit, Bool.and_eq_true, decide_eq_true_eq, decide_eq_true_eq,
    ge_iff_le, UInt32.le_iff_toNat_le, UInt32.le_iff_toNat_le] at hdigit
  rw [CodePoint.isDigit, Bool.and_eq_true, decide_eq_true_eq, decide_eq_true_eq]
  exact hdigit

theorem digitsValue_ofNat (n : Nat) : digitsValue (ofNat n) = n := by
  rw [digitsValue, ofNat, List.foldl_map]
  have hcore := Nat.ofDigitChars_toDigits (b := 10) (n := n) (by decide) (by decide)
  rw [Nat.ofDigitChars_eq_foldl] at hcore
  simp only [Nat.mul_comm 10] at hcore
  exact hcore

end Text

-- ---------------------------------------------------------------------------
-- Places in pieces
-- ---------------------------------------------------------------------------

namespace SqlPiece

def place? : SqlPiece → Option Nat
  | .text _ => none
  | .place n => some n

/-- Fixed text has no dollar sign, and no digit where a place may be before it. -/
def IsClean : SqlPiece → Prop
  | .text t => 0x24 ∉ t ∧ t.head?.any CodePoint.isDigit = false
  | .place _ => True

end SqlPiece

namespace Sql

def placesIn : Text → List Nat
  | [] => []
  | c :: rest =>
    if c = 0x24 then Text.digitsValue (rest.takeWhile CodePoint.isDigit) :: placesIn rest
    else placesIn rest

theorem placesIn_append {t : Text} (h : 0x24 ∉ t) (rest : Text) :
    placesIn (t ++ rest) = placesIn rest := by
  induction t with
  | nil => rfl
  | cons c t ih =>
    obtain ⟨hc, ht⟩ := not_or.mp (mt List.mem_cons.mpr h)
    rw [List.cons_append, placesIn, if_neg (Ne.symm hc), ih ht]

theorem placesIn_place (n : Nat) {rest : Text} (h : rest.head?.any CodePoint.isDigit = false) :
    placesIn (SqlPiece.toText (.place n) ++ rest) = n :: placesIn rest := by
  have hdollar : 0x24 ∉ Text.ofNat n := fun hm =>
    absurd (Text.isDigit_of_mem_ofNat hm) (by decide)
  have hrest : rest.takeWhile CodePoint.isDigit = [] := by
    cases rest with
    | nil => rfl
    | cons c rest =>
      rw [List.takeWhile_cons, show c.isDigit = false from h]
      rfl
  have hdigits : (Text.ofNat n ++ rest).takeWhile CodePoint.isDigit = Text.ofNat n := by
    rw [List.takeWhile_append_of_pos fun c hc => Text.isDigit_of_mem_ofNat hc, hrest,
      List.append_nil]
  change placesIn (0x24 :: (Text.ofNat n ++ rest)) = _
  rw [placesIn, if_pos rfl, hdigits, Text.digitsValue_ofNat, placesIn_append hdollar]

theorem head_pieces {pieces : List SqlPiece} (h : ∀ piece ∈ pieces, piece.IsClean) :
    (pieces.flatMap SqlPiece.toText).head?.any CodePoint.isDigit = false := by
  induction pieces with
  | nil => rfl
  | cons piece rest ih =>
    obtain ⟨hpiece, hrest⟩ := List.forall_mem_cons.mp h
    rw [List.flatMap_cons]
    cases piece with
    | place n => rfl
    | text t =>
      cases t with
      | nil => exact ih hrest
      | cons c t => exact hpiece.2

/-- The places that are read off the text of pieces are those of the pieces. -/
theorem placesIn_pieces {pieces : List SqlPiece} (h : ∀ piece ∈ pieces, piece.IsClean) :
    placesIn (pieces.flatMap SqlPiece.toText) = pieces.filterMap SqlPiece.place? := by
  induction pieces with
  | nil => rfl
  | cons piece rest ih =>
    obtain ⟨hpiece, hrest⟩ := List.forall_mem_cons.mp h
    rw [List.flatMap_cons, List.filterMap_cons]
    cases piece with
    | text t => exact (placesIn_append hpiece.1 _).trans (ih hrest)
    | place n => exact (placesIn_place n (head_pieces hrest)).trans (congrArg (n :: ·) (ih hrest))

-- ---------------------------------------------------------------------------
-- Groups between commas
-- ---------------------------------------------------------------------------

theorem commaSeparated_cons_cons (first second : List SqlPiece) (rest : List (List SqlPiece)) :
    commaSeparated (first :: second :: rest) =
      first ++ .text ", " :: commaSeparated (second :: rest) := by
  simp [commaSeparated, List.intersperse]

theorem clean_commaSeparated {groups : List (List SqlPiece)}
    (h : ∀ group ∈ groups, ∀ piece ∈ group, piece.IsClean) :
    ∀ piece ∈ commaSeparated groups, piece.IsClean := by
  induction groups with
  | nil => simp [commaSeparated]
  | cons first rest ih =>
    obtain ⟨hfirst, hrest⟩ := List.forall_mem_cons.mp h
    cases rest with
    | nil => simpa [commaSeparated] using hfirst
    | cons second rest =>
      rw [commaSeparated_cons_cons]
      refine List.forall_mem_append.mpr ⟨hfirst, List.forall_mem_cons.mpr ⟨?_, ih hrest⟩⟩
      exact ⟨by decide, by decide⟩

theorem places_commaSeparated (groups : List (List SqlPiece)) :
    (commaSeparated groups).filterMap SqlPiece.place? =
      groups.flatMap fun group => group.filterMap SqlPiece.place? := by
  induction groups with
  | nil => rfl
  | cons first rest ih =>
    cases rest with
    | nil => simp [commaSeparated]
    | cons second rest =>
      rw [commaSeparated_cons_cons, List.filterMap_append, List.flatMap_cons, ← ih]
      rfl

theorem toText_commaSeparated (groups : List (List SqlPiece)) :
    (commaSeparated groups).flatMap SqlPiece.toText =
      Text.intercalate ", " (groups.map fun group => group.flatMap SqlPiece.toText) := by
  induction groups with
  | nil => rfl
  | cons first rest ih =>
    cases rest with
    | nil => simp [commaSeparated, Text.intercalate]
    | cons second rest =>
      rw [commaSeparated_cons_cons, List.flatMap_append, List.flatMap_cons, ih]
      simp [Text.intercalate, SqlPiece.toText]

-- ---------------------------------------------------------------------------
-- Insertions and updates
-- ---------------------------------------------------------------------------

def insertText (columns : List Text) : Text :=
  "\nINSERT INTO consumer_secrets (" ++ Text.intercalate ", " (columns.map quoteColumn) ++
    ")\nVALUES (" ++
    Text.intercalate ", " ((List.range' 1 columns.length).map fun n => "$" ++ Text.ofNat n) ++
    ")\nRETURNING *\n"

/-- The text of an update of columns: the first column has place 2, and the version the place
after the last. -/
def updateText (columns : List Text) (checksVersion : Bool) : Text :=
  "\nUPDATE consumer_secrets\nSET " ++
    Text.intercalate ", "
      ((columns.zipIdx 2).map fun (name, n) => quoteColumn name ++ " = $" ++ Text.ofNat n) ++
    ", version = version + 1, \"updatedAt\" = NOW()\nWHERE id = $1" ++
    (if checksVersion then " AND version = $" ++ Text.ofNat (columns.length + 2) else []) ++
    "\nRETURNING *\n"

theorem text_insert (columns : List Text) : (insert columns).text = insertText columns := by
  simp only [text, pieces, List.flatMap_cons, List.flatMap_append, toText_commaSeparated,
    List.map_map, insertPlaces, insertText, SqlPiece.toText, List.flatMap_nil, List.append_nil,
    List.append_assoc]
  simp [Function.comp_def, SqlPiece.toText]

theorem text_update (columns : List Text) (checksVersion : Bool) :
    (update columns checksVersion).text = updateText columns checksVersion := by
  have hassign : (" = $" : Text) = Text.ofString " = " ++ Text.ofString "$" := rfl
  have hid : (", version = version + 1, \"updatedAt\" = NOW()\nWHERE id = $1" : Text) =
      Text.ofString ", version = version + 1, \"updatedAt\" = NOW()\nWHERE id = " ++
        SqlPiece.toText (.place 1) := by
    decide
  have hversion (n : Nat) : (" AND version = $" : Text) ++ Text.ofNat n =
      Text.ofString " AND version = " ++ SqlPiece.toText (.place n) :=
    rfl
  simp only [text, pieces, List.flatMap_cons, List.flatMap_append, toText_commaSeparated,
    List.map_map, assignments, updateText, List.flatMap_nil, List.append_nil, hassign, hid,
    hversion, List.append_assoc]
  cases checksVersion <;> simp [Function.comp_def, SqlPiece.toText, versionPlace]

theorem dollar_not_mem_quoteColumn (h : 0x24 ∉ name) : 0x24 ∉ quoteColumn name := by
  simpa [quoteColumn, Text.ofString, CodePoint.ofChar] using h

theorem clean_assigned (h : 0x24 ∉ name) : SqlPiece.IsClean (.text (quoteColumn name ++ " = ")) :=
  ⟨fun hm => (List.mem_append.mp hm).elim (dollar_not_mem_quoteColumn h) (by decide), rfl⟩

theorem clean_columns {columns : List Text} (h : ∀ name ∈ columns, 0x24 ∉ name) :
    SqlPiece.IsClean (.text (Text.intercalate ", " (columns.map quoteColumn))) := by
  induction columns with
  | nil => exact ⟨by decide, rfl⟩
  | cons first rest ih =>
    obtain ⟨hfirst, hrest⟩ := List.forall_mem_cons.mp h
    have hquoted := dollar_not_mem_quoteColumn hfirst
    refine ⟨fun hm => ?_, by cases rest <;> rfl⟩
    cases rest with
    | nil => exact hquoted (by simpa [Text.intercalate] using hm)
    | cons second rest =>
      have hm : 0x24 ∈ quoteColumn first ++ ((", " : Text) ++
          Text.intercalate ", " ((second :: rest).map quoteColumn)) := by
        simpa [Text.intercalate] using hm
      rcases List.mem_append.mp hm with hm | hm
      · exact hquoted hm
      · exact (List.mem_append.mp hm).elim (by decide) (ih hrest).1

section Places

variable {columns : List Text} (h : ∀ name ∈ columns, 0x24 ∉ name)
include h

theorem placesIn_insert :
    placesIn (insert columns).text = List.range' 1 columns.length := by
  rw [text, placesIn_pieces]
  · simp [pieces, places_commaSeparated, List.filterMap_cons, SqlPiece.place?, insertPlaces,
      List.flatMap_map]
  · simp only [pieces, List.forall_mem_cons, List.forall_mem_append]
    refine ⟨⟨by decide, by decide⟩, clean_columns h, ⟨by decide, by decide⟩,
      clean_commaSeparated ?_, ⟨by decide, by decide⟩, by simp⟩
    simp [SqlPiece.IsClean]

theorem placesIn_update (checksVersion : Bool) :
    placesIn (update columns checksVersion).text =
      List.range' 2 columns.length ++ 1 :: if checksVersion then [columns.length + 2] else [] := by
  have hassigned : (assignments columns).flatMap (fun a => [a.2]) =
      List.range' 2 columns.length := by
    rw [← List.map_eq_flatMap]
    exact List.zipIdx_map_snd 2 columns
  rw [text, placesIn_pieces]
  · cases checksVersion <;>
      simp [pieces, places_commaSeparated, List.filterMap_cons, SqlPiece.place?, List.flatMap_map,
        hassigned, versionPlace]
  · simp only [pieces, List.forall_mem_cons, List.forall_mem_append]
    refine ⟨⟨by decide, by decide⟩, ⟨clean_commaSeparated ?_, ⟨by decide, by decide⟩, trivial, ?_⟩,
      ⟨by decide, by decide⟩, by simp⟩
    · intro group hgroup
      obtain ⟨⟨name, n⟩, hm, rfl⟩ := List.mem_map.mp hgroup
      have hname : name ∈ columns := List.fst_mem_of_mem_zipIdx hm
      exact List.forall_mem_cons.mpr ⟨clean_assigned (h name hname), by simp [SqlPiece.IsClean]⟩
    · cases checksVersion
      · simp
      · exact List.forall_mem_cons.mpr ⟨⟨by decide, by decide⟩, by simp [SqlPiece.IsClean]⟩

end Places
end Sql

-- ---------------------------------------------------------------------------
-- Arguments
-- ---------------------------------------------------------------------------

namespace Query

theorem update_of_unknown {columns : Row} (hname : name ∈ columns.names)
    (h : name ∉ Layout.encryptedColumns) (secret : Value) (expected : Option Value) :
    update secret columns expected = .error (.columnsNotUpdatable
      (columns.names.filter fun name => !Layout.encryptedColumns.contains name)) := by
  have hunknown : name ∈ columns.names.filter
      fun name => !Layout.encryptedColumns.contains name :=
    List.mem_filter.mpr ⟨hname, by simpa using h⟩
  rw [update, List.isEmpty_eq_false_iff.mpr (List.ne_nil_of_mem hunknown)]
  rfl

/-- The places of the columns, of the id, and of the version if there is one are all places. -/
theorem perm_places (n : Nat) (checksVersion : Bool) :
    (List.range' 2 n ++ 1 :: if checksVersion then [n + 2] else []).Perm
      (List.range' 1 (n + 1 + checksVersion.toNat)) := by
  refine List.perm_middle.trans (.of_eq ?_)
  cases checksVersion with
  | false => rw [if_neg (by decide), List.append_nil]; rfl
  | true =>
    rw [if_pos rfl, Nat.add_comm n 2, ← List.range'_1_concat]
    rfl

end Query

namespace Postgres

theorem query_state (operation : Text) (secret org : Value) (q : Query) (p : Pool) :
    (query operation secret org q p).2 = p.saw ((p.item 0).events q) := by
  rw [query, Pool.run_eq]

/-- An update of known columns is one statement, whose text is made of their names. Its places
are 1 up to the number of arguments, each once: 1 for the id, the next ones for the columns, in
order, each with its own value, and the last one for the expected version. Any other update is
refused, and the pool does not hear of it. An insertion is one statement over those of its
columns that the row has, numbered from 1. -/
theorem placeholders_bind_their_columns (p : Pool) :
    (∀ (secret : Value) (columns : Row) (expected : Option Value), columns ≠ [] →
      (∀ name ∈ columns.names, name ∈ Layout.encryptedColumns) →
      ∃ q, (updatePartial secret columns expected p).2 = p.saw ((p.item 0).events q) ∧
        q.sql.text = Sql.updateText columns.names expected.isSome ∧
        (Sql.placesIn q.sql.text).Perm (List.range' 1 q.args.length) ∧
        q.argument? 1 = some secret ∧
        (∀ i name value, columns[i]? = some (name, value) → q.argument? (i + 2) = some value) ∧
        ∀ version, expected = some version → q.args.length = columns.length + 2 ∧
          q.argument? (columns.length + 2) = some version) ∧
    (∀ (secret : Value) (columns : Row) (expected : Option Value),
      (columns = [] → updatePartial secret columns expected p = (.error .noColumns, p)) ∧
      ∀ name ∈ columns.names, name ∉ Layout.encryptedColumns →
        updatePartial secret columns expected p = (.error (.columnsNotUpdatable
          (columns.names.filter fun name => !Layout.encryptedColumns.contains name)), p)) ∧
    ∀ row : Row, ∃ q, (insert row p).2 = p.saw ((p.item 0).events q) ∧
      q.sql.text = Sql.insertText (Sql.insertColumns.filter row.has) ∧
      Sql.placesIn q.sql.text = List.range' 1 q.args.length ∧
      ∀ (i : Nat) name, (Sql.insertColumns.filter row.has)[i]? = some name →
        q.argument? (i + 1) = row.get? name := by
  refine ⟨fun secret columns expected hne hknown => ?_, fun secret columns expected => ⟨?_, ?_⟩,
    fun row => ?_⟩
  · have hdollar : ∀ name ∈ columns.names, 0x24 ∉ name := fun name hname =>
      (show ∀ name ∈ Layout.encryptedColumns, 0x24 ∉ name by decide) name (hknown name hname)
    have hupdate := Query.update_of_known hne hknown secret expected
    refine ⟨⟨.row, .update columns.names expected.isSome,
        secret :: (columns.map (·.2) ++ expected.toList)⟩, ?_, Sql.text_update _ _, ?_, rfl,
      fun i name value hcell => ?_, ?_⟩
    · rw [updatePartial, hupdate]
      exact query_state ..
    · have hlength : (secret :: (columns.map (·.2) ++ expected.toList)).length =
          columns.names.length + 1 + expected.isSome.toNat := by
        cases expected <;> simp [Assoc.names]
      rw [Sql.placesIn_update hdollar, hlength]
      exact Query.perm_places _ _
    · obtain ⟨hi, -⟩ := List.getElem?_eq_some_iff.mp hcell
      change (columns.map (·.2) ++ expected.toList)[i]? = some value
      rw [List.getElem?_append_left (by simpa using hi), List.getElem?_map, hcell]
      rfl
    · rintro version rfl
      refine ⟨by simp, ?_⟩
      change (columns.map (·.2) ++ [version])[columns.length]? = some version
      rw [List.getElem?_append_right (by simp), List.length_map, Nat.sub_self]
      rfl
  · rintro rfl
    rfl
  · intro name hname hunknown
    rw [updatePartial, Query.update_of_unknown hname hunknown]
  · have hdollar : ∀ name ∈ Sql.insertColumns.filter row.has, 0x24 ∉ name := fun name hname =>
      (show ∀ name ∈ Sql.insertColumns, 0x24 ∉ name by decide) name (List.mem_filter.mp hname).1
    refine ⟨.insert row, query_state .., Sql.text_insert _, ?_, fun i name hname => ?_⟩
    · rw [Query.insert, Sql.placesIn_insert hdollar, List.length_map]
    · have hhas := (List.mem_filter.mp (List.mem_of_getElem? hname)).2
      obtain ⟨v, hv⟩ := Option.isSome_iff_exists.mp hhas
      change ((Sql.insertColumns.filter row.has).map fun name => (row.get? name).getD .null)[i]? = _
      rw [List.getElem?_map, hname, hv, Option.map_some, hv]
      rfl

/-- Columns out of order with an expected version, and the column of the owner. -/
theorem tag_before_iv_under_version :
    let p := Pool.start [] (.counting 0)
    let columns : Row := [("titleTag", .text "t"), ("dataIV", .null)]
    (∃ q, (updatePartial (.text "s1") columns (some (.int 4)) p).2 =
        p.saw [.acquire, .statement q, .release] ∧
      q.sql.text = Text.ofString "\nUPDATE consumer_secrets\nSET " ++
        "\"titleTag\" = $2, \"dataIV\" = $3, version = version + 1, \"updatedAt\" = NOW()\n" ++
        "WHERE id = $1 AND version = $4\nRETURNING *\n" ∧
      q.argument? 2 = some (.text "t") ∧ q.argument? 3 = some .null ∧
      q.argument? 4 = some (.int 4)) ∧
    updatePartial (.text "s1") [("titleTag", .text "t"), ("orgId", .text "o2")] none p =
      (.error (.columnsNotUpdatable ["orgId"]), p) := by
  intro p columns
  obtain ⟨updates, refuses, -⟩ := placeholders_bind_their_columns p
  obtain ⟨q, hseen, htext, -, -, hcolumns, hversion⟩ :=
    updates (.text "s1") columns (some (.int 4)) (by simp [columns]) (by decide)
  refine ⟨⟨q, hseen, htext.trans (by decide +kernel), hcolumns 0 _ _ rfl, hcolumns 1 _ _ rfl,
    (hversion _ rfl).2⟩, (refuses _ _ _).2 "orgId" (by decide) (by decide)⟩

end Postgres
end EnvelopeVault
