import EnvelopeVault.Proofs.Effect
import EnvelopeVault.Proofs.Neutral
import EnvelopeVault.Proofs.World
import EnvelopeVault.Request

/-!
# Operations of the vault as trees

Where an operation accesses what, and how its parts can fail. An update is two
decisions around a key lookup: `admits` decides on the row that was read, the
store decides on the row that it is to write (`update_eq`, `writeChanges_eq`).
-/

namespace EnvelopeVault

namespace Program

variable {P : Access → Prop}

theorem Ensures.bind_neutral {α β : Type} {p : Program α} {f : α → Program β} {R : α → Prop}
    {S : β → Prop} (hp : p.Ensures P (Neutral R)) (hf : ∀ a, R a → (f a).Ensures P (Neutral S)) :
    (p.bind f).Ensures P (Neutral S) :=
  hp.bind (fun _ he => he) hf

end Program

-- ---------------------------------------------------------------------------
-- Keys and sealing
-- ---------------------------------------------------------------------------

theorem OrgKey.resolve_ensures (root : Bytes) {org : Value} (hP : P (.findKey org)) :
    (resolve root org).Ensures P (Neutral fun _ => True) :=
  ((resolve_ends root hP).neutral fun _ => Unresolved.isNeutral).mono (fun _ ha => ha) <| by
    rintro (e | key) h
    · exact h
    · trivial

theorem Sealing.encryptAll_ensures (key : Bytes) (texts : Assoc Text) :
    (encryptAll key texts).Ensures P
      (Neutral fun fields => Assoc.names fields = texts.names) :=
  (encryptAll_ends key texts).neutral fun _ => .of_foreign

-- ---------------------------------------------------------------------------
-- Updates
-- ---------------------------------------------------------------------------

theorem Attributes.get?_toList {α : Type} (r : Attributes α) (a : Attribute) :
    Assoc.get? r.toList a.name = some (r.get a) := by
  cases a <;> rfl

theorem Attribute.mem_all (a : Attribute) : a ∈ all := by
  cases a <;> decide

theorem Attributes.rel_toList {α β : Type} {R : Text → α → β → Prop} {x : Attributes α}
    {y : Attributes β} (h : ∀ a, R a.name (x.get a) (y.get a)) : Assoc.Rel R x.toList y.toList :=
  .cons (h .title) (.cons (h .type) (.cons (h .data) (.cons (h .comment) .nil)))

theorem Changes.rel_provided {c c' : Changes} {R : Text → Text → Text → Prop}
    (h : ∀ a, (c.get a).Rel (R a.name) (c'.get a)) : Assoc.Rel R c.provided c'.provided := by
  have hlist : Assoc.Rel (fun name t t' => Option.Rel (R name) t t') c.toList c'.toList :=
    Attributes.rel_toList h
  unfold provided
  generalize c.toList = texts at hlist ⊢
  generalize c'.toList = texts' at hlist ⊢
  induction hlist with
  | nil => exact .nil
  | @cons name t t' left right head tail ih =>
    cases head with
    | none => exact ih
    | some ht => exact .cons ht ih

theorem Changes.names_provided (c : Changes) :
    (Assoc.names c.provided).Sublist (Attribute.all.map (·.name)) :=
  Assoc.names_present c.toList

theorem Changes.nodup_provided (c : Changes) : (Assoc.names c.provided).Nodup :=
  List.Nodup.sublist c.names_provided (by decide)

theorem Changes.get?_provided (c : Changes) (a : Attribute) :
    Assoc.get? c.provided a.name = c.get a := by
  have hnames : (Assoc.names c.toList).Nodup :=
    show (Attribute.all.map (·.name)).Nodup by decide
  change (Assoc.present c.toList).get? a.name = _
  rw [Assoc.get?_present hnames, Attributes.get?_toList]
  rfl

theorem Attributes.forall_mem_toList {α : Type} {r : Attributes α} {P : α → Prop}
    (h : ∀ a, P (r.get a)) : ∀ pair ∈ r.toList, P pair.2 := by
  intro pair hm
  obtain ⟨a, -, rfl⟩ := List.mem_map.mp hm
  exact h a

theorem Changes.forall_mem_provided {c : Changes} {P : Text → Prop}
    (h : ∀ a t, c.get a = some t → P t) : ∀ pair ∈ c.provided, P pair.2 := by
  rintro ⟨name, t⟩ hm
  obtain ⟨⟨_, t?⟩, hm, ht⟩ := List.mem_filterMap.mp hm
  obtain ⟨a, -, ha⟩ := List.mem_map.mp hm
  cases ha
  obtain ⟨_, hget, hpair⟩ := Option.map_eq_some_iff.mp ht
  cases hpair
  exact h a t hget

theorem Changes.provided_isEmpty (c : Changes) :
    c.provided.isEmpty = true ↔ c = ⟨none, none, none, none⟩ := by
  constructor
  · intro h
    have hnone (a : Attribute) : c.get a = none := by
      rw [← Changes.get?_provided, List.isEmpty_iff.mp h]
      rfl
    obtain ⟨title, type, data, comment⟩ := c
    cases hnone .title
    cases hnone .type
    cases hnone .data
    cases hnone .comment
    rfl
  · rintro rfl
    rfl

namespace Vault

variable {root : Bytes} {secret org : Value} {changes : Changes} {expected : Option Value}

def ownedRecord (operation : Text) (secret org : Value) : Option Value → Except Failure SecretRecord
  | none => .error (notFound operation secret org)
  | some row => do
    let owner ← Layout.cellOf row "orgId"
    if owner.toText = org.toText then Layout.recordOf row
    else .error (notFound operation secret org)

theorem fetchOwned_eq (operation : Text) (secret org : Value) :
    fetchOwned operation secret org =
      .access (.fetch secret) fun found => .done (ownedRecord operation secret org found) := by
  refine congrArg (Program.access (.fetch secret)) (funext fun found => ?_)
  cases found with
  | none => rfl
  | some row =>
    simp only [ownedRecord, Program.bind_eq, Program.ofExcept_bind, Program.bind]
    cases Layout.cellOf row "orgId" with
    | error e => rfl
    | ok owner =>
      simp only [bind, Except.bind]
      split <;> rfl

def admits (secret org : Value) (expected found : Option Value) : Except Failure Unit := do
  let record ← ownedRecord updateOperation secret org found
  match expected with
  | none => .ok ()
  | some version =>
    if version.isNumber record.version then .ok () else .error (conflict secret org version)

def sealChanges (root : Bytes) (changes : Changes) (org : Value) :
    Program (List (Text × Field)) :=
  (OrgKey.resolve root org).bind fun key => Sealing.encryptChanges key changes

theorem sealChanges_ensures (root : Bytes) (changes : Changes) (hP : P (.findKey org)) :
    (sealChanges root changes org).Ensures P
      (Neutral fun fields => (Assoc.names fields).Nodup) := by
  refine (OrgKey.resolve_ensures root hP).bind_neutral fun key _ => ?_
  refine (Sealing.encryptAll_ensures key changes.provided).mono (fun _ ha => ha) ?_
  rintro (e | fields) h
  · exact h
  · change (Assoc.names fields).Nodup
    rw [show Assoc.names fields = _ from h]
    exact changes.nodup_provided

theorem conflict_isConflict (secret org version : Value) :
    (conflict secret org version).IsConflict := by
  rw [conflict]
  split
  · exact .inl rfl
  · exact .inr rfl

theorem notFound_not_isConflict (operation : Text) (secret org : Value) :
    ¬ (notFound operation secret org).IsConflict :=
  fun h => nomatch h.kind_eq rfl

/-- How an update ends that the store refused, by what it finds then. -/
def refusal (secret org : Value) : (expected found : Option Value) → Failure
  | some version, some _ => conflict secret org version
  | _, _ => notFound updateOperation secret org

theorem refused_eq (secret org : Value) (expected : Option Value) :
    refused secret org expected =
      .access (.fetch secret) fun found => .done (.error (refusal secret org expected found)) := by
  refine congrArg (Program.access (.fetch secret)) (funext fun found => ?_)
  cases expected <;> cases found <;> rfl

def conclude (secret org : Value) (expected : Option Value) (fields : List (Text × Field)) :
    Option Value → Program Text
  | none => refused secret org expected
  | some row =>
    .note (.secretUpdated secret.toText (fields.map (·.1)))
      (.done ((Layout.cellOf row "id").map (·.toText)))

theorem writeChanges_eq (root : Bytes) (secret : Value) (changes : Changes) (org : Value)
    (expected : Option Value) :
    writeChanges root secret changes org expected =
      (sealChanges root changes org).bind fun fields =>
        .access (.update secret (Layout.columnsOf fields) expected)
          (conclude secret org expected fields) := by
  rw [sealChanges, Program.bind_assoc]
  refine congrArg _ (funext fun key => congrArg _ (funext fun fields => ?_))
  refine congrArg _ (funext fun answer => ?_)
  cases answer with
  | none => rfl
  | some row =>
    simp only [Program.bind_eq, Program.log_bind, Program.ofExcept_bind]
    cases Layout.cellOf row "id" <;> rfl

def proceed (root : Bytes) (secret : Value) (changes : Changes) (org : Value)
    (expected found : Option Value) : Program Text :=
  match admits secret org expected found with
  | .error e => .done (.error e)
  | .ok () => writeChanges root secret changes org expected

theorem update_eq (h : changes.provided.isEmpty = false) :
    update root secret changes org expected =
      .access (.fetch secret) (proceed root secret changes org expected) := by
  simp only [update, h, Bool.false_eq_true, if_false, fetchOwned_eq, Program.bind_eq, Program.bind]
  refine congrArg (Program.access (.fetch secret)) (funext fun found => ?_)
  simp only [proceed, admits]
  cases ownedRecord updateOperation secret org found with
  | error e => rfl
  | ok record =>
    cases expected with
    | none => rfl
    | some version =>
      simp only [Program.bind, bind, Except.bind]
      split <;> simp_all [Program.fail]

-- ---------------------------------------------------------------------------
-- The row that an update reads
-- ---------------------------------------------------------------------------

open Layout

theorem ownedRecord_eq_ok_iff {row : Row} :
    ownedRecord operation secret org (some (.map row)) = .ok r ↔
      Reads row r ∧ r.orgId = org.toText := by
  simp only [ownedRecord, bind_ok, cellOf, cell_eq_ok_iff]
  constructor
  · rintro ⟨owner, howner, h⟩
    split at h
    · rename_i hown
      have hr := recordOf_eq_ok_iff.mp h
      obtain ⟨owner', howner', ho⟩ := hr.org
      cases howner.symm.trans howner'
      exact ⟨hr, ho.symm.trans hown⟩
    · cases h
  · rintro ⟨hr, ho⟩
    obtain ⟨owner, howner, hown⟩ := hr.org
    exact ⟨owner, howner, by rw [if_pos (hown.trans ho), recordOf_eq_ok_iff.mpr hr]⟩

theorem ownedRecord_foreign {row : Row}
    (h : Holds row "orgId" fun owner => owner.toText ≠ org.toText) :
    ownedRecord operation secret org (some (.map row)) =
      .error (notFound operation secret org) := by
  obtain ⟨owner, howner, hne⟩ := h
  have hcell : cellOf (.map row) "orgId" = .ok owner := cell_eq_ok_iff.mpr howner
  simp [ownedRecord, hcell, bind, Except.bind, hne]

/-- A row is refused as not found, or it cannot be read. -/
theorem ownedRecord_error {found : Option Row}
    (h : ownedRecord operation secret org (found.map .map) = .error e) :
    e.IsNeutral ∨
      (e = notFound operation secret org ∧
        ∀ row, found = some row → Holds row "orgId" fun owner => owner.toText ≠ org.toText) := by
  cases found with
  | none =>
    cases h
    exact .inr ⟨rfl, fun row hrow => nomatch hrow⟩
  | some row =>
    rcases bind_error h with h | ⟨owner, howner, h⟩
    · exact .inl ((cellOf_neutral ..).error h)
    split at h
    · exact .inl ((recordOf_neutral _).error h)
    · rename_i hne
      cases h
      refine .inr ⟨rfl, fun row' hrow => ?_⟩
      cases hrow
      exact ⟨owner, cell_eq_ok_iff.mp howner, hne⟩

theorem admits_of_reads {row : Row} (hr : Reads row r) (ho : r.orgId = org.toText) :
    admits secret org expected (some (.map row)) =
      if expected.all (·.isNumber r.version) then .ok ()
      else .error (conflict secret org (expected.getD .null)) := by
  simp only [admits, ownedRecord_eq_ok_iff.mpr ⟨hr, ho⟩, bind, Except.bind]
  cases expected <;> simp

theorem reads_of_admits {row : Row} (h : admits secret org expected (some (.map row)) = .ok ()) :
    ∃ r, Reads row r ∧ r.orgId = org.toText := by
  obtain ⟨r, hr, -⟩ := bind_ok.mp h
  exact ⟨r, ownedRecord_eq_ok_iff.mp hr⟩

theorem admits_error {found : Option Row}
    (h : admits secret org expected (found.map .map) = .error e) :
    e.IsNeutral ∨
      (e = notFound updateOperation secret org ∧
        ∀ row, found = some row → Holds row "orgId" fun owner => owner.toText ≠ org.toText) ∨
      ∃ row r version, found = some row ∧ Reads row r ∧ expected = some version ∧
        version.isNumber r.version = false ∧ e = conflict secret org version := by
  rcases bind_error h with h | ⟨r, hr, hversion⟩
  · rcases ownedRecord_error h with hn | hn
    · exact .inl hn
    · exact .inr (.inl hn)
  · cases found with
    | none => cases hr
    | some row =>
      split at hversion
      · cases hversion
      · split at hversion <;> cases hversion
        exact .inr (.inr ⟨row, r, _, rfl, (ownedRecord_eq_ok_iff.mp hr).1, rfl,
          Bool.eq_false_iff.mpr ‹_›, rfl⟩)

-- ---------------------------------------------------------------------------
-- The other operations
-- ---------------------------------------------------------------------------

theorem openOrBlame_ensures (key : Bytes) (record : SecretRecord) (a : Attribute) :
    (Sealing.openOrBlame key record a).Ensures P fun _ => True := by
  unfold Sealing.openOrBlame
  split
  · trivial
  · unfold Sealing.blame
    repeat' split
    all_goals trivial

theorem decryptRecord_ensures (key : Bytes) (record : SecretRecord) :
    (Sealing.decryptRecord key record).Ensures P fun _ => True := by
  have opens (a : Attribute) := openOrBlame_ensures (P := P) key record a
  unfold Sealing.decryptRecord
  split
  · exact (opens _).bind_any fun _ => (opens _).bind_any fun _ => (opens _).bind_any fun _ =>
      (opens _).bind_any fun _ => trivial
  · trivial

theorem openRows_ensures (key : Bytes) (rows : List Value) :
    (openRows key rows).Ensures P fun _ => True := by
  induction rows with
  | nil => trivial
  | cons row rows ih =>
    refine Program.Ensures.bind_any trivial fun record => ?_
    exact (decryptRecord_ensures key record).bind_any fun _ => ih.bind_any fun _ => trivial

theorem resolve_lookups (root : Bytes) (org : Value) :
    (OrgKey.resolve root org).Ensures Access.IsLookup fun _ => True :=
  (OrgKey.resolve_ensures root ⟨org, rfl⟩).mono (fun _ ha => ha) fun _ _ => trivial

theorem get_brief (root : Bytes) (secret org : Value) :
    (get root secret org).Brief (· = .fetch secret) := by
  rw [get, fetchOwned_eq]
  exact Program.Brief.bind (.inr ⟨rfl, fun _ => trivial⟩) fun record =>
    (resolve_lookups root org).bind_any fun key => decryptRecord_ensures key record

theorem list_brief (root : Bytes) (org user : Value) :
    (list root org user).Brief (· = .fetchFiltered org user true) :=
  Program.Brief.bind_lookups (resolve_lookups root org) fun key _ =>
    .call_bind rfl fun rows => (openRows_ensures key rows).bind_any fun _ => trivial

theorem delete_brief (secret : Value) : (delete secret).Brief (· = .delete secret) := by
  refine .call_bind rfl fun gone => ?_
  cases gone with
  | none => trivial
  | some row =>
    exact Program.Ensures.bind_any trivial fun _ => .ofExcept_bind fun _ => trivial

section NewRow

variable {fields : Assoc Field} (hf : fields.names.Nodup) (org user : Value)
include hf

theorem get?_newRow_plain (h : isPlain name) :
    (newRow org user fields).get? name =
      Assoc.get? [("algorithm", .text aes256Gcm), ("keyEncoding", .text KeyEncoding.utf8.label),
        ("userId", user), ("orgId", org)] name := by
  rw [newRow, Assoc.putAll_append, Assoc.get?_putAll (show List.Nodup _ by decide),
    Assoc.get?_putAll (nodup_names_columnsOf hf), get?_columnsOf_plain hf h, Option.none_or,
    ← Assoc.get?_append]
  rfl

theorem get?_newRow_column :
    (newRow org user fields).get? (column name part) =
      (fields.get? name).map fun f => .text (f.get part) := by
  have howner : Assoc.get? [("userId", user), ("orgId", org)] (column name part) = none :=
    get?_column_of_plain (show (["userId", "orgId"] : List Text).all isPlain by decide)
  rw [newRow, Assoc.putAll_append, Assoc.get?_putAll (show List.Nodup _ by decide),
    Assoc.get?_putAll (nodup_names_columnsOf hf), get?_columnsOf hf, howner, Option.or_none,
    get?_column_of_plain (by decide), Option.none_or]

omit hf in
theorem nodup_newRow : (newRow org user fields).names.Nodup := by
  have howner : (Assoc.names [("userId", user), ("orgId", org)]).Nodup :=
    show (["userId", "orgId"] : List Text).Nodup by decide
  exact Assoc.nodup_putAll howner _

theorem get?_inserted_plain {name : Text} (id : Value) (hne : "id" ≠ name) (h : isPlain name) :
    (Memory.insertedRow id (newRow org user fields)).get? name =
      (Assoc.get? [("algorithm", .text aes256Gcm), ("keyEncoding", .text KeyEncoding.utf8.label),
        ("userId", user), ("orgId", org)] name).or (Memory.blankRow.get? name) := by
  rw [Memory.get?_insertedRow (nodup_newRow org user) id hne, get?_newRow_plain hf org user h]

theorem get?_inserted_column (id : Value) :
    (Memory.insertedRow id (newRow org user fields)).get? (column name part) =
      ((fields.get? name).map fun f => .text (f.get part)).or
        (Memory.blankRow.get? (column name part)) := by
  rw [Memory.get?_insertedRow (nodup_newRow org user) id (ne_column (by decide)),
    get?_newRow_column hf]

theorem reads_inserted (hall : ∀ a : Attribute, ∃ f, fields.get? a.name = some f) (id : Value) :
    Reads (Memory.insertedRow id (newRow org user fields))
      ⟨id.toText, user.toText, org.toText, .ofFn fun a => fields.get? a.name, aes256Gcm,
        KeyEncoding.utf8.label, 1, none, none⟩ := by
  have hcell {name : Text} := @get?_inserted_plain fields hf org user name id
  refine ⟨⟨id, Memory.get?_insertedRow_id .., rfl⟩,
    ⟨user, hcell (by decide) (by decide), rfl⟩, ⟨org, hcell (by decide) (by decide), rfl⟩,
    ⟨.text aes256Gcm, hcell (by decide) (by decide), rfl⟩,
    ⟨.text KeyEncoding.utf8.label, hcell (by decide) (by decide), rfl⟩,
    ⟨.int 1, hcell (by decide) (by decide), rfl⟩, ⟨.null, hcell (by decide) (by decide), rfl⟩,
    ⟨.null, hcell (by decide) (by decide), rfl⟩, fun a => ?_⟩
  obtain ⟨f, hget⟩ := hall a
  rw [Attributes.get_ofFn, hget]
  refine .texts fun part => ?_
  rw [get?_inserted_column hf, hget]
  rfl

end NewRow

theorem names_texts (draft : Draft) :
    Assoc.names draft.texts.toList = Attribute.all.map (·.name) := rfl

theorem create_brief (root : Bytes) (draft : Draft) (org user : Value) :
    (create root draft org user).Brief fun a =>
      ∃ row, a = .insert row ∧ row.get? "id" = none ∧ row.get? "version" = none := by
  refine Program.Brief.bind_lookups (resolve_lookups root org) fun key _ => ?_
  refine Program.Brief.bind_lookups (Sealing.encryptAll_ensures key _) fun fields hf => ?_
  have hn : (Assoc.names fields).Nodup := by
    rw [show Assoc.names fields = _ from hf, names_texts]
    decide
  have hrow := @get?_newRow_plain fields hn org user
  exact .call_bind ⟨_, rfl, hrow (by decide), hrow (by decide)⟩ fun created =>
    Program.Ensures.ofExcept_bind fun _ => trivial

end Vault
end EnvelopeVault
