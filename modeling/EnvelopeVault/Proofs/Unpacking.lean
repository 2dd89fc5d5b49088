import EnvelopeVault.Proofs.JsonGrammar
import EnvelopeVault.Proofs.Payload

/-!
# Which data is unpacked

`unpacks_exactly_described_payloads`. The data of a known kind is a document of an
object that has a text for each declared field (`FieldsRead`); anything else is
refused with what is wrong about it. Of repeated names the last counts, and a
field's own name counts only where its outer name does not occur.
-/

namespace EnvelopeVault.Payload

-- ---------------------------------------------------------------------------
-- What is unpacked, and what is wrong with the rest
-- ---------------------------------------------------------------------------

/-- The document that data is, as a text or as the octets of one. -/
inductive Denotes : Value → Json → Prop
  | text (h : Json.IsDocument t j) : Denotes (.text t) j
  | bytes (hb : Utf8.encode t = .ok b) (h : Json.IsDocument t j) : Denotes (.bytes b) j

structure DeclaredField where
  name : Text
  /-- The name in documents. -/
  outer : Text
  /-- How many code points a text has at most. -/
  limit : Option Nat

def declared : SecretKind → List DeclaredField
  | .webLogin => [⟨"username", "username", some 255⟩, ⟨"password", "password", some 255⟩]
  | .creditCard =>
    [⟨"card_number", "cardNumber", some 16⟩, ⟨"expiry_date", "expiryDate", none⟩,
      ⟨"cvv", "cvv", some 4⟩]
  | .secureNote => [⟨"note", "note", some 10000⟩]

section

variable (members : Assoc Json)

def IsLast (name : Text) (j : Json) : Prop :=
  ∃ before after, members = before ++ (name, j) :: after ∧ name ∉ Assoc.names after

/-- The value of a field, and the name that it is under. -/
inductive Holds (f : DeclaredField) : Text → Json → Prop
  | outer (h : IsLast members f.outer j) : Holds f f.outer j
  | own (ho : f.outer ∉ members.names) (h : IsLast members f.name j) : Holds f f.name j

inductive HasText (f : DeclaredField) : Text → Prop
  | intro {t : Text} (h : Holds members f name (.scalar (.text t)))
      (hl : ∀ limit, f.limit = some limit → t.length ≤ limit) : HasText f t

inductive HasFault (f : DeclaredField) : Fault → Prop
  | missing (ho : f.outer ∉ members.names) (hn : f.name ∉ members.names) :
      HasFault f ⟨.missing, [f.outer]⟩
  | notText (h : Holds members f name j) (hj : ∀ t, j ≠ .scalar (.text t)) :
      HasFault f ⟨.notText, [name]⟩
  | tooLong {t : Text} {limit : Nat} (h : Holds members f name (.scalar (.text t)))
      (hl : f.limit = some limit) (ht : limit < t.length) :
      HasFault f ⟨.textTooLong limit, [name]⟩

/-- Field by field, the texts under the fields' own names, and the faults of the others. -/
inductive FieldsRead : List DeclaredField → List (Text × Text) → List Fault → Prop
  | nil : FieldsRead [] [] []
  | text (hf : HasText members f t) (h : FieldsRead fs texts faults) :
      FieldsRead (f :: fs) ((f.name, t) :: texts) faults
  | fault (hf : HasFault members f fault) (h : FieldsRead fs texts faults) :
      FieldsRead (f :: fs) texts (fault :: faults)

end

/-- What comes of data that is to be of a kind. -/
inductive Unpacks (kind : SecretKind) (data : Value) : Except Failure Payload → Prop
  | payload {members : Assoc Json} (hd : Denotes data (.object members)) (hk : p.kind = kind)
      (h : FieldsRead members (declared kind) p.fields []) : Unpacks kind data (.ok p)
  | noDocument (hd : ∀ j, ¬Denotes data j) : Unpacks kind data (.error .notAPayload)
  | noObject (hd : Denotes data j) (hj : ∀ members, j ≠ .object members) :
      Unpacks kind data
        (.error (.invalid (modelName kind) [⟨.notDocument (modelName kind), []⟩]))
  | faulty {members : Assoc Json} (hd : Denotes data (.object members))
      (h : FieldsRead members (declared kind) texts faults) (hne : faults ≠ []) :
      Unpacks kind data (.error (.invalid (modelName kind) faults))

-- ---------------------------------------------------------------------------
-- Names and values
-- ---------------------------------------------------------------------------

theorem parse_eq_some_iff {data : Value} : parse data = some j ↔ Denotes data j := by
  constructor
  · intro h
    unfold parse at h
    split at h
    · exact .text (Json.read_eq_some_iff.mp h)
    · split at h
      · exact .bytes (Utf8.decode_eq_ok_iff.mp ‹_›) (Json.read_eq_some_iff.mp h)
      · cases h
    · cases h
  · intro h
    cases h with
    | text h => exact Json.read_eq_some_iff.mpr h
    | bytes hb h =>
      simp only [parse, Utf8.decode_eq_ok_iff.mpr hb]
      exact Json.read_eq_some_iff.mpr h

def cells (members : Assoc Json) : Assoc Value := Assoc.putAll [] (Json.memberValues members)

section

variable {members : Assoc Json}

theorem names_memberValues (members : Assoc Json) :
    Assoc.names (Json.memberValues members) = members.names := by
  rw [memberValues_eq, Assoc.names, List.map_map]
  rfl

theorem get?_of_isLast (h : IsLast members name j) :
    (cells members).get? name = some j.toValue := by
  obtain ⟨before, after, rfl, hn⟩ := h
  rw [cells, memberValues_eq, List.map_append, List.map_cons, Assoc.putAll_append,
    Assoc.putAll_cons, ← memberValues_eq after, Assoc.get?_putAll_of_not_mem, Assoc.get?_put,
    if_pos rfl]
  rwa [names_memberValues]

theorem get?_of_not_mem (h : name ∉ members.names) : (cells members).get? name = none := by
  rw [cells, Assoc.get?_putAll_of_not_mem (by rwa [names_memberValues])]
  rfl

theorem isLast_or_not_mem (members : Assoc Json) (name : Text) :
    (∃ j, IsLast members name j) ∨ name ∉ members.names := by
  induction members with
  | nil => exact .inr List.not_mem_nil
  | cons member rest ih =>
    obtain ⟨other, j⟩ := member
    rcases ih with ⟨last, before, after, rfl, hn⟩ | hn
    · exact .inl ⟨last, (other, j) :: before, after, rfl, hn⟩
    · by_cases ho : name = other
      · subst ho
        exact .inl ⟨j, [], rest, rfl, hn⟩
      · exact .inr (by simpa [ho] using hn)

theorem mem_of_holds (h : Holds members f name j) : (name, j) ∈ members := by
  cases h with
  | outer h =>
    obtain ⟨before, after, rfl, -⟩ := h
    simp
  | own _ h =>
    obtain ⟨before, after, rfl, -⟩ := h
    simp

theorem holds_or_missing (members : Assoc Json) (f : DeclaredField) :
    (∃ name j, Holds members f name j) ∨ (f.outer ∉ members.names ∧ f.name ∉ members.names) := by
  rcases isLast_or_not_mem members f.outer with ⟨j, h⟩ | ho
  · exact .inl ⟨_, _, .outer h⟩
  · rcases isLast_or_not_mem members f.name with ⟨j, h⟩ | hn
    · exact .inl ⟨_, _, .own ho h⟩
    · exact .inr ⟨ho, hn⟩

theorem hasText_or_hasFault (members : Assoc Json) (f : DeclaredField) :
    (∃ t, HasText members f t) ∨ ∃ fault, HasFault members f fault := by
  rcases holds_or_missing members f with ⟨name, j, h⟩ | ⟨ho, hn⟩
  · by_cases hj : ∃ t, j = .scalar (.text t)
    · obtain ⟨t, rfl⟩ := hj
      by_cases hl : ∃ limit, f.limit = some limit ∧ limit < t.length
      · obtain ⟨limit, hlimit, ht⟩ := hl
        exact .inr ⟨_, .tooLong h hlimit ht⟩
      · exact .inl ⟨t, .intro h fun limit hlimit =>
          Nat.not_lt.mp fun ht => hl ⟨limit, hlimit, ht⟩⟩
    · exact .inr ⟨_, .notText h fun t he => hj ⟨t, he⟩⟩
  · exact .inr ⟨_, .missing ho hn⟩

theorem exists_fieldsRead (members : Assoc Json) (fs : List DeclaredField) :
    ∃ texts faults, FieldsRead members fs texts faults := by
  induction fs with
  | nil => exact ⟨_, _, .nil⟩
  | cons f fs ih =>
    obtain ⟨texts, faults, h⟩ := ih
    rcases hasText_or_hasFault members f with ⟨t, hf⟩ | ⟨fault, hf⟩
    · exact ⟨_, _, .text hf h⟩
    · exact ⟨_, _, .fault hf h⟩

end

-- ---------------------------------------------------------------------------
-- Reading a field
-- ---------------------------------------------------------------------------

def reader : Option Nat → Value → Checked Text
  | some limit => Checked.textUpTo limit
  | none => Checked.text

def readField (doc : Assoc Value) (f : DeclaredField) : Checked Text :=
  requiredField f.name (reader f.limit) doc

theorem outer_of_declared {kind : SecretKind} (h : f ∈ declared kind) :
    f.outer = outerName f.name := by
  cases kind <;> simp only [declared, List.mem_cons, List.not_mem_nil, or_false] at h
  · rcases h with rfl | rfl <;> rfl
  · rcases h with rfl | rfl | rfl <;> rfl
  · subst h
    rfl

section

variable {members : Assoc Json} {f : DeclaredField} (ho : f.outer = outerName f.name)

include ho

theorem readField_of_holds (h : Holds members f name j) :
    readField (cells members) f = Checked.under name (reader f.limit j.toValue) := by
  unfold readField requiredField
  rw [← ho]
  cases h with
  | outer h =>
    have hv := get?_of_isLast h
    simp [Assoc.has, Checked.required, hv]
  | own hn h =>
    have hv := get?_of_isLast h
    have hno := get?_of_not_mem hn
    simp [Assoc.has, Checked.required, hv, hno]

theorem readField_of_missing (hn : f.outer ∉ members.names) (hown : f.name ∉ members.names) :
    readField (cells members) f = .faulty [⟨.missing, [f.outer]⟩] := by
  have hno := get?_of_not_mem hn
  have hnown := get?_of_not_mem hown
  unfold readField requiredField
  rw [← ho]
  simp [Assoc.has, Checked.required, hno, hnown, Checked.under, Checked.fault]

end

theorem text_of_not_text {j : Json} (h : ∀ t, j ≠ .scalar (.text t)) :
    Checked.text j.toValue = .faulty [⟨.notText, []⟩] := by
  cases j with
  | scalar s =>
    cases s with
    | text t => exact absurd rfl (h t)
    | _ => rfl
  | _ => rfl

theorem reader_of_not_text {j : Json} (h : ∀ t, j ≠ .scalar (.text t)) (limit : Option Nat) :
    reader limit j.toValue = .faulty [⟨.notText, []⟩] := by
  cases limit with
  | none => exact text_of_not_text h
  | some limit => rw [reader, Checked.textUpTo, text_of_not_text h]

theorem reader_text {t : Text} (ht : t.IsEncodable)
    (hl : ∀ bound, limit = some bound → t.length ≤ bound) :
    reader limit (Json.toValue (.scalar (.text t))) = .ok t := by
  cases limit with
  | none => rfl
  | some bound =>
    have htext : Checked.text (.text t) = .ok t := rfl
    exact Checked.textUpTo_eq_ok_iff.mpr ⟨htext, ht, hl bound rfl⟩

theorem reader_tooLong {t : Text} {bound : Nat} (ht : t.IsEncodable) (hl : bound < t.length) :
    reader (some bound) (Json.toValue (.scalar (.text t))) =
      .faulty [⟨.textTooLong bound, []⟩] := by
  simp only [reader, Json.toValue, Scalar.toValue, Checked.textUpTo, Checked.text]
  rw [Text.isEncodable_iff.mpr ht, if_neg Bool.false_ne_true, if_neg (Nat.not_le.mpr hl)]
  rfl

section

variable {members : Assoc Json} (ht : Json.TextsEncodable (Json.object members).tokens)

include ht

theorem isEncodable_of_holds {t : Text} (h : Holds members f name (.scalar (.text t))) :
    t.IsEncodable :=
  ht t (Json.mem_tokens_of_member (mem_of_holds h) (List.mem_singleton_self _))

theorem readField_of_hasText (ho : f.outer = outerName f.name) (h : HasText members f t) :
    readField (cells members) f = .ok t := by
  obtain ⟨h, hl⟩ := h
  rw [readField_of_holds ho h, reader_text (isEncodable_of_holds ht h) hl]
  rfl

theorem readField_of_hasFault (ho : f.outer = outerName f.name) (h : HasFault members f fault) :
    readField (cells members) f = .faulty [fault] := by
  cases h with
  | missing hno hnown => exact readField_of_missing ho hno hnown
  | notText h hj =>
    rw [readField_of_holds ho h, reader_of_not_text hj]
    rfl
  | tooLong h hl hlength =>
    rw [readField_of_holds ho h, hl, reader_tooLong (isEncodable_of_holds ht h) hlength]
    rfl

end

-- ---------------------------------------------------------------------------
-- Reading all fields
-- ---------------------------------------------------------------------------

def readFields (doc : Assoc Value) : List DeclaredField → Checked (List (Text × Text))
  | [] => .ok []
  | f :: fs => (fun t texts => (f.name, t) :: texts) <$> readField doc f <*> readFields doc fs

theorem readFields_of_fieldsRead {members : Assoc Json}
    (ht : Json.TextsEncodable (Json.object members).tokens)
    (ho : ∀ f ∈ fs, f.outer = outerName f.name) (h : FieldsRead members fs texts faults) :
    readFields (cells members) fs = if faults = [] then .ok texts else .faulty faults := by
  induction h with
  | nil => rfl
  | @text f t fs texts faults hf h ih =>
    obtain ⟨hfirst, ho⟩ := List.forall_mem_cons.mp ho
    rw [readFields, readField_of_hasText ht hfirst hf, ih ho]
    split <;> rfl
  | @fault f fault fs texts faults hf h ih =>
    obtain ⟨hfirst, ho⟩ := List.forall_mem_cons.mp ho
    rw [readFields, readField_of_hasFault ht hfirst hf, ih ho, if_neg (List.cons_ne_nil _ _)]
    split
    · subst faults
      rfl
    · rfl

theorem fields_read (kind : SecretKind) (doc : Assoc Value) :
    fields <$> read kind (.map doc) = readFields doc (declared kind) := by
  have unfolded (name outer : Text) (limit : Option Nat) :
      readField doc ⟨name, outer, limit⟩ = requiredField name (reader limit) doc := rfl
  cases kind with
  | webLogin =>
    simp only [read, Checked.document, declared, readFields, unfolded, reader]
    generalize requiredField "username" _ doc = username
    generalize requiredField "password" _ doc = password
    cases username <;> cases password <;> rfl
  | creditCard =>
    simp only [read, Checked.document, declared, readFields, unfolded, reader]
    generalize requiredField "card_number" _ doc = number
    generalize requiredField "expiry_date" _ doc = date
    generalize requiredField "cvv" _ doc = cvv
    cases number <;> cases date <;> cases cvv <;>
      first | rfl | exact congrArg Checked.faulty (List.append_assoc ..)
  | secureNote =>
    simp only [read, Checked.document, declared, readFields, unfolded, reader]
    generalize requiredField "note" _ doc = note
    cases note <;> rfl

theorem eq_of_fields {p q : Payload} (hk : p.kind = q.kind) (hf : p.fields = q.fields) :
    p = q := by
  cases p <;> cases q <;> cases hk
  all_goals
    cases hf
    rfl

section

variable {kind : SecretKind} {members : Assoc Json}
  (ht : Json.TextsEncodable (Json.object members).tokens)

include ht

theorem readFields_declared (h : FieldsRead members (declared kind) texts faults) :
    fields <$> read kind (Json.toValue (.object members)) =
      if faults = [] then .ok texts else .faulty faults :=
  (fields_read kind (cells members)).trans
    (readFields_of_fieldsRead ht (fun _ => outer_of_declared) h)

theorem read_of_texts (h : FieldsRead members (declared kind) texts []) :
    ∃ p, read kind (Json.toValue (.object members)) = .ok p ∧ p.kind = kind ∧
      p.fields = texts := by
  obtain ⟨p, hp, hfields⟩ := Checked.map_eq_ok_iff.mp (readFields_declared ht h)
  exact ⟨p, hp, (of_read hp).1, hfields⟩

theorem read_of_faults (h : FieldsRead members (declared kind) texts faults) (hne : faults ≠ []) :
    read kind (Json.toValue (.object members)) = .faulty faults := by
  have hmap := readFields_declared ht h
  rw [if_neg hne] at hmap
  cases hread : read kind (Json.toValue (.object members)) with
  | ok p =>
    rw [hread] at hmap
    cases hmap
  | faulty =>
    rw [hread] at hmap
    cases hmap
    rfl

end

-- ---------------------------------------------------------------------------
-- Unpacking
-- ---------------------------------------------------------------------------

theorem texts_of_denotes {data : Value} (h : Denotes data j) : Json.TextsEncodable j.tokens := by
  cases h with
  | text h => exact h.texts
  | bytes _ h => exact h.texts

theorem unpack_kind (kind : SecretKind) (data : Value) :
    unpack (.text kind.label) data =
      match parse data with
      | none => .error .notAPayload
      | some j => Failure.ofChecked (modelName kind) (read kind j.toValue) := by
  rw [unpack, kindOf_eq_ok_iff.mpr rfl]
  rfl

theorem read_of_noObject {j : Json} (hj : ∀ members, j ≠ .object members) (kind : SecretKind) :
    read kind j.toValue = .faulty [⟨.notDocument (modelName kind), []⟩] := by
  cases j with
  | object members => exact absurd rfl (hj members)
  | scalar s => cases s <;> rfl
  | array items => rfl

theorem unpack_of_unpacks {kind : SecretKind} (h : Unpacks kind data r) :
    unpack (.text kind.label) data = r := by
  rw [unpack_kind]
  cases h with
  | payload hd hk h =>
    obtain ⟨p, hread, hkind, hfields⟩ := read_of_texts (texts_of_denotes hd) h
    rw [parse_eq_some_iff.mpr hd]
    simp only [hread, eq_of_fields (hkind.trans hk.symm) hfields]
    rfl
  | noDocument hd =>
    have hparse : parse data = none :=
      Option.eq_none_iff_forall_ne_some.mpr fun j h => hd j (parse_eq_some_iff.mp h)
    rw [hparse]
  | noObject hd hj =>
    rw [parse_eq_some_iff.mpr hd]
    simp only [read_of_noObject hj]
    rfl
  | faulty hd h hne =>
    rw [parse_eq_some_iff.mpr hd]
    simp only [read_of_faults (texts_of_denotes hd) h hne]
    rfl

theorem exists_unpacks (kind : SecretKind) (data : Value) : ∃ r, Unpacks kind data r := by
  by_cases hd : ∃ j, Denotes data j
  · obtain ⟨j, hd⟩ := hd
    by_cases hj : ∃ members, j = .object members
    · obtain ⟨members, rfl⟩ := hj
      obtain ⟨texts, faults, h⟩ := exists_fieldsRead members (declared kind)
      by_cases hne : faults = []
      · subst hne
        obtain ⟨p, -, hk, rfl⟩ := read_of_texts (texts_of_denotes hd) h
        exact ⟨_, .payload hd hk h⟩
      · exact ⟨_, .faulty hd h hne⟩
    · exact ⟨_, .noObject hd fun members he => hj ⟨members, he⟩⟩
  · exact ⟨_, .noDocument fun j h => hd ⟨j, h⟩⟩

theorem unpack_eq_iff {kind : SecretKind} :
    unpack (.text kind.label) data = r ↔ Unpacks kind data r := by
  constructor
  · rintro rfl
    obtain ⟨r, h⟩ := exists_unpacks kind data
    rwa [unpack_of_unpacks h]
  · exact unpack_of_unpacks

theorem unpack_unknown {label : Text} (h : ∀ kind : SecretKind, label ≠ kind.label)
    (data : Value) : unpack (.text label) data = .error (.unknownSecretType (.text label)) := by
  have hkind : kindOf (.text label) = .error (.unknownSecretType (.text label)) := by
    cases hget : SecretKind.table.get? label with
    | none => simp only [kindOf, hget]
    | some kind =>
      have hlabel := kindOf_eq_ok_iff.mp
        (show kindOf (.text label) = .ok kind by simp only [kindOf, hget])
      exact absurd (Value.text.inj hlabel) (h kind)
  rw [unpack, hkind]
  rfl

-- ---------------------------------------------------------------------------
-- What does not count
-- ---------------------------------------------------------------------------

section

variable {members others : Assoc Json}

theorem not_mem_names_iff : name ∉ members.names ↔ ∀ j, ¬IsLast members name j := by
  constructor
  · rintro hn j ⟨before, after, rfl, -⟩
    exact hn (List.mem_map.mpr ⟨(name, j), by simp, rfl⟩)
  · intro h
    rcases isLast_or_not_mem members name with ⟨j, hj⟩ | hn
    · exact absurd hj (h j)
    · exact hn

/-- Two objects have the same values where it counts for a field. -/
def Agree (members others : Assoc Json) (f : DeclaredField) : Prop :=
  ∀ name, name = f.outer ∨ name = f.name →
    ∀ j, IsLast members name j ↔ IsLast others name j

theorem Agree.not_mem (h : Agree members others f) (hn : name = f.outer ∨ name = f.name) :
    name ∉ members.names ↔ name ∉ others.names := by
  simp only [not_mem_names_iff, h name hn]

theorem Agree.holds (h : Agree members others f) (hv : Holds members f name j) :
    Holds others f name j := by
  cases hv with
  | outer hv => exact .outer ((h _ (.inl rfl) j).mp hv)
  | own ho hv => exact .own ((h.not_mem (.inl rfl)).mp ho) ((h _ (.inr rfl) j).mp hv)

theorem fieldsRead_agree (h : FieldsRead members fs texts faults)
    (ha : ∀ f ∈ fs, Agree members others f) : FieldsRead others fs texts faults := by
  induction h with
  | nil => exact .nil
  | text hf _ ih =>
    obtain ⟨hfirst, ha⟩ := List.forall_mem_cons.mp ha
    obtain ⟨hv, hl⟩ := hf
    exact .text (.intro (hfirst.holds hv) hl) (ih ha)
  | fault hf _ ih =>
    obtain ⟨hfirst, ha⟩ := List.forall_mem_cons.mp ha
    refine .fault ?_ (ih ha)
    cases hf with
    | missing ho hn =>
      exact .missing ((hfirst.not_mem (.inl rfl)).mp ho) ((hfirst.not_mem (.inr rfl)).mp hn)
    | notText hv hj => exact .notText (hfirst.holds hv) hj
    | tooLong hv hl ht => exact .tooLong (hfirst.holds hv) hl ht

theorem unpack_agree {kind : SecretKind} (hd : Denotes data (.object members))
    (ho : Denotes other (.object others)) (ha : ∀ f ∈ declared kind, Agree members others f) :
    unpack (.text kind.label) data = unpack (.text kind.label) other := by
  obtain ⟨texts, faults, h⟩ := exists_fieldsRead members (declared kind)
  have h' := fieldsRead_agree h ha
  by_cases hne : faults = []
  · subst hne
    obtain ⟨p, -, hk, rfl⟩ := read_of_texts (texts_of_denotes hd) h
    rw [unpack_of_unpacks (.payload hd hk h), unpack_of_unpacks (.payload ho hk h')]
  · rw [unpack_of_unpacks (.faulty hd h hne), unpack_of_unpacks (.faulty ho h' hne)]

end

/-- Data of a known kind is unpacked exactly as it is described. Neither other names of its object
nor earlier values of a name make a difference. Any other label is refused by its name, whatever
the data. -/
theorem unpacks_exactly_described_payloads :
    (∀ (kind : SecretKind) (data : Value) (r : Except Failure Payload),
      unpack (.text kind.label) data = r ↔ Unpacks kind data r) ∧
    (∀ (kind : SecretKind) (members others : Assoc Json) (data other : Value),
      Denotes data (.object members) → Denotes other (.object others) →
        (∀ f ∈ declared kind, Agree members others f) →
          unpack (.text kind.label) data = unpack (.text kind.label) other) ∧
    (∀ label : Text, (∀ kind : SecretKind, label ≠ kind.label) → ∀ data : Value,
      unpack (.text label) data = .error (.unknownSecretType (.text label)) ∧
        Failure.message (.unknownSecretType (.text label)) =
          "Unknown consumer secret type: " ++ label) ∧
    Failure.message .notAPayload = "Secret data is not a valid payload" :=
  ⟨fun _ _ _ => unpack_eq_iff, fun _ _ _ _ _ hd ho ha => unpack_agree hd ho ha,
    fun _ h data => ⟨unpack_unknown h data, rfl⟩, rfl⟩

/-- A card whose number is under the field's own name, with an escape and with a name that comes
twice; one whose fields are all at fault; and the latter's data under a label that no kind has. -/
theorem cards_unpacked_as_described :
    let card : Text := "\x7b\"card_number\":\"4\\u0031\", \"expiryDate\":\"12/29\", " ++
      "\"cvv\":[null], \"x\":[\x7b\x7d], \"cvv\":\"123\"\x7d"
    let faulty : Text := "\x7b\"cardNumber\":null,\"card_number\":\"1\",\"cvv\":\"12345\"\x7d"
    unpack (.text "creditcard") (.text card) = .ok (.creditCard "41" "12/29" "123") ∧
      unpack (.text "creditcard") (.text faulty) = .error (.invalid "CreditCardPayload"
        [⟨.notText, ["cardNumber"]⟩, ⟨.missing, ["expiryDate"]⟩, ⟨.textTooLong 4, ["cvv"]⟩]) ∧
      unpack (.text "ssh-key") (.text faulty) =
        .error (.unknownSecretType (.text "ssh-key")) := by
  intro card faulty
  obtain ⟨described, -, unknown, -⟩ := unpacks_exactly_described_payloads
  let members : Assoc Json := [("card_number", .scalar (.text "41")),
    ("expiryDate", .scalar (.text "12/29")), ("cvv", .array [.scalar .null]),
    ("x", .array [.object []]), ("cvv", .scalar (.text "123"))]
  have hcard : Json.read card = some (.object members) := by
    have hlex : Json.lex card = some (Json.object members).tokens := by decide +kernel
    rw [Json.read, if_neg (by decide +kernel), Json.parse, hlex]
    rfl
  let others : Assoc Json := [("cardNumber", .scalar .null), ("card_number", .scalar (.text "1")),
    ("cvv", .scalar (.text "12345"))]
  have hfaulty : Json.read faulty = some (.object others) := by
    have hlex : Json.lex faulty = some (Json.object others).tokens := by decide +kernel
    rw [Json.read, if_neg (by decide +kernel), Json.parse, hlex]
    rfl
  have within {limit : Option Nat} {n bound : Nat} (h : limit = some bound) (hn : n ≤ bound) :
      ∀ other, limit = some other → n ≤ other := by
    rintro other ho
    cases h.symm.trans ho
    exact hn
  refine ⟨(described .creditCard _ _).mpr ?_, (described .creditCard _ _).mpr ?_,
    (unknown "ssh-key" (fun kind => by cases kind <;> decide) _).1⟩
  · have hnumber : HasText members ⟨"card_number", "cardNumber", some 16⟩ "41" :=
      .intro (.own (by decide) ⟨[], _, rfl, by decide⟩) (within rfl (by decide))
    have hdate : HasText members ⟨"expiry_date", "expiryDate", none⟩ "12/29" :=
      .intro (.outer ⟨[_], _, rfl, by decide⟩) nofun
    have hcvv : HasText members ⟨"cvv", "cvv", some 4⟩ "123" :=
      .intro (.outer ⟨[_, _, _, _], _, rfl, by decide⟩) (within rfl (by decide))
    exact .payload (.text (Json.read_eq_some_iff.mp hcard)) rfl
      (.text hnumber (.text hdate (.text hcvv .nil)))
  · have hnumber : HasFault others ⟨"card_number", "cardNumber", some 16⟩
        ⟨.notText, ["cardNumber"]⟩ :=
      .notText (.outer ⟨[], _, rfl, by decide⟩) nofun
    have hdate : HasFault others ⟨"expiry_date", "expiryDate", none⟩
        ⟨.missing, ["expiryDate"]⟩ :=
      .missing (by decide) (by decide)
    have hcvv : HasFault others ⟨"cvv", "cvv", some 4⟩ ⟨.textTooLong 4, ["cvv"]⟩ :=
      .tooLong (.outer ⟨[_, _], _, rfl, by decide⟩) rfl (by decide)
    exact .faulty (.text (Json.read_eq_some_iff.mp hfaulty))
      (.fault hnumber (.fault hdate (.fault hcvv .nil))) (List.cons_ne_nil _ _)

end EnvelopeVault.Payload
