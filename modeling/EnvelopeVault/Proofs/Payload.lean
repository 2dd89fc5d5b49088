import EnvelopeVault.Payload
import EnvelopeVault.Proofs.JsonReader
import EnvelopeVault.Proofs.Layout

/-!
# Payloads go in and come out

`payloads_round_trip`. Packing writes the texts under their outer names, and the
text is read as a document of these texts (`Json.read_print_ofTexts`). What is
unpacked can be packed: it is within its limits, and its texts are among the
tokens of a document, where there are no surrogates (`of_unpack`).
-/

namespace EnvelopeVault

namespace Checked

theorem textUpTo_eq_ok_iff {limit : Nat} {v : Value} :
    textUpTo limit v = .ok t ↔ text v = .ok t ∧ t.IsEncodable ∧ t.length ≤ limit := by
  rw [← Text.isEncodable_iff]
  constructor
  · intro h
    unfold textUpTo at h
    split at h
    · split at h
      · cases h
      · split at h <;> cases h
        exact ⟨‹_›, Bool.eq_false_iff.mpr ‹_›, ‹_›⟩
    · cases h
  · rintro ⟨htext, hs, hlength⟩
    simp [textUpTo, htext, hs, hlength]

theorem document_eq_ok_iff {read : Assoc Value → Checked α} {v : Value} :
    document model read v = .ok a ↔ ∃ doc, v = .map doc ∧ read doc = .ok a := by
  cases v <;> simp [document, fault]

theorem required_eq_ok_iff {read : Value → Checked α} {doc : Assoc Value} :
    required name read doc = .ok a ↔ ∃ v, doc.get? name = some v ∧ read v = .ok a := by
  unfold required
  split
  · rename_i h
    simp [under_eq_ok_iff, h]
  · rename_i h
    simp [h, fault, under]

end Checked

namespace Payload

/-- The texts keep to the limits of their kind, in code points. -/
def Fits : Payload → Prop
  | .webLogin username password => username.length ≤ 255 ∧ password.length ≤ 255
  | .creditCard cardNumber _ cvv => cardNumber.length ≤ 16 ∧ cvv.length ≤ 4
  | .secureNote note => note.length ≤ 10000

def IsEncodable (p : Payload) : Prop := ∀ field ∈ p.fields, Text.IsEncodable field.2

def outerTexts (p : Payload) : List (Text × Text) :=
  p.fields.map fun (name, text) => (outerName name, text)

theorem requiredField_value {read : Value → Checked Text} {doc : Assoc Value}
    (h : requiredField name read doc = .ok t) :
    ∃ key v, doc.get? key = some v ∧ read v = .ok t := by
  unfold requiredField at h
  split at h <;> exact ⟨_, Checked.required_eq_ok_iff.mp h⟩

theorem requiredField_outer {read : Value → Checked Text} {doc : Assoc Value}
    (hv : doc.get? (outerName name) = some v) (h : read v = .ok t) :
    requiredField name read doc = .ok t := by
  have hhas : doc.has (outerName name) = true := by
    rw [Assoc.has, hv]
    rfl
  rw [requiredField, hhas, Bool.true_or, if_pos rfl]
  exact Checked.required_eq_ok_iff.mpr ⟨v, hv, h⟩

theorem requiredField_upTo {limit : Nat} {doc : Assoc Value}
    (h : requiredField name (Checked.textUpTo limit) doc = .ok t) :
    t.length ≤ limit ∧ ∃ key v, doc.get? key = some v ∧ Checked.text v = .ok t := by
  obtain ⟨key, v, hv, hread⟩ := requiredField_value h
  obtain ⟨htext, -, hlength⟩ := Checked.textUpTo_eq_ok_iff.mp hread
  exact ⟨hlength, key, v, hv, htext⟩

/-- A payload that is read is of the kind that was asked for, within its limits, and has its
texts from the document. -/
theorem of_read {kind : SecretKind} {v : Value} (h : read kind v = .ok p) :
    p.kind = kind ∧ p.Fits ∧ ∃ doc : Assoc Value, v = .map doc ∧
      ∀ field ∈ p.fields, ∃ key v, doc.get? key = some v ∧ Checked.text v = .ok field.2 := by
  obtain ⟨doc, rfl, h⟩ := Checked.document_eq_ok_iff.mp h
  cases kind with
  | webLogin =>
    obtain ⟨_, password, hfirst, hp, rfl⟩ := Checked.seq_eq_ok_iff.mp h
    obtain ⟨username, hu, rfl⟩ := Checked.map_eq_ok_iff.mp hfirst
    obtain ⟨hu, husername⟩ := requiredField_upTo hu
    obtain ⟨hp, hpassword⟩ := requiredField_upTo hp
    exact ⟨rfl, ⟨hu, hp⟩, doc, rfl, by simpa [fields] using ⟨husername, hpassword⟩⟩
  | creditCard =>
    obtain ⟨_, cvv, hboth, hc, rfl⟩ := Checked.seq_eq_ok_iff.mp h
    obtain ⟨_, date, hfirst, hd, rfl⟩ := Checked.seq_eq_ok_iff.mp hboth
    obtain ⟨number, hn, rfl⟩ := Checked.map_eq_ok_iff.mp hfirst
    obtain ⟨hn, hnumber⟩ := requiredField_upTo hn
    obtain ⟨hc, hcvv⟩ := requiredField_upTo hc
    exact ⟨rfl, ⟨hn, hc⟩, doc, rfl,
      by simpa [fields] using ⟨hnumber, requiredField_value hd, hcvv⟩⟩
  | secureNote =>
    obtain ⟨note, hn, rfl⟩ := Checked.map_eq_ok_iff.mp h
    obtain ⟨hn, hnote⟩ := requiredField_upTo hn
    exact ⟨rfl, hn, doc, rfl, by simpa [fields] using hnote⟩

-- ---------------------------------------------------------------------------
-- Documents of payloads
-- ---------------------------------------------------------------------------

theorem ofMembers_texts {texts : List (Text × Text)}
    (h : ∀ pair ∈ texts, pair.1.IsEncodable ∧ pair.2.IsEncodable) :
    Json.ofMembers (texts.map fun (name, t) => (name, .text t)) =
      .ok (texts.map fun (name, t) => (name, .scalar (.text t))) := by
  induction texts with
  | nil => rfl
  | cons pair rest ih =>
    obtain ⟨name, t⟩ := pair
    obtain ⟨⟨hname, ht⟩, hrest⟩ := List.forall_mem_cons.mp h
    simp [Json.ofMembers, Json.ofValue, Json.ofText, Text.isEncodable_iff.mpr hname,
      Text.isEncodable_iff.mpr ht, ih hrest, bind, Except.bind, pure, Except.pure, Functor.map,
      Except.map]

section

variable {p : Payload}

theorem isEncodable_outerTexts (h : p.IsEncodable) :
    ∀ pair ∈ p.outerTexts, pair.1.IsEncodable ∧ pair.2.IsEncodable := by
  have hnames : ∀ field ∈ p.fields, Text.IsEncodable (outerName field.1) := by
    cases p <;> simp only [fields, List.forall_mem_cons, List.not_mem_nil, false_imp_iff,
      implies_true, and_true] <;> decide
  intro pair hpair
  obtain ⟨field, hfield, rfl⟩ := List.mem_map.mp hpair
  exact ⟨hnames field hfield, h field hfield⟩

theorem pack_eq (h : p.IsEncodable) : pack p = .ok (Json.ofTexts p.outerTexts).print := by
  have hpack : pack p =
      Json.printValue (.map (p.document.map fun cell => (outerName cell.1, cell.2))) := rfl
  have hdocument : p.document.map (fun cell => (outerName cell.1, cell.2)) =
      p.outerTexts.map fun (name, t) => (name, .text t) := by
    simp [document, outerTexts]
  rw [hpack, Json.printValue, hdocument, Json.ofValue,
    ofMembers_texts (isEncodable_outerTexts h)]
  rfl

theorem read_ofTexts (hf : p.Fits) (h : p.IsEncodable) :
    read p.kind (Json.ofTexts p.outerTexts).toValue = .ok p := by
  have hupTo {limit : Nat} {name t : Text} {doc : Assoc Value}
      (hv : doc.get? (outerName name) = some (.text t)) (ht : t.IsEncodable)
      (hl : t.length ≤ limit) : requiredField name (Checked.textUpTo limit) doc = .ok t :=
    requiredField_outer hv (Checked.textUpTo_eq_ok_iff.mpr ⟨rfl, ht, hl⟩)
  cases p with
  | webLogin username password =>
    obtain ⟨hu, hp⟩ : Text.IsEncodable username ∧ Text.IsEncodable password := by
      simpa [IsEncodable, fields] using h
    let doc : Assoc Value := [("username", .text username), ("password", .text password)]
    have husername : requiredField "username" (Checked.textUpTo 255) doc = .ok username :=
      hupTo rfl hu hf.1
    have hpassword : requiredField "password" (Checked.textUpTo 255) doc = .ok password :=
      hupTo rfl hp hf.2
    exact Checked.seq_eq_ok_iff.mpr
      ⟨_, _, Checked.map_eq_ok_iff.mpr ⟨_, husername, rfl⟩, hpassword, rfl⟩
  | creditCard number date cvv =>
    obtain ⟨hn, -, hc⟩ : Text.IsEncodable number ∧ Text.IsEncodable date ∧
        Text.IsEncodable cvv := by
      simpa [IsEncodable, fields] using h
    let doc : Assoc Value :=
      [("cardNumber", .text number), ("expiryDate", .text date), ("cvv", .text cvv)]
    have hnumber : requiredField "card_number" (Checked.textUpTo 16) doc = .ok number :=
      hupTo rfl hn hf.1
    have hdate : requiredField "expiry_date" Checked.text doc = .ok date :=
      requiredField_outer (v := .text date) rfl rfl
    have hcvv : requiredField "cvv" (Checked.textUpTo 4) doc = .ok cvv := hupTo rfl hc hf.2
    exact Checked.seq_eq_ok_iff.mpr ⟨_, _, Checked.seq_eq_ok_iff.mpr
      ⟨_, _, Checked.map_eq_ok_iff.mpr ⟨_, hnumber, rfl⟩, hdate, rfl⟩, hcvv, rfl⟩
  | secureNote note =>
    have hn : Text.IsEncodable note := by simpa [IsEncodable, fields] using h
    let doc : Assoc Value := [("note", .text note)]
    have hnote : requiredField "note" (Checked.textUpTo 10000) doc = .ok note := hupTo rfl hn hf
    exact Checked.map_eq_ok_iff.mpr ⟨_, hnote, rfl⟩

theorem unpack_print (hf : p.Fits) (h : p.IsEncodable) :
    unpack (.text p.kind.label) (.text (Json.ofTexts p.outerTexts).print) = .ok p := by
  have hkind : kindOf (.text p.kind.label) = .ok p.kind := by
    cases p <;> rfl
  rw [unpack, hkind]
  simp only [bind, Except.bind, parse, Json.read_print_ofTexts (isEncodable_outerTexts h),
    read_ofTexts hf h]
  rfl

end

-- ---------------------------------------------------------------------------
-- What is unpacked
-- ---------------------------------------------------------------------------

theorem memberValues_eq (members : List (Text × Json)) :
    Json.memberValues members = members.map fun (name, j) => (name, j.toValue) := by
  induction members with
  | nil => rfl
  | cons member rest ih =>
    obtain ⟨name, j⟩ := member
    rw [Json.memberValues, ih, List.map_cons]

theorem eq_of_text_toValue {j : Json} (h : Checked.text j.toValue = .ok t) :
    j = .scalar (.text t) := by
  cases j with
  | scalar s =>
    cases s with
    | text u =>
      cases h
      rfl
    | _ => cases h
  | _ => cases h

theorem mem_tokens_of_get? {j : Json} {doc : Assoc Value} (hj : j.toValue = .map doc)
    (hv : doc.get? key = some v) (ht : Checked.text v = .ok t) : .scalar (.text t) ∈ j.tokens := by
  cases j with
  | object members =>
    cases hj
    rw [Assoc.get?_putAll_reverse, memberValues_eq, Assoc.get?, Option.or_none] at hv
    obtain ⟨⟨name, value⟩, hvalue, he⟩ :=
      List.mem_map.mp (List.mem_reverse.mp (Assoc.mem_of_get? hv))
    cases he
    refine Json.mem_tokens_of_member hvalue ?_
    rw [eq_of_text_toValue ht]
    exact List.mem_singleton_self _
  | scalar s => cases s <;> cases hj
  | array items => cases hj

theorem kindOf_eq_ok_iff {label : Value} {kind : SecretKind} :
    kindOf label = .ok kind ↔ label = .text kind.label := by
  constructor
  · intro h
    unfold kindOf at h
    split at h
    · split at h <;> cases h
      have hlabels : ∀ entry ∈ SecretKind.table, entry.1 = entry.2.label := by decide
      exact congrArg Value.text (hlabels _ (Assoc.mem_of_get? ‹_›))
    · cases h
  · rintro rfl
    cases kind <;> rfl

/-- A payload that is unpacked is within its limits, and has no surrogates: a document has none. -/
theorem of_unpack (h : unpack label data = .ok p) :
    label = .text p.kind.label ∧ p.Fits ∧ p.IsEncodable := by
  obtain ⟨kind, hkind, h⟩ := bind_ok.mp h
  split at h
  · cases h
  rename_i j hparse
  obtain ⟨rfl, hfits, doc, hj, hfields⟩ := of_read (Checked.ofChecked_eq_ok_iff.mp h)
  refine ⟨kindOf_eq_ok_iff.mp hkind, hfits, fun field hfield => ?_⟩
  obtain ⟨key, v, hv, htext⟩ := hfields field hfield
  obtain ⟨t, hread⟩ : ∃ t, Json.read t = some j := by
    unfold parse at hparse
    split at hparse
    · exact ⟨_, hparse⟩
    · split at hparse
      · exact ⟨_, hparse⟩
      · cases hparse
    · cases hparse
  exact Json.read_isEncodable hread _ (mem_tokens_of_get? hj hv htext)

/-- What is read is within its limits. Any payload within its limits, without surrogates, is
packed into a text that unpacks to it; and so is any payload that was unpacked, from whatever
document, so that its packed text is the one form that packing gives again. -/
theorem payloads_round_trip :
    (∀ (kind : SecretKind) (v : Value) (p : Payload), read kind v = .ok p →
      p.kind = kind ∧ p.Fits) ∧
    (∀ p : Payload, p.Fits → p.IsEncodable →
      ∃ t, pack p = .ok t ∧ unpack (.text p.kind.label) (.text t) = .ok p) ∧
    ∀ (label data : Value) (p : Payload), unpack label data = .ok p →
      ∃ t, pack p = .ok t ∧ unpack label (.text t) = .ok p ∧
        ∀ again, unpack label (.text t) = .ok again → pack again = .ok t := by
  have returns {p : Payload} (hf : p.Fits) (h : p.IsEncodable) :
      ∃ t, pack p = .ok t ∧ unpack (.text p.kind.label) (.text t) = .ok p :=
    ⟨_, pack_eq h, unpack_print hf h⟩
  refine ⟨fun kind v p h => ?_, fun p hf h => returns hf h, fun label data p h => ?_⟩
  · obtain ⟨hkind, hf, -⟩ := of_read h
    exact ⟨hkind, hf⟩
  · obtain ⟨rfl, hf, hencodable⟩ := of_unpack h
    obtain ⟨t, hpack, hunpack⟩ := returns hf hencodable
    refine ⟨t, hpack, hunpack, fun again hagain => ?_⟩
    cases hunpack.symm.trans hagain
    exact hpack

/-- A note of a quotation mark, a backslash, control characters and a code point beyond the
first 65536, and one from a document with a blank, a repeated name and escapes. -/
theorem escaped_notes_round_trip :
    let p : Payload := .secureNote [0x22, 0x5C, 0x0A, 0x01, 0x7F, 0x1F600]
    let data : Text := "\x7b\"note\": null, \"note\":\"\\u0041\\/\"\x7d"
    (p.kind = .secureNote ∧ p.Fits) ∧
      (∃ t, pack p = .ok t ∧ unpack (.text "securenote") (.text t) = .ok p) ∧
      unpack (.text "securenote") (.text data) = .ok (.secureNote "A/") ∧
      ∃ t, pack (.secureNote "A/") = .ok t ∧
        unpack (.text "securenote") (.text t) = .ok (.secureNote "A/") ∧
        ∀ again, unpack (.text "securenote") (.text t) = .ok again → pack again = .ok t := by
  intro p data
  obtain ⟨reads, packs, unpacks⟩ := payloads_round_trip
  have hlex : Json.lex data = some [.openObject, .scalar (.text "note"), .colon, .scalar .null,
      .comma, .scalar (.text "note"), .colon, .scalar (.text "A/"), .closeObject] := by
    decide +kernel
  have hread : Json.read data = some (.object
      [("note", .scalar .null), ("note", .scalar (.text "A/"))]) := by
    rw [Json.read, if_neg (by decide +kernel), Json.parse, hlex]
    rfl
  have hunpack : unpack (.text "securenote") (.text data) = .ok (.secureNote "A/") := by
    rw [unpack, show kindOf (.text "securenote") = .ok .secureNote from rfl]
    simp only [bind, Except.bind, parse, hread]
    rfl
  have hfits : p.Fits := by
    change 6 ≤ 10000
    decide
  have hencodable : p.IsEncodable := by
    rintro field (_ | ⟨_, ⟨⟩⟩)
    decide
  exact ⟨reads .secureNote (.map p.document) p rfl, packs p hfits hencodable, hunpack,
    unpacks _ _ _ hunpack⟩

end Payload
end EnvelopeVault
