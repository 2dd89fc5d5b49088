import EnvelopeVault.Proofs.Effect
import EnvelopeVault.Proofs.Neutral

/-!
# Wrapped keys and sealed texts

What keys and texts come to when nothing was tampered with: a wrapped key is
resolved to itself (`settle_resolve`), texts that can be encoded are sealed
under their names (`exists_settle_encryptAll`), and a record of sealed texts is
opened to these texts, or refused if one of them is absent
(`exists_settle_decryptRecord`).
-/

namespace EnvelopeVault

-- ---------------------------------------------------------------------------
-- Wrapped keys
-- ---------------------------------------------------------------------------

namespace FieldCipher

theorem decodeKey_encodeKey (h : encodeKey key encoding = .ok t) :
    decodeKey t encoding = .ok key := by
  cases encoding with
  | base64 =>
    cases h
    simp [decodeKey, Base64.decode_encode]
  | utf8 =>
    simp only [encodeKey] at h
    split at h
    · rename_i hd
      cases h
      simp [decodeKey, Utf8.decode_eq_ok_iff.mp hd]
    · cases h

end FieldCipher

namespace OrgKey

/-- Wrapping the key under the root key, for whatever organization, gives the record. -/
def Wraps (root key : Key) (record : OrgKeyRecord) : Prop :=
  ∃ (org encoding : Text) (m : Memory),
    ((wrap (.text org) (.bytes key.bytes) root.bytes (.text encoding)).run
      Memory.backend m).result = .ok record

theorem encodingOf_member {t : Text}
    (h : Checked.member KeyEncoding.table (.text t) = .ok encoding) :
    FieldCipher.encodingOf (.text t) = encoding := by
  simp only [Checked.member] at h
  split at h
  · cases h
  simp only [Checked.memberText] at h
  split at h
  · rename_i e he
    cases h
    rcases List.mem_cons.mp (Assoc.mem_of_get? he) with hm | hm
    · cases hm
      rfl
    · cases List.mem_singleton.mp hm
      rfl
  · cases h

theorem Wraps.sealed (h : Wraps root key record) :
    ∃ keyText nonce, FieldCipher.encodeKey key.bytes record.keyEncoding = .ok keyText ∧
      FieldCipher.encryptWith root nonce keyText = .ok record.wrappedKey ∧
      record.algorithm = aes256Gcm := by
  obtain ⟨org, label, m, h⟩ := h
  rw [wrap, Program.bind_eq, Program.ofExcept_bind, FieldCipher.encodeKeyValue] at h
  cases hk : FieldCipher.encodeKey key.bytes (FieldCipher.encodingOf (.text label)) with
  | error e =>
    rw [hk] at h
    cases h
  | ok keyText =>
    rw [hk] at h
    simp only [FieldCipher.encrypt_eq_draw, Program.bind_eq, Program.bind, Program.run] at h
    generalize (Memory.backend.nonce m).1 = nonce at h
    cases hf : FieldCipher.encryptWith root nonce keyText with
    | error e =>
      rw [hf] at h
      cases h
    | ok wrapped =>
      rw [hf] at h
      have h := Checked.ofChecked_eq_ok_iff.mp h
      simp only [recordWith, Checked.seq_eq_ok_iff, Checked.map_eq_ok_iff,
        Checked.under_eq_ok_iff] at h
      obtain ⟨_, encoding, ⟨_, -, rfl⟩, he, rfl⟩ := h
      exact ⟨keyText, nonce, encodingOf_member he ▸ hk, hf, rfl⟩

theorem Wraps.unwrap (h : Wraps root key record) : unwrap root.bytes record = .ok key.bytes := by
  obtain ⟨keyText, nonce, hk, hf, -⟩ := h.sealed
  rw [OrgKey.unwrap, FieldCipher.decrypt_eq_ok_iff.mpr ⟨nonce, _, hf, rfl⟩]
  exact FieldCipher.decodeKey_encodeKey hk

theorem Wraps.ofRecord (h : Wraps root key record) (org : Value) :
    ofRecord root.bytes org record = .done (.ok key.bytes) := by
  obtain ⟨-, -, -, -, ha⟩ := h.sealed
  simp [OrgKey.ofRecord, ha, h.unwrap, key.length_eq, Program.pure_eq]

/-- Every key can be wrapped, in base64 at least. -/
theorem exists_wraps (root key : Key) : ∃ record, Wraps root key record := by
  obtain ⟨f, hf⟩ := FieldCipher.exists_encryptWith root (Nonces.counting 0).next.1
    (Base64.isSurrogate_encode key.bytes)
  refine ⟨⟨[], f, .base64, aes256Gcm⟩, [], KeyEncoding.base64.label,
    .empty [] (Nonces.counting 0), ?_⟩
  rw [wrap, Program.bind_eq, Program.ofExcept_bind]
  change (Program.run _ (Program.bind (Sealing.encrypt root.bytes (Base64.encode key.bytes)) _)
    _).result = _
  rw [FieldCipher.encrypt_eq_draw]
  simp only [Program.bind, Program.run, Memory.backend, Memory.nonce, Memory.empty, hf]
  rfl

variable {root key : Key} {keys : Assoc OrgKeyRecord} {org : Value} {n : Nonces}

theorem settle_resolve (hk : keys.get? org.toText = some record) (h : Wraps root key record) :
    (resolve root.bytes org).settle keys n = some (.ok key.bytes, n) := by
  rw [resolve, Program.bind_eq, Program.call_bind, Program.settle, hk]
  exact congrArg (·.settle keys n) (h.ofRecord org)

theorem settle_resolve_absent (hk : keys.get? org.toText = none) :
    (resolve root.bytes org).settle keys n = some (.error (.vault
      { cause := .keyNotFound, operation := operation, orgId := org }), n) := by
  rw [resolve, Program.bind_eq, Program.call_bind, Program.settle, hk]
  rfl

end OrgKey

-- ---------------------------------------------------------------------------
-- Sealed texts
-- ---------------------------------------------------------------------------

/-- Encrypting the text under the key gives the field, under some nonce. -/
def FieldCipher.Seals (key : Key) (f : Field) (t : Text) : Prop :=
  ∃ nonce, encryptWith key nonce t = .ok f

theorem FieldCipher.seals_iff_decrypt :
    Seals key f t ↔ decrypt key.bytes (f.map .text) = .ok t := by
  rw [decrypt_eq_ok_iff]
  constructor
  · rintro ⟨nonce, h⟩
    exact ⟨nonce, f, h, rfl⟩
  · rintro ⟨nonce, g, h, hfg⟩
    simp only [Triple.map, Triple.mk.injEq, Value.text.injEq] at hfg
    obtain ⟨hc, hi, ht⟩ := hfg
    exact ⟨nonce, h.trans (congrArg Except.ok (by cases f; cases g; simp_all))⟩

namespace Sealing

open FieldCipher

variable {keys : Assoc OrgKeyRecord} {key : Key}

theorem exists_settle_encryptAll (keys : Assoc OrgKeyRecord) (key : Key) {texts : Assoc Text}
    (h : ∀ pair ∈ texts, pair.2.IsEncodable) (n : Nonces) :
    ∃ (fields : Assoc Field) (left : Nonces),
      (encryptAll key.bytes texts).settle keys n = some (.ok fields, left) ∧
        Assoc.Rel (fun _ => Seals key) fields texts := by
  induction texts generalizing n with
  | nil => exact ⟨[], n, rfl, .nil⟩
  | cons pair rest ih =>
    obtain ⟨name, t⟩ := pair
    obtain ⟨ht, hrest⟩ := List.forall_mem_cons.mp h
    obtain ⟨f, hf⟩ := exists_encryptWith key n.next.1 ht
    have hseal : (encrypt key.bytes t).settle keys n = some (.ok f, n.next.2) := by
      rw [encrypt_eq_draw, Program.settle, hf]
      rfl
    obtain ⟨fields, left, hfields, hrel⟩ := ih hrest n.next.2
    refine ⟨(name, f) :: fields, left, ?_, .cons ⟨_, hf⟩ hrel⟩
    rw [encryptAll, Program.bind_eq, Program.settle_bind_ok hseal, Program.bind_eq,
      Program.settle_bind_ok hfields]
    rfl

variable {record : SecretRecord} {texts : Attributes Text} {n : Nonces}

theorem openOrBlame_ok (h : openAttribute key.bytes record a = .ok t) :
    openOrBlame key.bytes record a = .done (.ok t) := by
  rw [openOrBlame, h]
  rfl

theorem exists_settle_openOrBlame (h : record.fields.get a = none) :
    ∃ e, (openOrBlame key.bytes record a).settle keys n = some (.error e, n) ∧
      e.kind? = some .authenticationFailure := by
  rw [openOrBlame, openAttribute, h]
  exact ⟨_, rfl, rfl⟩

theorem decryptRecord_ok (ha : record.algorithm = aes256Gcm)
    (h : ∀ a, openAttribute key.bytes record a = .ok (texts.get a)) :
    decryptRecord key.bytes record =
      .done (.ok ⟨record.id, record.userId, record.orgId, texts⟩) := by
  rw [decryptRecord, if_pos ha, openOrBlame_ok (h .title), openOrBlame_ok (h .type),
    openOrBlame_ok (h .data), openOrBlame_ok (h .comment)]
  rfl

theorem exists_settle_decryptRecord (ha : record.algorithm = aes256Gcm)
    (h : ∀ a, record.fields.get a = none ∨ ∃ t, openAttribute key.bytes record a = .ok t)
    (hm : record.fields.get missing = none) :
    ∃ e, (decryptRecord key.bytes record).settle keys n = some (.error e, n) ∧
      e.kind? = some .authenticationFailure := by
  rw [decryptRecord, if_pos ha]
  have stops {a : Attribute} {f : Text → Program Secret} (hf : record.fields.get a = none) :
      ∃ e, ((openOrBlame key.bytes record a).bind f).settle keys n = some (.error e, n) ∧
        e.kind? = some .authenticationFailure := by
    obtain ⟨e, he, hk⟩ := exists_settle_openOrBlame hf
    exact ⟨e, Program.settle_bind_error he, hk⟩
  rcases h .title with htitle | ⟨title, htitle⟩
  · exact stops htitle
  rcases h .type with htype | ⟨type, htype⟩
  · rw [openOrBlame_ok htitle]
    exact stops htype
  rcases h .data with hdata | ⟨data, hdata⟩
  · rw [openOrBlame_ok htitle, openOrBlame_ok htype]
    exact stops hdata
  rcases h .comment with hcomment | ⟨comment, hcomment⟩
  · rw [openOrBlame_ok htitle, openOrBlame_ok htype, openOrBlame_ok hdata]
    exact stops hcomment
  -- an absent attribute is not opened, so one of the four cases above was taken
  have opened (a : Attribute) : ∃ t, openAttribute key.bytes record a = .ok t := by
    cases a
    · exact ⟨_, htitle⟩
    · exact ⟨_, htype⟩
    · exact ⟨_, hdata⟩
    · exact ⟨_, hcomment⟩
  obtain ⟨t, ht⟩ := opened missing
  rw [openAttribute, hm] at ht
  cases ht

end Sealing
end EnvelopeVault
