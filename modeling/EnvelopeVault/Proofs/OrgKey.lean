import EnvelopeVault.Proofs.Sealing

/-!
# Resolving inverts wrapping

`resolve_inverts_wrap`: the organization's key is found exactly if the record
that the store answers holds what wrapping that key gives, under some nonce, and
the key has the size of a key. Each layer is inverted by itself: the text of a
key (`decodeKey_eq_ok_iff`), then its encryption (`unwrap_eq_ok_iff`). All other
answers are refused, in one of three ways (`Refusal`).
-/

namespace EnvelopeVault

namespace FieldCipher

theorem decodeKey_eq_ok_iff :
    decodeKey t encoding = .ok key ↔ encodeKey key encoding = .ok t := by
  refine ⟨fun h => ?_, decodeKey_encodeKey⟩
  cases encoding with
  | base64 =>
    simp only [decodeKey] at h
    split at h
    · rename_i hb
      cases h
      rw [encodeKey, ← Base64.eq_encode_of_decode hb]
    · cases h
  | utf8 =>
    simp only [decodeKey] at h
    split at h
    · rename_i he
      cases h
      rw [encodeKey, Utf8.decode_eq_ok_iff.mpr he]
    · cases h

theorem isSurrogate_encodeKey (h : encodeKey key encoding = .ok t) :
    ∀ c ∈ t, c.isSurrogate = false := by
  cases encoding with
  | base64 =>
    cases h
    exact Base64.isSurrogate_encode key
  | utf8 =>
    simp only [encodeKey] at h
    split at h
    · rename_i hd
      cases h
      exact (Utf8.encode_eq_ok_iff.mp (Utf8.decode_eq_ok_iff.mp hd)).1
    · cases h

/-- A text that came out of octets goes back into octets, so only base64 can be malformed. -/
theorem decodeKey_error (ht : Utf8.encode t = .ok b) (h : decodeKey t encoding = .error e) :
    Unauthentic e := by
  cases encoding with
  | base64 =>
    simp only [decodeKey] at h
    split at h
    · cases h
    · cases h
      exact ⟨_, rfl, rfl⟩
  | utf8 =>
    simp only [decodeKey, ht] at h
    cases h

end FieldCipher

namespace OrgKey

open FieldCipher

-- ---------------------------------------------------------------------------
-- Wrapping
-- ---------------------------------------------------------------------------

/-- What wrapping comes to when `nonce` is drawn. -/
def wrapUnder (nonce : Nonce) (org : Text) (key : Bytes) (root : Key) (encoding : KeyEncoding) :
    Except Failure OrgKeyRecord :=
  ((wrap (.text org) (.bytes key) root.bytes (.text encoding.label)).run Memory.backend
    (.empty [] ⟨fun _ => nonce, 0⟩)).result

theorem recordWith_label (org : Text) (f : Field) (encoding : KeyEncoding) :
    recordWith (.text org) f (.text encoding.label) = .ok ⟨org, f, encoding, aes256Gcm⟩ := by
  cases encoding <;> rfl

theorem encodingOf_label (encoding : KeyEncoding) :
    encodingOf (.text encoding.label) = encoding := by
  cases encoding <;> rfl

theorem wrapUnder_eq_ok_iff :
    wrapUnder nonce org key root encoding = .ok record ↔
      ∃ keyText f, encodeKey key encoding = .ok keyText ∧
        encryptWith root nonce keyText = .ok f ∧ record = ⟨org, f, encoding, aes256Gcm⟩ := by
  rw [wrapUnder, wrap, Program.bind_eq, Program.ofExcept_bind, encodeKeyValue, encodingOf_label]
  cases encodeKey key encoding with
  | error e => simp [Program.run]
  | ok keyText =>
    simp only [encrypt_eq_draw, Program.bind_eq, Program.bind, Program.run, recordWith_label,
      Failure.ofChecked]
    change (Program.run _ (Program.bind (.ofExcept (encryptWith root nonce keyText)) _) _).result
      = _ ↔ _
    rw [Program.ofExcept_bind]
    cases hf : encryptWith root nonce keyText with
    | error e => simp [hf, Program.run]
    | ok f => simp [hf, Program.run, Program.ofExcept, eq_comm]

-- ---------------------------------------------------------------------------
-- Unwrapping
-- ---------------------------------------------------------------------------

theorem unwrap_eq_ok_iff {root : Key} :
    unwrap root.bytes record = .ok key ↔
      ∃ keyText, encodeKey key record.keyEncoding = .ok keyText ∧
        Seals root record.wrappedKey keyText := by
  simp only [unwrap, bind_ok, ← seals_iff_decrypt, decodeKey_eq_ok_iff]
  exact exists_congr fun keyText => and_comm

theorem unwrap_error {root : Key} (h : unwrap root.bytes record = .error e) : Unauthentic e := by
  rcases bind_error h with h | ⟨keyText, ht, h⟩
  · exact decryptWith_error (decrypt_bytes root _ ▸ h)
  · obtain ⟨nonce, f, hf, -⟩ := decrypt_eq_ok_iff.mp ht
    obtain ⟨message, hm, -⟩ := encryptWith_eq_ok_iff.mp hf
    exact decodeKey_error hm h

/-- The record's wrapped key is what wrapping the key gives, in the record's encoding. -/
def IsWrapping (org : Text) (root : Key) (key : Bytes) (record : OrgKeyRecord) : Prop :=
  ∃ nonce wrapped, wrapUnder nonce org key root record.keyEncoding = .ok wrapped ∧
    wrapped.wrappedKey = record.wrappedKey

theorem isWrapping_iff_unwrap :
    IsWrapping org root key record ↔ unwrap root.bytes record = .ok key := by
  simp only [IsWrapping, unwrap_eq_ok_iff, wrapUnder_eq_ok_iff]
  constructor
  · rintro ⟨nonce, _, ⟨keyText, f, hk, hs, rfl⟩, hf⟩
    exact ⟨keyText, hk, nonce, hf ▸ hs⟩
  · rintro ⟨keyText, hk, nonce, hs⟩
    exact ⟨nonce, _, ⟨keyText, _, hk, hs, rfl⟩, rfl⟩

theorem unwrap_of_wrapUnder (h : wrapUnder nonce org key root encoding = .ok wrapped) :
    wrapped.algorithm = aes256Gcm ∧ unwrap root.bytes wrapped = .ok key := by
  obtain ⟨keyText, f, hk, hs, rfl⟩ := wrapUnder_eq_ok_iff.mp h
  exact ⟨rfl, unwrap_eq_ok_iff.mpr ⟨keyText, hk, nonce, hs⟩⟩

theorem exists_wrapUnder_iff (nonce : Nonce) (org : Text) (key : Bytes) (root : Key)
    (encoding : KeyEncoding) :
    (∃ wrapped, wrapUnder nonce org key root encoding = .ok wrapped) ↔
      ∃ keyText, encodeKey key encoding = .ok keyText := by
  simp only [wrapUnder_eq_ok_iff]
  constructor
  · rintro ⟨_, keyText, f, hk, -, -⟩
    exact ⟨keyText, hk⟩
  · rintro ⟨keyText, hk⟩
    obtain ⟨f, hf⟩ := exists_encryptWith root nonce (isSurrogate_encodeKey hk)
    exact ⟨_, keyText, f, hk, hf, rfl⟩

def Opens (root : Bytes) (record : OrgKeyRecord) (key : Bytes) : Prop :=
  record.algorithm = aes256Gcm ∧ unwrap root record = .ok key ∧ key.length = keySize

theorem opens_iff_isWrapping {root : Key} (org : Text) :
    Opens root.bytes record key ↔
      record.algorithm = aes256Gcm ∧ key.length = keySize ∧ IsWrapping org root key record := by
  rw [Opens, isWrapping_iff_unwrap, and_comm (a := key.length = _)]

theorem Opens.unique (h : Opens root record key) (h' : Opens root record other) : key = other :=
  Except.ok.inj (h.2.1.symm.trans h'.2.1)

-- ---------------------------------------------------------------------------
-- Resolving
-- ---------------------------------------------------------------------------

/-- How resolving fails on what the store answered, and what it logs. -/
inductive Refusal (org : Text) : Option OrgKeyRecord → Failure → List LogLine → Prop
  | absent : Refusal org none
      (.vault { cause := .keyNotFound, operation := operation, orgId := .text org }) []
  | unsupported (ha : record.algorithm ≠ aes256Gcm) : Refusal org (some record)
      (.vault { cause := .unsupportedWrapping record.algorithm, operation, orgId := .text org }) []
  | unauthentic (f : VaultFailure) (line : LogLine) (ha : record.algorithm = aes256Gcm)
      (hk : f.kind = .authenticationFailure) (ho : f.operation = operation)
      (horg : f.orgId = .text org) (hl : line.level = .error) :
      Refusal org (some record) (.vault f) [line]

theorem ofRecord_of_opens (h : Opens root record key) (org : Value) :
    ofRecord root org record = .saying [] (.ok key) := by
  obtain ⟨ha, hu, hl⟩ := h
  simp [ofRecord, ha, hu, hl, Program.saying, Program.pure_eq]

theorem exists_saying (root : Bytes) (org : Value) (record : OrgKeyRecord) :
    ∃ log r, ofRecord root org record = .saying log r ∧
      ∀ key, r = .ok key → log = [] ∧ Opens root record key := by
  unfold ofRecord
  split
  · exact ⟨[], _, rfl, nofun⟩
  · rename_i ha
    split
    · unfold blame
      split
      · split
        · exact ⟨[_], _, rfl, nofun⟩
        · exact ⟨[], _, rfl, nofun⟩
      · exact ⟨[], _, rfl, nofun⟩
    · rename_i key hu
      split
      · rename_i hl
        refine ⟨[], .ok key, rfl, ?_⟩
        rintro _ ⟨⟩
        exact ⟨rfl, Decidable.not_not.mp ha, hu, hl⟩
      · exact ⟨[_], _, rfl, nofun⟩

theorem ofRecord_ensures_opens (root : Bytes) (org : Value) (record : OrgKeyRecord) :
    (ofRecord root org record).Ensures P fun r => ∀ key, r = .ok key → Opens root record key := by
  obtain ⟨log, r, h, hopens⟩ := exists_saying root org record
  rw [h]
  exact Program.ensures_saying log fun key hk => (hopens key hk).2

theorem ofRecord_cases (root : Key) (org : Text) (record : OrgKeyRecord) :
    (∃ key, Opens root.bytes record key) ∨
      ∃ e log, Refusal org (some record) e log ∧
        ofRecord root.bytes (.text org) record = .saying log (.error e) := by
  by_cases ha : record.algorithm = aes256Gcm
  · cases hu : unwrap root.bytes record with
    | error e =>
      obtain ⟨cause, rfl, hk⟩ := unwrap_error hu
      refine .inr ⟨_, _, .unauthentic ⟨cause, operation, .null, .text org, .null⟩
        (.keyUnverified org) ha hk rfl rfl rfl, ?_⟩
      simp [ofRecord, ha, hu, blame, Failure.ofCause, VaultFailure.kind, hk]
      rfl
    | ok key =>
      by_cases hl : key.length = keySize
      · exact .inl ⟨key, ha, hu, hl⟩
      · refine .inr ⟨_, _, .unauthentic { cause := .malformedKey, operation, orgId := .text org }
          (.keyMalformed org) ha rfl rfl rfl rfl, ?_⟩
        simp only [ofRecord, ha, hu, hl, ne_eq, not_true_eq_false, if_false]
        rfl
  · refine .inr ⟨_, _, .unsupported ha, ?_⟩
    simp only [ofRecord, ne_eq, ha, not_false_eq_true, if_true]
    rfl

theorem Refusal.not_opens (h : Refusal org (some record) e log)
    (hr : ofRecord root org' record = .saying log (.error e)) : ¬ Opens root record key := by
  intro ho
  rw [ofRecord_of_opens ho] at hr
  cases h <;> cases hr

theorem Refusal.authenticationFailure (h : Refusal org (some record) e log)
    (ha : record.algorithm = aes256Gcm) :
    ∃ f, e = .vault f ∧ f.kind = .authenticationFailure := by
  cases h with
  | unsupported hne => exact absurd ha hne
  | unauthentic f line ha hk => exact ⟨f, rfl, hk⟩

def ofFound (root : Bytes) (org : Value) : Option OrgKeyRecord → Program Bytes
  | none => .fail (.vault { cause := .keyNotFound, operation := operation, orgId := org })
  | some record => ofRecord root org record

theorem resolve_eq (root : Bytes) (org : Value) :
    resolve root org = .access (.findKey org) (ofFound root org) := by
  refine congrArg (Program.access (.findKey org)) (funext fun found => ?_)
  cases found <;> rfl

theorem exists_settle_resolve (root : Bytes) (org : Value) (keys : Assoc OrgKeyRecord) :
    ∃ r, (∀ n, (resolve root org).settle keys n = some (r, n)) ∧
      ∀ key, r = .ok key → key.length = keySize := by
  rw [resolve_eq]
  cases h : keys.get? org.toText with
  | none =>
    refine ⟨.error (.vault { cause := .keyNotFound, operation := operation, orgId := org }),
      fun n => ?_, nofun⟩
    rw [Program.settle, h]
    rfl
  | some record =>
    obtain ⟨log, r, hsaying, hopens⟩ := exists_saying root org record
    refine ⟨r, fun n => ?_, fun key hk => (hopens key hk).2.2.2⟩
    rw [Program.settle, h, ofFound, hsaying, Program.settle_saying]

variable {σ : Type} {b : Backend σ} {s s' : σ} {found : Option OrgKeyRecord}

/-- Resolving ends with the key in the record that was found, or in a refusal of the record. -/
theorem run_resolve (root : Key) {org : Text}
    (h : b.answer (.findKey (.text org)) s = (.ok found, s')) :
    (∃ record key, found = some record ∧ Opens root.bytes record key ∧
      (resolve root.bytes (.text org)).run b s = ⟨.ok key, [], s'⟩) ∨
    ∃ e log, Refusal org found e log ∧
      (∀ record key, found = some record → ¬ Opens root.bytes record key) ∧
      (resolve root.bytes (.text org)).run b s = ⟨.error e, log, s'⟩ := by
  rw [resolve, Program.bind_eq, Program.call_bind, Program.run, h]
  cases found with
  | none =>
    refine .inr ⟨_, _, .absent, ?_, rfl⟩
    intro record key h
    cases h
  | some record =>
    rcases ofRecord_cases root org record with ⟨key, ho⟩ | ⟨e, log, hr, heq⟩
    · refine .inl ⟨record, key, rfl, ho, ?_⟩
      simp [ofRecord_of_opens ho]
    · refine .inr ⟨e, log, hr, ?_, by simp [heq]⟩
      intro found key h
      cases h
      exact hr.not_opens heq

/-- On whatever the store of keys answers, resolving gives a key exactly if the answer holds what
wrapping that key gives, and the key has the size of a key; else it is refused in one of three
ways. So a key that was wrapped is resolved to itself if its size is right, and refused if it is
not; and every key can be wrapped in base64, and in UTF-8 if its octets are UTF-8. -/
theorem resolve_inverts_wrap (b : Backend σ) (root : Key) (org : Text)
    (found : Option OrgKeyRecord) (s s' : σ)
    (h : b.answer (.findKey (.text org)) s = (.ok found, s')) :
    let o := (resolve root.bytes (.text org)).run b s
    (∀ key, o.result = .ok key ↔ ∃ record, found = some record ∧
      record.algorithm = aes256Gcm ∧ key.length = keySize ∧ IsWrapping org root key record) ∧
    (∀ e, o.result = .error e → Refusal org found e o.log) ∧
    (∀ key, o.result = .ok key → o.log = []) ∧
    o.state = s' ∧
    (∀ nonce key encoding wrapped, wrapUnder nonce org key root encoding = .ok wrapped →
      found = some wrapped →
        (key.length = keySize → o.result = .ok key) ∧
        (key.length ≠ keySize → ∃ f, o.result = .error (.vault f) ∧
          f.kind = .authenticationFailure)) ∧
    (∀ nonce key, ∃ wrapped, wrapUnder nonce org key root .base64 = .ok wrapped) ∧
    ∀ nonce key, (∃ wrapped, wrapUnder nonce org key root .utf8 = .ok wrapped) ↔
      ∃ t, Utf8.decode key = .ok t := by
  have hruns := run_resolve root h
  generalize (resolve root.bytes (.text org)).run b s = o at hruns
  have hwrap (nonce : Nonce) (key : Bytes) :=
    exists_wrapUnder_iff nonce org key root
  refine ⟨fun key => ?_, ?_, ?_, ?_, ?_, fun nonce key => ?_, fun nonce key => ?_⟩
  · simp only [← opens_iff_isWrapping]
    rcases hruns with ⟨record, key', hf, ho, rfl⟩ | ⟨e, log, hr, hno, rfl⟩
    · simp only [hf, Option.some.injEq, exists_eq_left', Except.ok.injEq]
      exact ⟨fun hk => hk ▸ ho, ho.unique⟩
    · simp only [reduceCtorEq, false_iff]
      rintro ⟨record, hf, ho⟩
      exact hno record key hf ho
  · rintro e he
    rcases hruns with ⟨record, key, hf, ho, rfl⟩ | ⟨e', log, hr, -, rfl⟩
    · cases he
    · cases he
      exact hr
  · rintro key hk
    rcases hruns with ⟨record, key', hf, ho, rfl⟩ | ⟨e, log, -, -, rfl⟩
    · rfl
    · cases hk
  · rcases hruns with ⟨_, _, _, _, rfl⟩ | ⟨_, _, _, _, rfl⟩ <;> rfl
  · rintro nonce key encoding wrapped hw rfl
    obtain ⟨ha, hu⟩ := unwrap_of_wrapUnder hw
    rcases hruns with ⟨_, key', ⟨⟩, ho, rfl⟩ | ⟨e, log, hr, hno, rfl⟩
    · obtain rfl : key = key' := Except.ok.inj (hu.symm.trans ho.2.1)
      exact ⟨fun _ => rfl, fun hl => absurd ho.2.2 hl⟩
    · refine ⟨fun hl => absurd ⟨ha, hu, hl⟩ (hno wrapped key rfl), fun _ => ?_⟩
      obtain ⟨f, rfl, hk⟩ := hr.authenticationFailure ha
      exact ⟨f, rfl, hk⟩
  · exact (hwrap nonce key .base64).mpr ⟨_, rfl⟩
  · rw [hwrap, encodeKey]
    split <;> simp_all

/-- The hypothesis holds of a store in memory that holds a wrapped key. -/
theorem wrapped_key_resolves :
    let root : Key := ⟨List.replicate keySize 0, by decide⟩
    ∃ wrapped, wrapUnder (Nonce.ofNat 0) "o" root.bytes root .base64 = .ok wrapped ∧
      let m := (Memory.empty [] (Nonces.counting 0)).putKey wrapped
      ((resolve root.bytes (.text "o")).run Memory.backend m).result = .ok root.bytes := by
  intro root
  obtain ⟨wrapped, hw⟩ :=
    (exists_wrapUnder_iff (Nonce.ofNat 0) "o" root.bytes root .base64).mpr ⟨_, rfl⟩
  refine ⟨wrapped, hw, ?_⟩
  obtain ⟨keyText, f, -, -, rfl⟩ := wrapUnder_eq_ok_iff.mp hw
  exact ((resolve_inverts_wrap Memory.backend root "o" (some _) _ _ rfl).2.2.2.2.1 _ _ _ _ hw
    rfl).1 root.length_eq

end OrgKey
end EnvelopeVault
