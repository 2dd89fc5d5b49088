import EnvelopeVault.Proofs.Rewriting

/-!
# Records are opened whole

`record_opens_whole_or_blames_first`: a record gives a secret exactly if it has the
vault's own label and keeps a sealed text for every attribute. A record under
another label is refused before anything in it is looked at. Of any other record
the first attribute without a text is blamed (`Attribute.IsFirst`), however many
there are, and it is the only one that is logged.
-/

namespace EnvelopeVault

open FieldCipher Layout

namespace Sealing

variable {key : Key} {r : SecretRecord} {a : Attribute}

-- ---------------------------------------------------------------------------
-- Attributes
-- ---------------------------------------------------------------------------

/-- The record has a field for the attribute, in which the text was sealed. -/
def Keeps (key : Key) (r : SecretRecord) (a : Attribute) (t : Text) : Prop :=
  ∃ f, r.fields.get a = some f ∧ Seals key f t

/-- The field of the attribute is absent, or no text was sealed in it. -/
def Broken (key : Key) (r : SecretRecord) (a : Attribute) : Prop := ¬ ∃ t, Keeps key r a t

theorem openAttribute_eq_ok_iff : openAttribute key.bytes r a = .ok t ↔ Keeps key r a t := by
  unfold openAttribute Keeps
  cases r.fields.get a with
  | none => simp
  | some f => simp [seals_iff_decrypt]

theorem openAttribute_error (h : openAttribute key.bytes r a = .error e) : Unauthentic e := by
  unfold openAttribute at h
  split at h
  · cases h
    exact ⟨_, rfl, rfl⟩
  · exact decryptWith_error (decrypt_bytes key _ ▸ h)

theorem broken_of_error (h : openAttribute key.bytes r a = .error e) : Broken key r a := by
  rintro ⟨t, ht⟩
  rw [openAttribute_eq_ok_iff.mpr ht] at h
  cases h

def blamed (r : SecretRecord) (a : Attribute) (cause : Cause) : VaultFailure :=
  { cause, secretId := .text r.id, orgId := .text r.orgId, field := .text a.name }

theorem openOrBlame_cases (key : Key) (r : SecretRecord) (a : Attribute) :
    (∃ t, Keeps key r a t ∧
      ∀ {β : Type} (f : Text → Program β), (openOrBlame key.bytes r a).bind f = f t) ∨
    ∃ cause, openAttribute key.bytes r a = .error (.ofCause cause) ∧
      cause.kind = .authenticationFailure ∧
      ∀ {β : Type} (f : Text → Program β), (openOrBlame key.bytes r a).bind f =
        .saying [.integrityFailure r.id r.orgId a] (.error (.vault (blamed r a cause))) := by
  unfold openOrBlame
  cases h : openAttribute key.bytes r a with
  | ok t => exact .inl ⟨t, openAttribute_eq_ok_iff.mp h, fun f => rfl⟩
  | error e =>
    obtain ⟨cause, rfl, hk⟩ := openAttribute_error h
    refine .inr ⟨cause, rfl, hk, fun f => ?_⟩
    have hkind : ({ cause } : VaultFailure).kind = .authenticationFailure := hk
    simp only [blame, Failure.ofCause, hkind, if_true]
    rfl

-- ---------------------------------------------------------------------------
-- Records
-- ---------------------------------------------------------------------------

theorem decryptRecord_unsupported (key : Bytes) (ha : r.algorithm ≠ aes256Gcm) :
    decryptRecord key r = .saying [] (.error (.vault
      { cause := .unsupportedAlgorithm r.algorithm
        secretId := .text r.id
        orgId := .text r.orgId })) := if_neg ha

/-- A record is opened as a whole, or the first attribute that cannot be opened is blamed. -/
theorem decryptRecord_cases (key : Key) (ha : r.algorithm = aes256Gcm) :
    (∃ s, decryptRecord key.bytes r = .saying [] (.ok s)) ∨
      ∃ a cause, Attribute.IsFirst (Broken key r) a ∧
        openAttribute key.bytes r a = .error (.ofCause cause) ∧
        cause.kind = .authenticationFailure ∧
        decryptRecord key.bytes r =
          .saying [.integrityFailure r.id r.orgId a] (.error (.vault (blamed r a cause))) := by
  have first {a : Attribute} {cause : Cause} (before after : List Attribute)
      (he : openAttribute key.bytes r a = .error (.ofCause cause))
      (hall : Attribute.all = before ++ a :: after) (hkept : ∀ b ∈ before, ∃ t, Keeps key r b t) :
      Attribute.IsFirst (Broken key r) a :=
    ⟨broken_of_error he, before, after, hall, fun b hb hbroken => hbroken (hkept b hb)⟩
  rw [decryptRecord, if_pos ha]
  simp only [Program.bind_eq]
  obtain ⟨title, ktitle, htitle⟩ | ⟨cause, he, hk, htitle⟩ := openOrBlame_cases key r .title
  case inr => exact .inr ⟨_, cause, first [] _ he rfl (by simp), he, hk, htitle _⟩
  rw [htitle]
  obtain ⟨type, ktype, htype⟩ | ⟨cause, he, hk, htype⟩ := openOrBlame_cases key r .type
  case inr =>
    exact .inr ⟨_, cause, first [.title] _ he rfl (by simpa using ⟨_, ktitle⟩), he, hk, htype _⟩
  rw [htype]
  obtain ⟨data, kdata, hdata⟩ | ⟨cause, he, hk, hdata⟩ := openOrBlame_cases key r .data
  case inr =>
    exact .inr ⟨_, cause, first [.title, .type] _ he rfl
      (by simpa using ⟨⟨_, ktitle⟩, _, ktype⟩), he, hk, hdata _⟩
  rw [hdata]
  obtain ⟨comment, -, hcomment⟩ | ⟨cause, he, hk, hcomment⟩ := openOrBlame_cases key r .comment
  case inr =>
    exact .inr ⟨_, cause, first [.title, .type, .data] _ he rfl
      (by simpa using ⟨⟨_, ktitle⟩, ⟨_, ktype⟩, _, kdata⟩), he, hk, hcomment _⟩
  rw [hcomment]
  exact .inl ⟨_, rfl⟩

theorem exists_decryptRecord_saying (key : Key) (r : SecretRecord) :
    ∃ log result, decryptRecord key.bytes r = .saying log result := by
  by_cases ha : r.algorithm = aes256Gcm
  · obtain ⟨s, hs⟩ | ⟨a, cause, -, -, -, hs⟩ := decryptRecord_cases key ha
    · exact ⟨_, _, hs⟩
    · exact ⟨_, _, hs⟩
  · exact ⟨_, _, decryptRecord_unsupported key.bytes ha⟩

variable {σ : Type}

/-- On every store a record gives a secret exactly if it has the vault's own label and keeps a
text for every attribute, and the secret has these texts and the ids of the record. A record under
another label is refused, whatever its fields are and whatever octets are given as the key: those
of no key would be refused by any decryption. A record under the vault's label that has a broken
attribute fails with the first one: the failure names it with the ids of the record, and one line,
an error, says the same. -/
theorem record_opens_whole_or_blames_first (key : Key) (r : SecretRecord) (b : Backend σ) (s : σ) :
    let o := (decryptRecord key.bytes r).run b s
    (∀ secret, o = ⟨.ok secret, [], s⟩ ↔
      r.algorithm = aes256Gcm ∧ secret.id = r.id ∧ secret.userId = r.userId ∧
        secret.orgId = r.orgId ∧ ∀ a, Keeps key r a (secret.texts.get a)) ∧
    (r.algorithm ≠ aes256Gcm → ∀ (octets : Bytes) (fields : Attributes (Option Field)),
      (decryptRecord octets { r with fields }).run b s = ⟨.error (.vault
        { cause := .unsupportedAlgorithm r.algorithm
          secretId := .text r.id
          orgId := .text r.orgId }), [], s⟩) ∧
    (r.algorithm = aes256Gcm → ∀ broken, Broken key r broken →
      ∃ a cause, Attribute.IsFirst (Broken key r) a ∧ cause.kind = .authenticationFailure ∧
        (LogLine.integrityFailure r.id r.orgId a).level = .error ∧
        o = ⟨.error (.vault
          { cause
            secretId := .text r.id
            orgId := .text r.orgId
            field := .text a.name }), [.integrityFailure r.id r.orgId a], s⟩) := by
  intro o
  have hkept (secret : Secret) : decryptRecord key.bytes r = .saying [] (.ok secret) ↔
      r.algorithm = aes256Gcm ∧ secret.id = r.id ∧ secret.userId = r.userId ∧
        secret.orgId = r.orgId ∧ ∀ a, Keeps key r a (secret.texts.get a) :=
    decryptRecord_eq_ok_iff.trans (by simp only [openAttribute_eq_ok_iff])
  refine ⟨fun secret => ?_, fun ha octets fields => ?_, fun ha broken hbroken => ?_⟩
  · rw [← hkept]
    obtain ⟨log, result, hsaying⟩ := exists_decryptRecord_saying key r
    simp only [o, hsaying, Program.run_saying]
    constructor
    · rintro ⟨⟩
      rfl
    · intro h
      simpa using congrArg (fun p => p.run b s) h
  · rw [decryptRecord_unsupported octets (r := { r with fields }) ha, Program.run_saying]
  · obtain ⟨secret, hs⟩ | ⟨a, cause, hfirst, -, hk, hs⟩ := decryptRecord_cases key ha
    · obtain ⟨-, -, -, -, hall⟩ := (hkept secret).mp hs
      exact absurd ⟨_, hall broken⟩ hbroken
    · exact ⟨a, cause, hfirst, hk, rfl, by simp only [o, hs, Program.run_saying, blamed]⟩

/-- Two attributes of a record are broken: the title, which is no base64, comes first. -/
example :
    let key : Key := ⟨List.replicate keySize 0, by decide⟩
    let r : SecretRecord :=
      { id := "s", userId := "u", orgId := "o", fields := ⟨some ⟨"?", "", ""⟩, none, none, none⟩
        algorithm := aes256Gcm, keyEncoding := KeyEncoding.utf8.label, version := 1
        createdAt := none, updatedAt := none }
    decryptRecord key.bytes r = .saying [.integrityFailure "s" "o" .title]
      (.error (.vault (blamed r .title (.malformedPart .ciphertext)))) := by
  rfl

end Sealing

-- ---------------------------------------------------------------------------
-- Rows
-- ---------------------------------------------------------------------------

namespace Vault

variable {key : Key} {row : Value} {r : SecretRecord}

/-- How a row gives no secret, and what is logged of it. -/
inductive Unopened (key : Key) (row : Value) : Failure → List LogLine → Prop
  | unreadable (h : Unreadable row e) : Unopened key row e []
  | unsupported (r : SecretRecord) (hr : recordOf row = .ok r) (ha : r.algorithm ≠ aes256Gcm) :
    Unopened key row (.vault
      { cause := .unsupportedAlgorithm r.algorithm
        secretId := .text r.id
        orgId := .text r.orgId }) []
  | broken (r : SecretRecord) (a : Attribute) (cause : Cause) (hr : recordOf row = .ok r)
    (h : Attribute.IsFirst (Sealing.Broken key r) a) (hk : cause.kind = .authenticationFailure) :
    Unopened key row (.vault (Sealing.blamed r a cause)) [.integrityFailure r.id r.orgId a]

theorem decryptRecord_opens (key : Key) (hr : recordOf row = .ok r) :
    (∃ s, Sealing.decryptRecord key.bytes r = .saying [] (.ok s)) ∨
      ∃ e log, Unopened key row e log ∧
        Sealing.decryptRecord key.bytes r = .saying log (.error e) := by
  by_cases ha : r.algorithm = aes256Gcm
  · obtain hs | ⟨a, cause, hfirst, -, hk, hs⟩ := Sealing.decryptRecord_cases key ha
    · exact .inl hs
    · exact .inr ⟨_, _, .broken r a cause hr hfirst hk, hs⟩
  · exact .inr ⟨_, _, .unsupported r hr ha, Sealing.decryptRecord_unsupported key.bytes ha⟩

/-- Rows are opened without a word, or up to the first that fails. -/
theorem openRows_cases (key : Key) (rows : List Value) :
    (∃ secrets, openRows key.bytes rows = .saying [] (.ok secrets)) ∨
      ∃ row ∈ rows, ∃ e log, Unopened key row e log ∧
        openRows key.bytes rows = .saying log (.error e) := by
  induction rows with
  | nil => exact .inl ⟨[], rfl⟩
  | cons row rows ih =>
    simp only [openRows, Program.bind_eq, Program.ofExcept_bind]
    cases hr : recordOf row with
    | error e =>
      exact .inr ⟨row, List.mem_cons_self, e, [], .unreadable ((recordOf_fails row).error hr), rfl⟩
    | ok r =>
      obtain ⟨s, hs⟩ | ⟨e, log, he, hs⟩ := decryptRecord_opens key hr
      · obtain ⟨secrets, hrest⟩ | ⟨later, hm, e, log, he, hrest⟩ := ih
        · exact .inl ⟨s :: secrets, by simp only [hs, hrest]; rfl⟩
        · exact .inr ⟨later, List.mem_cons_of_mem _ hm, e, log, he, by
            simp only [hs, hrest, Program.saying_ok_bind, Program.saying_error_bind]⟩
      · exact .inr ⟨row, List.mem_cons_self, e, log, he, by
          simp only [hs, Program.saying_error_bind]⟩

end Vault
end EnvelopeVault
