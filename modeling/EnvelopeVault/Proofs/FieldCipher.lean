import EnvelopeVault.Proofs.Base64
import EnvelopeVault.Proofs.Program
import EnvelopeVault.Proofs.Utf8
import EnvelopeVault.Sealing

/-!
# Decryption takes exactly what encryption gives

`decrypt_eq_ok_iff`: three parts decrypt to a text exactly if they are the
parts that encryption gives for that text under some nonce. Each layer is
inverted by itself (UTF-8, the cipher with its tag, base64), and whatever fails
in any of them fails as a failure of authentication.

The cipher is inverted by its own equations: its key stream is combined twice,
and its tag is computed from the ciphertext. Nothing is assumed of the block
function.
-/

namespace EnvelopeVault

namespace Gcm

theorem length_tag (ciph : BlockFunction) (nonce ciphertext : Bytes) :
    (tag ciph nonce ciphertext).length = tagSize := Bytes.length_ofNat _ _

theorem decrypt_eq_some_iff :
    decrypt key nonce s = some message ↔ encrypt key nonce message = s := by
  simp only [decrypt, decryptWith, encrypt, encryptWith]
  constructor
  · intro h
    split at h
    · rename_i ht
      cases h
      rw [combine_combine, ht]
    · cases h
  · rintro rfl
    simp [combine_combine]

end Gcm

-- ---------------------------------------------------------------------------
-- Keys and nonces
-- ---------------------------------------------------------------------------

theorem Nonce.ext {a b : Nonce} (h : a.bytes = b.bytes) : a = b := by
  cases a
  cases b
  simp_all

theorem Key.ofBytes?_bytes (key : Key) : Key.ofBytes? key.bytes = some key := by
  simp [Key.ofBytes?, key.length_eq]

theorem Nonce.ofBytes?_eq_some_iff {nonce : Nonce} :
    Nonce.ofBytes? b = some nonce ↔ b = nonce.bytes := by
  unfold Nonce.ofBytes?
  split
  · rw [Option.some.injEq]
    constructor
    · rintro rfl
      rfl
    · rintro rfl
      rfl
  · rename_i h
    simp only [reduceCtorEq, false_iff]
    rintro rfl
    exact h nonce.length_eq

namespace FieldCipher

/-- A failure of authentication that nothing was added to yet. -/
def Unauthentic (e : Failure) : Prop :=
  ∃ cause : Cause, e = .ofCause cause ∧ cause.kind = .authenticationFailure

-- ---------------------------------------------------------------------------
-- Encryption
-- ---------------------------------------------------------------------------

theorem encryptWith_eq_ok_iff :
    encryptWith key nonce plaintext = .ok f ↔
      ∃ message, Utf8.encode plaintext = .ok message ∧
        f = ofSealed nonce (Gcm.encrypt key nonce message) := by
  unfold encryptWith
  split
  · rename_i h
    simp [h]
  · rename_i message h
    simp [h, eq_comm]

theorem encrypt_eq_draw (key : Key) (plaintext : Text) :
    Sealing.encrypt key.bytes plaintext =
      .draw fun nonce => .ofExcept (encryptWith key nonce plaintext) := by
  rw [Sealing.encrypt, Key.ofBytes?_bytes]

theorem exists_encryptWith (key : Key) (nonce : Nonce) {plaintext : Text}
    (h : ∀ c ∈ plaintext, c.isSurrogate = false) :
    ∃ f, encryptWith key nonce plaintext = .ok f :=
  ⟨_, encryptWith_eq_ok_iff.mpr ⟨_, Utf8.encode_eq_ok_iff.mpr ⟨h, rfl⟩, rfl⟩⟩

-- ---------------------------------------------------------------------------
-- Decryption
-- ---------------------------------------------------------------------------

def readBase64 (cause : Cause) : Value → Except Failure Bytes
  | .text t =>
    match Base64.decode t with
    | some b => .ok b
    | none => .error (.ofCause cause)
  | _ => .error (.ofCause cause)

theorem decodePart_eq_readBase64 (part : Part) (v : Value) :
    decodePart part v = readBase64 (.malformedPart part) v := by
  cases v <;> rfl

theorem decodeKeyValue_eq_readBase64 (v : Value) :
    decodeKeyValue v .base64 = readBase64 .malformedKeyText v := by
  cases v <;> rfl

theorem readBase64_eq_ok_iff {cause : Cause} :
    readBase64 cause v = .ok b ↔ v = .text (Base64.encode b) := by
  cases v with
  | text t =>
    rw [Value.text.injEq, ← Base64.decode_eq_some_iff]
    simp only [readBase64]
    split <;> simp_all
  | _ => simp [readBase64]

theorem readBase64_error {cause : Cause} (h : readBase64 cause v = .error e) :
    e = .ofCause cause := by
  unfold readBase64 at h
  repeat' split at h
  all_goals cases h
  all_goals rfl

theorem decodePart_eq_ok_iff : decodePart part v = .ok b ↔ v = .text (Base64.encode b) := by
  rw [decodePart_eq_readBase64, readBase64_eq_ok_iff]

theorem decodePart_error (h : decodePart part v = .error e) : Unauthentic e := by
  rw [decodePart_eq_readBase64] at h
  exact ⟨_, readBase64_error h, rfl⟩

theorem openParts_eq_ok_iff :
    openParts key parts = .ok plaintext ↔
      ∃ (nonce : Nonce) (message : Bytes), parts.iv = nonce.bytes ∧
        Utf8.encode plaintext = .ok message ∧
        Gcm.encrypt key nonce message = ⟨parts.ciphertext, parts.tag⟩ := by
  unfold openParts
  constructor
  · intro h
    split at h
    · cases h
    · rename_i nonce hn
      split at h
      · cases h
      · split at h
        · cases h
        · rename_i message hm
          split at h
          · cases h
          · rename_i hu
            cases h
            exact ⟨nonce, message, Nonce.ofBytes?_eq_some_iff.mp hn,
              Utf8.decode_eq_ok_iff.mp hu, Gcm.decrypt_eq_some_iff.mp hm⟩
  · rintro ⟨nonce, message, hn, hu, hs⟩
    have ht : parts.tag.length = tagSize := by
      have := congrArg (·.tag.length) hs
      exact this.symm.trans (Gcm.length_tag _ _ _)
    simp [Nonce.ofBytes?_eq_some_iff.mpr hn, ht, Gcm.decrypt_eq_some_iff.mpr hs,
      Utf8.decode_eq_ok_iff.mpr hu]

theorem openParts_error (h : openParts key parts = .error e) : Unauthentic e := by
  unfold openParts at h
  repeat' split at h
  all_goals cases h
  all_goals exact ⟨_, rfl, rfl⟩

theorem decryptWith_eq_ok_iff :
    decryptWith key parts = .ok plaintext ↔
      ∃ nonce f, encryptWith key nonce plaintext = .ok f ∧ parts = f.map .text := by
  simp only [decryptWith, bind_ok, decodePart_eq_ok_iff, openParts_eq_ok_iff,
    encryptWith_eq_ok_iff]
  constructor
  · rintro ⟨c, hc, i, hi, t, ht, nonce, message, rfl, hu, hs⟩
    refine ⟨nonce, _, ⟨message, hu, rfl⟩, ?_⟩
    rw [hs]
    cases parts
    simp_all [ofSealed, Triple.map]
  · rintro ⟨nonce, f, ⟨message, hu, rfl⟩, rfl⟩
    -- the cipher is kept closed: unfolding it would expand a whole key schedule
    generalize hs : Gcm.encrypt key nonce message = s
    exact ⟨s.ciphertext, rfl, nonce.bytes, rfl, s.tag, rfl, nonce, message, rfl, hu, hs⟩

theorem decryptWith_error (h : decryptWith key parts = .error e) : Unauthentic e := by
  unfold decryptWith at h
  rcases bind_error h with h | ⟨c, -, h⟩
  · exact decodePart_error h
  rcases bind_error h with h | ⟨i, -, h⟩
  · exact decodePart_error h
  rcases bind_error h with h | ⟨t, -, h⟩
  · exact decodePart_error h
  exact openParts_error h

theorem decrypt_bytes (key : Key) (parts : Triple Value) :
    decrypt key.bytes parts = decryptWith key parts := by
  rw [decrypt, Key.ofBytes?_bytes]

theorem decrypt_eq_ok_iff {key : Key} :
    decrypt key.bytes parts = .ok plaintext ↔
      ∃ nonce f, encryptWith key nonce plaintext = .ok f ∧ parts = f.map .text := by
  rw [decrypt_bytes, decryptWith_eq_ok_iff]

theorem iv_of_encryptWith (h : encryptWith key nonce plaintext = .ok f) :
    f.iv = Base64.encode nonce.bytes := by
  obtain ⟨message, -, rfl⟩ := encryptWith_eq_ok_iff.mp h
  rfl

/-- Decryption accepts the parts that encryption gives and no others, under every key. What it
does not accept fails as a failure of authentication. A text without surrogates can be encrypted
under every nonce, so it comes back; and a text that was read is written again as it was under
the nonce that stands in the field, so a stored field has one spelling. -/
theorem decrypt_accepts_exactly_encrypted (key : Key) (parts : Triple Value) :
    (∀ plaintext, Sealing.encrypt key.bytes plaintext =
      .draw fun nonce => .ofExcept (encryptWith key nonce plaintext)) ∧
    (∀ plaintext, decrypt key.bytes parts = .ok plaintext ↔
      ∃ nonce f, encryptWith key nonce plaintext = .ok f ∧ parts = f.map .text) ∧
    (∀ e, decrypt key.bytes parts = .error e → Unauthentic e) ∧
    (∀ plaintext nonce, (∀ c ∈ plaintext, c.isSurrogate = false) →
      ∃ f, encryptWith key nonce plaintext = .ok f ∧
        decrypt key.bytes (f.map .text) = .ok plaintext) ∧
    (∀ plaintext nonce, decrypt key.bytes parts = .ok plaintext →
      parts.iv = .text (Base64.encode nonce.bytes) →
      ∃ f, encryptWith key nonce plaintext = .ok f ∧ parts = f.map .text) := by
  refine ⟨encrypt_eq_draw key, fun _ => decrypt_eq_ok_iff, ?_, ?_, ?_⟩
  · intro e h
    exact decryptWith_error (decrypt_bytes key parts ▸ h)
  · intro plaintext nonce h
    obtain ⟨f, hf⟩ := exists_encryptWith key nonce h
    exact ⟨f, hf, decrypt_eq_ok_iff.mpr ⟨nonce, f, hf, rfl⟩⟩
  · intro plaintext nonce h hiv
    obtain ⟨used, f, hf, rfl⟩ := decrypt_eq_ok_iff.mp h
    have hn : Base64.encode used.bytes = Base64.encode nonce.bytes := by
      rw [← iv_of_encryptWith hf]
      exact Value.text.inj hiv
    have hu : used = nonce := Nonce.ext (Base64.encode_injective hn)
    exact ⟨f, hu ▸ hf, rfl⟩

end FieldCipher
end EnvelopeVault
