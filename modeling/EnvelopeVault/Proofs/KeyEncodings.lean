import EnvelopeVault.Proofs.OrgKey

/-!
# Keys under the wrong encoding

`mislabelled_key_refused`: a key that is stored under the encoding that it was not
wrapped in is never resolved, to itself or to another key. The base64 text of a
key is ASCII, so as UTF-8 it has as many octets as characters, and these are more
than a key has (`length_of_base64_text`); read the other way round, the same
count leaves too few.
-/

namespace EnvelopeVault

-- ---------------------------------------------------------------------------
-- Lengths of texts
-- ---------------------------------------------------------------------------

theorem Utf8.length_flatMap_ascii {t : Text} (h : ∀ c ∈ t, c.val < 0x80) :
    (t.flatMap encodePoint).length = t.length := by
  induction t with
  | nil => rfl
  | cons c t ih =>
    obtain ⟨hc, ht⟩ := List.forall_mem_cons.mp h
    simp [encodePoint, hc, ih ht]

namespace FieldCipher

/-- How many octets there are whose UTF-8 text is the base64 text of a key. -/
theorem length_of_base64_text (h : Utf8.decode octets = .ok (Base64.encode key)) :
    octets.length = 4 * ((key.length + 2) / 3) := by
  obtain ⟨-, rfl⟩ := Utf8.encode_eq_ok_iff.mp (Utf8.decode_eq_ok_iff.mp h)
  rw [Utf8.length_flatMap_ascii (Base64.ascii_encode key), Base64.length_encode]

theorem base64_text_ne_utf8_text (hkey : key.length = keySize) (ho : octets.length = keySize) :
    Utf8.decode octets ≠ .ok (Base64.encode key) := by
  intro h
  have hlength := length_of_base64_text h
  rw [hkey, ho] at hlength
  exact absurd hlength (by decide)

/-- What reading the text of a key in the encoding that it is not in comes to. UTF-8 gives more
octets than a key has. Base64 gives fewer, or the text is none: then no octets have that text. -/
inductive Misread (key : Bytes) : KeyEncoding → Cause → (Text → LogLine) → Prop
  | longer : Misread key .utf8 .malformedKey .keyMalformed
  | shorter (read : Bytes) (h : Utf8.decode key = .ok (Base64.encode read))
      (hl : read.length < keySize) : Misread key .base64 .malformedKey .keyMalformed
  | unread (h : ∀ read, Utf8.decode key ≠ .ok (Base64.encode read)) :
      Misread key .base64 .malformedKeyText .keyUnverified

theorem decodeKey_misread {label encoding : KeyEncoding} (hk : encodeKey key encoding = .ok t)
    (hkey : key.length = keySize) (hl : label ≠ encoding) :
    (∃ octets, decodeKey t label = .ok octets ∧ octets.length ≠ keySize ∧
      Misread key label .malformedKey .keyMalformed) ∨
    (decodeKey t label = .error (.ofCause .malformedKeyText) ∧
      Misread key label .malformedKeyText .keyUnverified) := by
  cases encoding <;> cases label
  case base64.base64 | utf8.utf8 => exact absurd rfl hl
  case base64.utf8 =>
    cases hk
    have hascii : ∀ c ∈ Base64.encode key, c.isSurrogate = false := Base64.isSurrogate_encode key
    have hread : Utf8.encode (Base64.encode key) = .ok _ := Utf8.encode_eq_ok_iff.mpr ⟨hascii, rfl⟩
    refine .inl ⟨_, by simp only [decodeKey, hread]; rfl, fun hsize => ?_, .longer⟩
    exact base64_text_ne_utf8_text hkey hsize (Utf8.decode_eq_ok_iff.mpr hread)
  case utf8.base64 =>
    have ht : Utf8.decode key = .ok t := by
      simp only [encodeKey] at hk
      split at hk
      · rename_i hd
        cases hk
        exact hd
      · cases hk
    cases hread : Base64.decode t with
    | some read =>
      have htext := Base64.eq_encode_of_decode hread
      subst htext
      have hlength := length_of_base64_text ht
      rw [hkey, keySize] at hlength
      refine .inl ⟨read, by simp only [decodeKey, hread], ?_, .shorter read ht ?_⟩ <;>
        rw [keySize] <;> omega
    | none =>
      refine .inr ⟨by simp only [decodeKey, hread], .unread fun read h => ?_⟩
      rw [h] at ht
      cases ht
      rw [Base64.decode_encode] at hread
      cases hread

end FieldCipher

-- ---------------------------------------------------------------------------
-- Resolving
-- ---------------------------------------------------------------------------

namespace OrgKey

open FieldCipher

theorem unwrap_relabelled (h : wrapUnder nonce org key root encoding = .ok wrapped) :
    ∃ t, encodeKey key encoding = .ok t ∧ wrapped.algorithm = aes256Gcm ∧
      ∀ label, unwrap root.bytes { wrapped with keyEncoding := label } = decodeKey t label := by
  obtain ⟨t, f, hk, hs, rfl⟩ := wrapUnder_eq_ok_iff.mp h
  refine ⟨t, hk, rfl, fun label => ?_⟩
  have ht := seals_iff_decrypt.mp ⟨nonce, hs⟩
  simp only [unwrap, ht]
  rfl

variable {σ : Type} {s s' : σ}

/-- No base64 text of a key is the UTF-8 text of a key. So a key that is stored under the encoding
that it was not wrapped in is refused, whatever the store is beside that: as a text that is no
base64, or because of its length; and the organization's key is not resolved. -/
theorem mislabelled_key_refused (b : Backend σ) (root : Key) (org : Text) (key : Bytes)
    (hkey : key.length = keySize) :
    (∀ other : Bytes, other.length = keySize → Utf8.decode other ≠ .ok (Base64.encode key)) ∧
    ∀ (nonce : Nonce) (encoding label : KeyEncoding) (wrapped : OrgKeyRecord) (s s' : σ),
      wrapUnder nonce org key root encoding = .ok wrapped → label ≠ encoding →
      b.answer (.findKey (.text org)) s =
        (.ok (some { wrapped with keyEncoding := label }), s') →
      ∃ cause line, Misread key label cause line ∧ cause.kind = .authenticationFailure ∧
        (resolve root.bytes (.text org)).run b s =
          ⟨.error (.vault { cause, operation, orgId := .text org }), [line org], s'⟩ := by
  refine ⟨fun other hother => base64_text_ne_utf8_text hkey hother, ?_⟩
  intro nonce encoding label wrapped s s' hw hl hanswer
  obtain ⟨t, hk, ha, hu⟩ := unwrap_relabelled hw
  have hrun : (resolve root.bytes (.text org)).run b s =
      (ofRecord root.bytes (.text org) { wrapped with keyEncoding := label }).run b s' := by
    rw [resolve_eq, Program.run, hanswer]
    rfl
  rw [hrun, ofRecord, if_neg (not_not_intro ha), hu]
  obtain ⟨octets, hread, hsize, hmisread⟩ | ⟨hread, hmisread⟩ := decodeKey_misread hk hkey hl
  · refine ⟨_, _, hmisread, rfl, ?_⟩
    simp only [hread, if_neg hsize]
    rfl
  · refine ⟨_, _, hmisread, rfl, ?_⟩
    simp only [hread]
    rfl

/-- The hypotheses hold of a key that was wrapped in base64 and is stored as UTF-8. -/
theorem base64_key_refused_as_utf8 :
    let root : Key := ⟨List.replicate keySize 0, by decide⟩
    ∃ wrapped, wrapUnder (Nonce.ofNat 0) "o" root.bytes root .base64 = .ok wrapped ∧
      let m := (Memory.empty [] (Nonces.counting 0)).putKey { wrapped with keyEncoding := .utf8 }
      ((resolve root.bytes (.text "o")).run Memory.backend m).result =
        .error (.vault { cause := .malformedKey, operation, orgId := .text "o" }) := by
  intro root
  obtain ⟨wrapped, hw⟩ :=
    (exists_wrapUnder_iff (Nonce.ofNat 0) "o" root.bytes root .base64).mpr ⟨_, rfl⟩
  refine ⟨wrapped, hw, ?_⟩
  obtain ⟨keyText, f, -, -, rfl⟩ := wrapUnder_eq_ok_iff.mp hw
  let m := (Memory.empty [] (Nonces.counting 0)).putKey ⟨"o", f, .utf8, aes256Gcm⟩
  obtain ⟨cause, line, hmisread, -, hrun⟩ := (mislabelled_key_refused Memory.backend root "o"
    root.bytes root.length_eq).2 _ _ .utf8 _ m _ hw nofun rfl
  cases hmisread
  exact congrArg (·.result) hrun

end OrgKey
end EnvelopeVault
