import EnvelopeVault.Proofs.FieldCipher

/-!
# Parts and keys are read in canonical base64

`base64_read_as_written`: a part of a field, and the text of a key, gives octets
exactly if it is what is written for them, and everything else is malformed. Which
texts are written is a grammar of groups (`Base64.IsCanonical`). The tolerant
reading takes other spellings of the same octets as well (`Base64.Tolerated`):
they are all that the comparison at the end of the strict reading removes.
-/

namespace EnvelopeVault

namespace Base64

-- ---------------------------------------------------------------------------
-- Canonical texts
-- ---------------------------------------------------------------------------

/-- Groups of four digits. The last one may have two or three: pads fill it up, and the bits of
its last digit that no octet takes are zeros. -/
inductive IsCanonical : Text → Prop
  | nil : IsCanonical []
  | two (ha : a < 64) (hb : b < 4) : IsCanonical [digit a, digit (b * 16), pad, pad]
  | three (ha : a < 64) (hb : b < 64) (hc : c < 16) :
      IsCanonical [digit a, digit b, digit (c * 4), pad]
  | group (ha : a < 64) (hb : b < 64) (hc : c < 64) (hd : d < 64) (h : IsCanonical rest) :
      IsCanonical (digit a :: digit b :: digit c :: digit d :: rest)

theorem isCanonical_encode (b : Bytes) : IsCanonical (encode b) := by
  fun_induction encode b with
  | case1 => exact .nil
  | case2 a =>
    have := a.toNat_lt
    exact .two (by omega) (by omega)
  | case3 a b =>
    have := a.toNat_lt
    have := b.toNat_lt
    exact .three (by omega) (by omega) (by omega)
  | case4 a b c rest ih =>
    have := a.toNat_lt
    have := b.toNat_lt
    have := c.toNat_lt
    exact .group (by omega) (by omega) (by omega) (by omega) ih

theorem exists_encode (h : IsCanonical t) : ∃ b, t = encode b := by
  induction h with
  | nil => exact ⟨[], rfl⟩
  | @two a b ha hb =>
    refine ⟨octets [a, b * 16], ?_⟩
    simp only [octets, encode, UInt8.toNat_ofNat']
    congr <;> omega
  | @three a b c ha hb hc =>
    refine ⟨octets [a, b, c * 4], ?_⟩
    simp only [octets, encode, UInt8.toNat_ofNat']
    congr <;> omega
  | @group a b c d rest ha hb hc hd _ ih =>
    obtain ⟨octets', rfl⟩ := ih
    refine ⟨octets [a, b, c, d] ++ octets', ?_⟩
    simp only [octets, List.cons_append, List.nil_append, encode, UInt8.toNat_ofNat']
    congr <;> omega

theorem isCanonical_iff : IsCanonical t ↔ ∃ b, t = encode b :=
  ⟨exists_encode, fun ⟨b, h⟩ => h ▸ isCanonical_encode b⟩

-- ---------------------------------------------------------------------------
-- Other spellings
-- ---------------------------------------------------------------------------

/-- The spellings of octets that the tolerant reading takes beside the one that is written: bits
that are left over are set, or padding comes after whole groups. -/
inductive Tolerated (b : Bytes) : Text → Prop
  | leftOver (low : Nat) (h : 0 < low) (hlow : low < spares b) :
      Tolerated b ((raised low b).map digit ++ List.replicate (padding b) pad)
  | surplus (pads : Nat) (h : 0 < pads) (hb : b ≠ []) (hwhole : b.length % 3 = 0) :
      Tolerated b (encode b ++ List.replicate pads pad)

theorem decodeStrict_eq_some_iff_tolerated :
    decodeStrict t = some b ↔ t = encode b ∨ Tolerated b t := by
  have hencode : encode b = (raised 0 b).map digit ++ List.replicate (padding b) pad := by
    rw [encode_eq, raised_zero]
  rw [decodeStrict_eq_some_iff_raised]
  constructor
  · rintro ⟨low, pads, hlow, rfl, hpads⟩
    obtain rfl | hpos := Nat.eq_zero_or_pos low
    · obtain rfl | ⟨hb, hwhole⟩ := hpads
      · exact .inl hencode.symm
      · have hpadding : padding b = 0 := by
          have := padding_cases b
          omega
        rw [hpadding, List.replicate_zero, List.append_nil] at hencode
        rw [← hencode]
        obtain rfl | hpads := Nat.eq_zero_or_pos pads
        · exact .inl (List.append_nil _)
        · exact .inr (.surplus pads hpads hb hwhole)
    · -- with bits left over the last group is filled up
      have hp : pads = padding b := by
        have := padding_cases b
        omega
      exact hp ▸ .inr (.leftOver low hpos hlow)
  · rintro (rfl | ⟨low, h, hlow⟩ | ⟨pads, h, hb, hwhole⟩)
    · exact ⟨0, _, spares_pos b, hencode, .inl rfl⟩
    · exact ⟨low, _, hlow, rfl, .inl rfl⟩
    · have hpadding : padding b = 0 := by
        have := padding_cases b
        omega
      refine ⟨0, pads, spares_pos b, ?_, .inr ⟨hb, hwhole⟩⟩
      rw [hencode, hpadding, List.replicate_zero, List.append_nil]

theorem Tolerated.ne_encode (h : Tolerated b t) : t ≠ encode b := by
  intro ht
  cases h with
  | surplus pads hpads =>
    have hlength := congrArg List.length ht
    rw [List.length_append, List.length_replicate] at hlength
    omega
  | leftOver low hpos hlow =>
    rw [encode_eq, ← raised_zero] at ht
    have hwhole : b.length % 3 ≠ 0 := by
      have := padding_cases b
      omega
    have heq := map_digit_raised_injective hwhole hlow (spares_pos b) (List.append_cancel_right ht)
    omega

theorem decode_eq_none_of_tolerated (h : Tolerated b t) : decode t = none := by
  rw [decode, decodeStrict_eq_some_iff_tolerated.mpr (.inr h)]
  exact if_neg h.ne_encode.symm

end Base64

-- ---------------------------------------------------------------------------
-- Parts and keys
-- ---------------------------------------------------------------------------

namespace FieldCipher

open Base64

variable {cause : Cause} {v : Value}

/-- The value is no text, or one that is written for no octets. -/
def IsUnwritten (v : Value) : Prop := ∀ b, v ≠ .text (encode b)

theorem readBase64_eq_error_iff :
    readBase64 cause v = .error e ↔ IsUnwritten v ∧ e = .ofCause cause := by
  constructor
  · intro h
    refine ⟨fun b hv => ?_, readBase64_error h⟩
    rw [readBase64_eq_ok_iff.mpr hv] at h
    cases h
  · rintro ⟨hv, rfl⟩
    cases hread : readBase64 cause v with
    | ok b => exact absurd (readBase64_eq_ok_iff.mp hread) (hv b)
    | error e => rw [readBase64_error hread]

def IsMalformed (cause : Cause) (name : Text) : Prop :=
  cause.kind = .authenticationFailure ∧ cause.message = "Malformed " ++ name ++ " encoding"

/-- Of all values a part of a field and the text of a key are read from those texts alone that are
written for octets, and give these octets; every other value is malformed, and fails in no other
way. The texts that are written are the canonical ones. What the tolerant reading takes is the text
that is written or another spelling of the same octets, and each of the other spellings is
malformed. -/
theorem base64_read_as_written (v : Value) :
    (∀ part : Part,
      (∀ b, decodePart part v = .ok b ↔ v = .text (encode b)) ∧
      (∀ e, decodePart part v = .error e ↔ IsUnwritten v ∧ e = .ofCause (.malformedPart part)) ∧
      IsMalformed (.malformedPart part) part.name) ∧
    ((∀ b, decodeKeyValue v .base64 = .ok b ↔ v = .text (encode b)) ∧
      (∀ e, decodeKeyValue v .base64 = .error e ↔
        IsUnwritten v ∧ e = .ofCause .malformedKeyText) ∧
      IsMalformed .malformedKeyText "key") ∧
    (∀ t, IsCanonical t ↔ ∃ b, t = encode b) ∧
    (∀ t b, decodeStrict t = some b ↔ t = encode b ∨ Tolerated b t) ∧
    ∀ t b, Tolerated b t → IsUnwritten (.text t) := by
  refine ⟨fun part => ⟨fun b => ?_, fun e => ?_, rfl, rfl⟩, ⟨fun b => ?_, fun e => ?_, rfl, rfl⟩,
    fun t => isCanonical_iff, fun t b => decodeStrict_eq_some_iff_tolerated, fun t b h b' ht => ?_⟩
  · exact decodePart_eq_ok_iff
  · rw [decodePart_eq_readBase64]
    exact readBase64_eq_error_iff
  · rw [decodeKeyValue_eq_readBase64]
    exact readBase64_eq_ok_iff
  · rw [decodeKeyValue_eq_readBase64]
    exact readBase64_eq_error_iff
  · have hnone := decode_eq_none_of_tolerated h
    rw [Value.text.inj ht, decode_encode] at hnone
    cases hnone

/-- Four bits are left over here, and one of them is set; and a pad comes after a whole group. -/
example : decodePart .iv (.text "AB==") = .error (.ofCause (.malformedPart .iv)) ∧
    decodePart .tag (.text "AAAA=") = .error (.ofCause (.malformedPart .tag)) ∧
    decodeStrict "AB==" = some [0] ∧ decodeStrict "AAAA=" = some [0, 0, 0] :=
  ⟨rfl, rfl, rfl, rfl⟩

end FieldCipher
end EnvelopeVault
