import EnvelopeVault.Text.Utf8

/-!
# UTF-8 is read and written in one form

`decode_eq_ok_iff`: octets decode to a text exactly if the text encodes to
them. So there is one form for each text without surrogates, and none for any
other: overlong forms, encoded surrogates and values beyond the last code point
are read as no text at all.
-/

namespace EnvelopeVault

-- ---------------------------------------------------------------------------
-- Texts that can be encoded
-- ---------------------------------------------------------------------------

namespace Text

def IsEncodable (t : Text) : Prop := ∀ c ∈ t, c.isSurrogate = false

theorem isEncodable_iff {t : Text} : t.any CodePoint.isSurrogate = false ↔ t.IsEncodable := by
  simp [IsEncodable]

instance (t : Text) : Decidable t.IsEncodable := decidable_of_iff _ isEncodable_iff

theorem isEncodable_nil : IsEncodable [] := List.forall_mem_nil _

theorem isEncodable_cons {c : CodePoint} {t : Text} :
    IsEncodable (c :: t) ↔ c.isSurrogate = false ∧ t.IsEncodable :=
  List.forall_mem_cons

theorem isEncodable_append {s t : Text} : IsEncodable (s ++ t) ↔ s.IsEncodable ∧ t.IsEncodable :=
  List.forall_mem_append

end Text

namespace Utf8

theorem unencodableFrom_eq_none {t : Text} :
    t.unencodableFrom start = none ↔ ∀ c ∈ t, c.isSurrogate = false := by
  induction t generalizing start with
  | nil => simp [Text.unencodableFrom]
  | cons c t ih => cases hc : c.isSurrogate <;> simp [Text.unencodableFrom, hc, ih]

theorem encode_eq_ok_iff {t : Text} :
    encode t = .ok b ↔ (∀ c ∈ t, c.isSurrogate = false) ∧ t.flatMap encodePoint = b := by
  unfold encode
  split
  · rename_i h
    have hn : ¬ ∀ c ∈ t, c.isSurrogate = false := by
      rw [← @unencodableFrom_eq_none 0, h]
      simp
    simp [hn]
  · rename_i h
    simpa using fun _ => unencodableFrom_eq_none.mp h

theorem not_isSurrogate {c : CodePoint} :
    c.isSurrogate = false ↔ c.val < 0xD800 ∨ 0xE000 ≤ c.val := by
  simp only [CodePoint.isSurrogate, Bool.and_eq_false_iff, decide_eq_false_iff_not]
  omega

-- ---------------------------------------------------------------------------
-- Octets as numbers
-- ---------------------------------------------------------------------------

theorem toNat_octet (h : n < 256) : (octet n).toNat = n := by
  simp only [octet, UInt8.toNat_ofNat']
  omega

theorem octet_eq {a : UInt8} (h : n = a.toNat) : octet n = a := by
  simp [octet, h]

theorem isContinuation_iff {b : UInt8} :
    isContinuation b = true ↔ 0x80 ≤ b.toNat ∧ b.toNat < 0xC0 := by
  simp [isContinuation, UInt8.le_iff_toNat_le, UInt8.lt_iff_toNat_lt]

theorem admitsSecond_iff {a b : UInt8} :
    admitsSecond a b = true ↔ (0x80 ≤ b.toNat ∧ b.toNat < 0xC0) ∧
      (a.toNat = 0xE0 → 0xA0 ≤ b.toNat) ∧ (a.toNat = 0xED → b.toNat < 0xA0) ∧
      (a.toNat = 0xF0 → 0x90 ≤ b.toNat) ∧ (a.toNat = 0xF4 → b.toNat < 0x90) := by
  simp only [admitsSecond, Bool.and_eq_true, Bool.or_eq_true, isContinuation_iff, bne_iff_ne,
    decide_eq_true_eq, UInt8.le_iff_toNat_le, UInt8.lt_iff_toNat_lt, ne_eq, ← UInt8.toNat_inj,
    UInt8.reduceToNat]
  omega

theorem val_point (h : n < 0x110000) : (point n).val = n := by
  simp only [point, Fin.val_ofNat]
  omega

theorem point_val (h : n = c.val) : point n = c := by
  apply Fin.ext
  rw [h, val_point c.isLt]

-- ---------------------------------------------------------------------------
-- The four lengths of a sequence
-- ---------------------------------------------------------------------------

/-- The octets of one code point. -/
inductive Sequence : Bytes → CodePoint → Prop
  | one {a : UInt8} (ha : a.toNat < 0x80) : Sequence [a] (point a.toNat)
  | two {a b : UInt8} (hl : 0xC2 ≤ a.toNat) (hu : a.toNat < 0xE0)
      (hb : admitsSecond a b = true) :
      Sequence [a, b] (point ((a.toNat - 0xC0) * 64 + low b))
  | three {a b c : UInt8} (hl : 0xE0 ≤ a.toNat) (hu : a.toNat < 0xF0)
      (hb : admitsSecond a b = true) (hc : isContinuation c = true) :
      Sequence [a, b, c] (point ((a.toNat - 0xE0) * 4096 + low b * 64 + low c))
  | four {a b c d : UInt8} (hl : 0xF0 ≤ a.toNat) (hu : a.toNat < 0xF5)
      (hb : admitsSecond a b = true) (hc : isContinuation c = true)
      (hd : isContinuation d = true) :
      Sequence [a, b, c, d]
        (point ((a.toNat - 0xF0) * 262144 + low b * 4096 + low c * 64 + low d))

theorem first_octet_iff {a : UInt8} :
    (¬a < 0x80 ∧ (decide (a < 0xC2) || decide (0xF5 ≤ a)) = false) ↔
      0xC2 ≤ a.toNat ∧ a.toNat < 0xF5 := by
  simp only [UInt8.lt_iff_toNat_lt, UInt8.le_iff_toNat_le, UInt8.reduceToNat,
    Bool.or_eq_false_iff, decide_eq_false_iff_not]
  omega

/-- A sequence is read as its code point, whatever follows. -/
theorem decodeFrom_sequence (h : Sequence octets c) (rest : Bytes) :
    decodeFrom start (octets ++ rest) =
      (c :: ·) <$> decodeFrom (start + octets.length) rest := by
  have atLeast {a b : UInt8} (h : b.toNat ≤ a.toNat) : ¬a < b :=
    mt UInt8.lt_iff_toNat_lt.mp (Nat.not_lt.mpr h)
  rw [decodeFrom.eq_def]
  cases h with
  | @one a ha =>
    have h1 : a < 0x80 := UInt8.lt_iff_toNat_lt.mpr ha
    simp [h1]
  | @two a b hl hu hb =>
    obtain ⟨h1, h2⟩ := first_octet_iff.mpr ⟨hl, by omega⟩
    have h3 : a < 0xE0 := UInt8.lt_iff_toNat_lt.mpr hu
    simp [h1, h2, h3, hb]
  | @three a b c hl hu hb hc =>
    obtain ⟨h1, h2⟩ := first_octet_iff.mpr ⟨Nat.le_trans (by decide) hl, by omega⟩
    have h3 : ¬a < 0xE0 := atLeast hl
    have h4 : a < 0xF0 := UInt8.lt_iff_toNat_lt.mpr hu
    simp [h1, h2, h3, h4, hb, hc]
  | @four a b c d hl hu hb hc hd =>
    obtain ⟨h1, h2⟩ := first_octet_iff.mpr ⟨Nat.le_trans (by decide) hl, hu⟩
    have h3 : ¬a < 0xE0 := atLeast (Nat.le_trans (by decide) hl)
    have h4 : ¬a < 0xF0 := atLeast hl
    simp [h1, h2, h3, h4, hb, hc, hd]

theorem sequence_encodePoint (hc : c.isSurrogate = false) : Sequence (encodePoint c) c := by
  have hlt := c.isLt
  have hsur := not_isSurrogate.mp hc
  have stands {octets : Bytes} {n : Nat} (h : Sequence octets (point n)) (hn : n = c.val) :
      Sequence octets c := by
    rwa [point_val hn] at h
  simp only [encodePoint]
  split
  · have h0 := toNat_octet (n := c.val) (by omega)
    exact stands (.one (by omega)) h0
  split
  · have h0 := toNat_octet (n := 0xC0 + c.val / 64) (by omega)
    have h1 := toNat_octet (n := 0x80 + c.val % 64) (by omega)
    refine stands (.two (by omega) (by omega) (admitsSecond_iff.mpr (by omega))) ?_
    unfold low
    omega
  split
  · have h0 := toNat_octet (n := 0xE0 + c.val / 4096) (by omega)
    have h1 := toNat_octet (n := 0x80 + c.val / 64 % 64) (by omega)
    have h2 := toNat_octet (n := 0x80 + c.val % 64) (by omega)
    refine stands (.three (by omega) (by omega) (admitsSecond_iff.mpr (by omega))
      (isContinuation_iff.mpr (by omega))) ?_
    unfold low
    omega
  · have h0 := toNat_octet (n := 0xF0 + c.val / 262144) (by omega)
    have h1 := toNat_octet (n := 0x80 + c.val / 4096 % 64) (by omega)
    have h2 := toNat_octet (n := 0x80 + c.val / 64 % 64) (by omega)
    have h3 := toNat_octet (n := 0x80 + c.val % 64) (by omega)
    refine stands (.four (by omega) (by omega) (admitsSecond_iff.mpr (by omega))
      (isContinuation_iff.mpr (by omega)) (isContinuation_iff.mpr (by omega))) ?_
    unfold low
    omega

theorem encodePoint_sequence (h : Sequence octets c) :
    c.isSurrogate = false ∧ encodePoint c = octets := by
  cases h with
  | @one a ha =>
    have hv := val_point (n := a.toNat) (by omega)
    refine ⟨not_isSurrogate.mpr (by omega), ?_⟩
    simp only [encodePoint, hv]
    rw [if_pos ha, octet_eq rfl]
  | @two a b hl hu hb =>
    have hb := admitsSecond_iff.mp hb
    have hlb : low b = b.toNat - 0x80 := rfl
    have hv := val_point (n := (a.toNat - 0xC0) * 64 + low b) (by omega)
    refine ⟨not_isSurrogate.mpr (by omega), ?_⟩
    simp only [encodePoint, hv]
    rw [if_neg (by omega), if_pos (by omega), octet_eq (a := a) (by omega),
      octet_eq (a := b) (by omega)]
  | @three a b c hl hu hb hc =>
    have hb := admitsSecond_iff.mp hb
    have hc := isContinuation_iff.mp hc
    have hlb : low b = b.toNat - 0x80 := rfl
    have hlc : low c = c.toNat - 0x80 := rfl
    have hv := val_point (n := (a.toNat - 0xE0) * 4096 + low b * 64 + low c) (by omega)
    refine ⟨not_isSurrogate.mpr (by omega), ?_⟩
    simp only [encodePoint, hv]
    rw [if_neg (by omega), if_neg (by omega), if_pos (by omega), octet_eq (a := a) (by omega),
      octet_eq (a := b) (by omega), octet_eq (a := c) (by omega)]
  | @four a b c d hl hu hb hc hd =>
    have hb := admitsSecond_iff.mp hb
    have hc := isContinuation_iff.mp hc
    have hd := isContinuation_iff.mp hd
    have hlb : low b = b.toNat - 0x80 := rfl
    have hlc : low c = c.toNat - 0x80 := rfl
    have hld : low d = d.toNat - 0x80 := rfl
    have hv := val_point
      (n := (a.toNat - 0xF0) * 262144 + low b * 4096 + low c * 64 + low d) (by omega)
    refine ⟨not_isSurrogate.mpr (by omega), ?_⟩
    simp only [encodePoint, hv]
    rw [if_neg (by omega), if_neg (by omega), if_neg (by omega), octet_eq (a := a) (by omega),
      octet_eq (a := b) (by omega), octet_eq (a := c) (by omega), octet_eq (a := d) (by omega)]

-- ---------------------------------------------------------------------------
-- Whole texts
-- ---------------------------------------------------------------------------

theorem decodeFrom_flatMap {t : Text} (h : ∀ c ∈ t, c.isSurrogate = false) :
    decodeFrom start (t.flatMap encodePoint) = .ok t := by
  induction t generalizing start with
  | nil => rfl
  | cons c t ih =>
    obtain ⟨hc, ht⟩ := List.forall_mem_cons.mp h
    rw [List.flatMap_cons, decodeFrom_sequence (sequence_encodePoint hc), ih ht]
    rfl

theorem flatMap_append (hs : Sequence octets c)
    (ih : ∀ t, r = .ok t → (∀ c ∈ t, c.isSurrogate = false) ∧ t.flatMap encodePoint = rest)
    (h : (c :: ·) <$> r = (.ok t : Except Undecodable Text)) :
    (∀ c ∈ t, c.isSurrogate = false) ∧ t.flatMap encodePoint = octets ++ rest := by
  cases r with
  | error e => cases h
  | ok t' =>
    cases h
    obtain ⟨hsur, he⟩ := ih t' rfl
    obtain ⟨hc, hform⟩ := encodePoint_sequence hs
    exact ⟨List.forall_mem_cons.mpr ⟨hc, hsur⟩, by rw [List.flatMap_cons, hform, he]⟩

theorem flatMap_of_decodeFrom (h : decodeFrom start b = .ok t) :
    (∀ c ∈ t, c.isSurrogate = false) ∧ t.flatMap encodePoint = b := by
  fun_induction decodeFrom start b generalizing t with
  | case1 => cases h; simp
  | case2 start a rest ha ih =>
    exact flatMap_append (.one (UInt8.lt_iff_toNat_lt.mp ha)) (fun _ => ih) h
  | case6 start a h1 h2 b rest hb ha ih =>
    have hf := first_octet_iff.mp ⟨h1, by simpa using h2⟩
    exact flatMap_append (.two hf.1 (UInt8.lt_iff_toNat_lt.mp ha) (by simpa using hb))
      (fun _ => ih) h
  | case9 start a h1 h2 b hb ha c rest hc ha' ih =>
    have hl := Nat.not_lt.mp (mt UInt8.lt_iff_toNat_lt.mpr ha)
    exact flatMap_append (.three hl (UInt8.lt_iff_toNat_lt.mp ha') (by simpa using hb)
      (by simpa using hc)) (fun _ => ih) h
  | case12 start a h1 h2 b hb ha c hc ha' d rest hd ih =>
    have hf := first_octet_iff.mp ⟨h1, by simpa using h2⟩
    have hl := Nat.not_lt.mp (mt UInt8.lt_iff_toNat_lt.mpr ha')
    exact flatMap_append (.four hl hf.2 (by simpa using hb) (by simpa using hc)
      (by simpa using hd)) (fun _ => ih) h
  | _ => cases h

theorem decode_eq_ok_iff {t : Text} : decode b = .ok t ↔ encode t = .ok b := by
  rw [encode_eq_ok_iff]
  constructor
  · exact flatMap_of_decodeFrom
  · rintro ⟨hs, rfl⟩
    exact decodeFrom_flatMap hs

end Utf8
end EnvelopeVault
