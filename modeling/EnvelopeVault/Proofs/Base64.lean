import EnvelopeVault.Text.Base64

/-!
# Base64 is read in one spelling

`decode_eq_some_iff`: a text decodes to octets exactly if it is what `encode`
writes for them. Half of it is the comparison at the end of `decode`; the other
half is that the tolerant reading takes what `encode` writes, for all three
lengths of the last group. The tolerant reading itself takes digits with pads
after them (`decodeStrict_eq_some_iff`): the digits of octets, in whose last one
the bits that are left over may be set (`decodeStrict_eq_some_iff_raised`).
-/

namespace EnvelopeVault.Base64

/-- The six-bit digits of octets. The last digit of a short group is filled up with zeros. -/
def sextets : Bytes → List Nat
  | [] => []
  | [a] => [a.toNat / 4, a.toNat % 4 * 16]
  | [a, b] => [a.toNat / 4, a.toNat % 4 * 16 + b.toNat / 16, b.toNat % 16 * 4]
  | a :: b :: c :: rest =>
    a.toNat / 4 :: (a.toNat % 4 * 16 + b.toNat / 16) :: (b.toNat % 16 * 4 + c.toNat / 64) ::
      c.toNat % 64 :: sextets rest

def padding : Bytes → Nat
  | [] => 0
  | [_] => 2
  | [_, _] => 1
  | _ :: _ :: _ :: rest => padding rest

theorem encode_eq (b : Bytes) :
    encode b = (sextets b).map digit ++ List.replicate (padding b) pad := by
  fun_induction encode b with
  | case1 => rfl
  | case2 a => rfl
  | case3 a b => rfl
  | case4 a b c rest ih => simp [sextets, padding, ih]

-- ---------------------------------------------------------------------------
-- Digits and the octets in them
-- ---------------------------------------------------------------------------

/-- The digits of octets. Where the last of them leave bits over, the last digit is raised by
what they are set to. -/
def raised (low : Nat) : Bytes → List Nat
  | [] => []
  | [a] => [a.toNat / 4, a.toNat % 4 * 16 + low]
  | [a, b] => [a.toNat / 4, a.toNat % 4 * 16 + b.toNat / 16, b.toNat % 16 * 4 + low]
  | a :: b :: c :: rest =>
    a.toNat / 4 :: (a.toNat % 4 * 16 + b.toNat / 16) :: (b.toNat % 16 * 4 + c.toNat / 64) ::
      c.toNat % 64 :: raised low rest

/-- In how many ways the bits that are left over can be set. -/
def spares : Bytes → Nat
  | [] => 1
  | [_] => 16
  | [_, _] => 4
  | _ :: _ :: _ :: rest => spares rest

theorem spares_pos (b : Bytes) : 0 < spares b := by
  fun_induction spares b with
  | case4 a b c rest ih => exact ih
  | _ => decide

theorem raised_zero (b : Bytes) : raised 0 b = sextets b := by
  fun_induction sextets b with
  | case4 a b c rest ih => simp [raised, ih]
  | _ => rfl

theorem length_raised (low : Nat) (b : Bytes) :
    (raised low b).length = (b.length * 4 + 2) / 3 := by
  fun_induction raised low b with
  | case4 a b c rest ih =>
    simp only [List.length_cons, ih]
    omega
  | _ => simp

theorem raised_lt {low : Nat} {b : Bytes} (h : low < spares b) : ∀ d ∈ raised low b, d < 64 := by
  fun_induction raised low b with
  | case1 => simp
  | case2 a =>
    have := a.toNat_lt
    simp only [spares] at h
    simp only [List.forall_mem_cons, List.not_mem_nil, false_imp_iff, implies_true, and_true]
    omega
  | case3 a b =>
    have := a.toNat_lt
    have := b.toNat_lt
    simp only [spares] at h
    simp only [List.forall_mem_cons, List.not_mem_nil, false_imp_iff, implies_true, and_true]
    omega
  | case4 a b c rest ih =>
    have := a.toNat_lt
    have := b.toNat_lt
    have := c.toNat_lt
    simp only [List.forall_mem_cons]
    exact ⟨by omega, by omega, by omega, by omega, ih h⟩

/-- Digits are put together again in groups of four, whatever the last group is. The bits that are
left over are ignored. -/
theorem octets_raised {low : Nat} {b : Bytes} (h : low < spares b) : octets (raised low b) = b := by
  fun_induction raised low b with
  | case1 => rfl
  | case2 a =>
    have := a.toNat_lt
    simp only [spares] at h
    simp only [octets, List.cons.injEq, and_true, ← UInt8.toNat_inj, UInt8.toNat_ofNat']
    omega
  | case3 a b =>
    have := a.toNat_lt
    have := b.toNat_lt
    simp only [spares] at h
    simp only [octets, List.cons.injEq, and_true, ← UInt8.toNat_inj, UInt8.toNat_ofNat']
    omega
  | case4 a b c rest ih =>
    have := a.toNat_lt
    have := b.toNat_lt
    have := c.toNat_lt
    simp only [octets, ih h, List.cons.injEq, and_true, ← UInt8.toNat_inj, UInt8.toNat_ofNat']
    omega

theorem exists_raised : ∀ ds : List Nat, (∀ d ∈ ds, d < 64) → ds.length % 4 ≠ 1 →
    ∃ low < spares (octets ds), ds = raised low (octets ds)
  | [], _, _ => ⟨0, Nat.zero_lt_one, rfl⟩
  | [_], _, h => absurd rfl h
  | [a, b], hds, _ => by
    simp only [List.forall_mem_cons] at hds
    refine ⟨b % 16, Nat.mod_lt _ (by decide), ?_⟩
    simp only [octets, raised, List.cons.injEq, and_true, UInt8.toNat_ofNat']
    omega
  | [a, b, c], hds, _ => by
    simp only [List.forall_mem_cons] at hds
    refine ⟨c % 4, Nat.mod_lt _ (by decide), ?_⟩
    simp only [octets, raised, List.cons.injEq, and_true, UInt8.toNat_ofNat']
    omega
  | a :: b :: c :: d :: rest, hds, hl => by
    simp only [List.forall_mem_cons] at hds
    obtain ⟨ha, hb, hc, hd, hrest⟩ := hds
    simp only [List.length_cons] at hl
    obtain ⟨low, hlow, heq⟩ := exists_raised rest hrest (by omega)
    refine ⟨low, hlow, ?_⟩
    simp only [octets, raised, List.cons.injEq, UInt8.toNat_ofNat']
    exact ⟨by omega, by omega, by omega, by omega, heq⟩

theorem raised_injective {low other : Nat} {b : Bytes} (hb : b.length % 3 ≠ 0)
    (h : raised low b = raised other b) : low = other := by
  fun_induction raised low b with
  | case1 => simp at hb
  | case2 a =>
    simp only [raised, List.cons.injEq] at h
    omega
  | case3 a b =>
    simp only [raised, List.cons.injEq] at h
    omega
  | case4 a b c rest ih =>
    simp only [List.length_cons] at hb
    simp only [raised, List.cons.injEq] at h
    exact ih (by omega) h.2.2.2.2

theorem sextets_lt (b : Bytes) : ∀ d ∈ sextets b, d < 64 :=
  raised_zero b ▸ raised_lt (spares_pos b)

/-- Padding fills the last group up to four characters, and leaves bits over if it does. -/
theorem padding_cases (b : Bytes) :
    b.length % 3 = 0 ∧ padding b = 0 ∧ spares b = 1 ∨
      b.length % 3 = 1 ∧ padding b = 2 ∧ spares b = 16 ∨
      b.length % 3 = 2 ∧ padding b = 1 ∧ spares b = 4 := by
  fun_induction spares b with
  | case4 a b c rest ih =>
    simp only [List.length_cons, padding]
    omega
  | _ => simp [padding]

theorem length_encode (b : Bytes) : (encode b).length = 4 * ((b.length + 2) / 3) := by
  fun_induction encode b with
  | case1 => rfl
  | case2 a => simp
  | case3 a b => simp
  | case4 a b c rest ih =>
    simp only [List.length_cons, ih]
    omega

theorem length_octets (ds : List Nat) : (octets ds).length = ds.length * 3 / 4 := by
  fun_induction octets ds with
  | case1 a b c d rest ih =>
    simp only [List.length_cons, ih]
    omega
  | case2 a b c => simp
  | case3 a b => simp
  | case4 ds hfour hthree htwo =>
    rcases ds with _ | ⟨a, _ | ⟨b, _ | ⟨c, _ | ⟨d, rest⟩⟩⟩⟩
    · rfl
    · simp
    · exact (htwo a b rfl).elim
    · exact (hthree a b c rfl).elim
    · exact (hfour a b c d rest rfl).elim

theorem admitsPadding_raised (low : Nat) (b : Bytes) (pads : Nat) :
    admitsPadding (raised low b).length pads = true ↔
      pads = padding b ∨ b ≠ [] ∧ b.length % 3 = 0 := by
  rw [length_raised, ← List.length_pos_iff]
  obtain ⟨hb, hp, -⟩ | ⟨hb, hp, -⟩ | ⟨hb, hp, -⟩ := padding_cases b
  · have hd : (b.length * 4 + 2) / 3 % 4 = 0 := by omega
    simp only [admitsPadding, hd, hp, hb, Bool.or_eq_true, bne_iff_ne, beq_iff_eq, ne_eq, and_true]
    omega
  · have hd : (b.length * 4 + 2) / 3 % 4 = 2 := by omega
    simp [admitsPadding, hd, hp, hb]
  · have hd : (b.length * 4 + 2) / 3 % 4 = 3 := by omega
    simp [admitsPadding, hd, hp, hb]

theorem value?_digit : ∀ d < 64, value? (digit d) = some d := by decide

theorem digit_ne_pad : ∀ d < 64, (digit d != pad) = true := by decide

theorem ascii_encode (b : Bytes) : ∀ c ∈ encode b, c.val < 0x80 := by
  have hdigit : ∀ d < 64, (digit d).val < 0x80 := by decide
  intro c hc
  rw [encode_eq, List.mem_append] at hc
  rcases hc with hc | hc
  · obtain ⟨d, hd, rfl⟩ := List.mem_map.mp hc
    exact hdigit d (sextets_lt b d hd)
  · rw [List.eq_of_mem_replicate hc]
    decide

theorem isSurrogate_encode (b : Bytes) : ∀ c ∈ encode b, c.isSurrogate = false := by
  intro c hc
  have hc := ascii_encode b c hc
  simp only [CodePoint.isSurrogate, Bool.and_eq_false_iff, decide_eq_false_iff_not]
  omega

-- ---------------------------------------------------------------------------
-- The tolerant reading
-- ---------------------------------------------------------------------------

theorem value?_eq_some_iff : value? c = some d ↔ d < 64 ∧ c = digit d := by
  constructor
  · intro h
    have hval : d < 64 ∧ c.val = (digit d).val := by
      simp only [value?] at h
      repeat' split at h
      all_goals cases h
      case isFalse.isFalse.isFalse.isTrue hplus => exact ⟨by decide, hplus⟩
      case isFalse.isFalse.isFalse.isFalse.isTrue hslash => exact ⟨by decide, hslash⟩
      -- The letters and the decimal digits are in ranges.
      all_goals simp only [digit, Fin.val_ofNat]
      all_goals repeat' split
      all_goals omega
    exact ⟨hval.1, Fin.ext hval.2⟩
  · rintro ⟨hd, rfl⟩
    exact value?_digit d hd

theorem mapM_value?_eq_some_iff {t : Text} :
    t.mapM value? = some ds ↔ (∀ d ∈ ds, d < 64) ∧ t = ds.map digit := by
  induction t generalizing ds with
  | nil => cases ds <;> simp
  | cons c t ih =>
    simp only [List.mapM_cons, bind, Option.bind_eq_some_iff, value?_eq_some_iff, ih, pure,
      Option.some.injEq]
    constructor
    · rintro ⟨d, ⟨hd, rfl⟩, ds, ⟨hds, rfl⟩, rfl⟩
      exact ⟨List.forall_mem_cons.mpr ⟨hd, hds⟩, rfl⟩
    · rintro ⟨hds, h⟩
      cases ds with
      | nil => cases h
      | cons d ds =>
        obtain ⟨rfl, rfl⟩ := List.cons.inj h
        obtain ⟨hd, hds⟩ := List.forall_mem_cons.mp hds
        exact ⟨d, ⟨hd, rfl⟩, ds, ⟨hds, rfl⟩, rfl⟩

theorem map_digit_raised_injective {low other : Nat} {b : Bytes} (hb : b.length % 3 ≠ 0)
    (hlow : low < spares b) (hother : other < spares b)
    (h : (raised low b).map digit = (raised other b).map digit) : low = other := by
  have hread {n : Nat} (hn : n < spares b) :
      ((raised n b).map digit).mapM value? = some (raised n b) :=
    mapM_value?_eq_some_iff.mpr ⟨raised_lt hn, rfl⟩
  have heq := hread hlow
  rw [h, hread hother] at heq
  exact (raised_injective hb (Option.some.inj heq)).symm

theorem decodeStrict_digits (hds : ∀ d ∈ ds, d < 64) (pads : Nat) :
    decodeStrict (ds.map digit ++ List.replicate pads pad) =
      if admitsPadding ds.length pads then some (octets ds) else none := by
  have hd : ∀ c ∈ ds.map digit, (c != pad) = true := by
    simp only [List.mem_map]
    rintro _ ⟨d, hd, rfl⟩
    exact digit_ne_pad d (hds d hd)
  have ht : (ds.map digit ++ List.replicate pads pad).takeWhile (· != pad) = ds.map digit := by
    rw [List.takeWhile_append_of_pos hd]
    cases pads <;> simp [List.replicate_succ]
  have hp : (ds.map digit ++ List.replicate pads pad).dropWhile (· != pad) =
      List.replicate pads pad := by
    rw [List.dropWhile_append_of_pos hd]
    cases pads <;> simp [List.replicate_succ]
  simp [decodeStrict, ht, hp, mapM_value?_eq_some_iff.mpr ⟨hds, rfl⟩]

theorem decodeStrict_eq_some_iff :
    decodeStrict t = some b ↔ ∃ ds pads, (∀ d ∈ ds, d < 64) ∧
      t = ds.map digit ++ List.replicate pads pad ∧ admitsPadding ds.length pads = true ∧
      octets ds = b := by
  constructor
  · intro h
    have hsplit := List.takeWhile_append_dropWhile (p := (· != pad)) (l := t)
    simp only [decodeStrict] at h
    split at h
    · cases h
    · rename_i ds hmap
      obtain ⟨hds, hdigits⟩ := mapM_value?_eq_some_iff.mp hmap
      split at h
      · rename_i hpads
        obtain ⟨hall, hadmits⟩ := Bool.and_eq_true_iff.mp hpads
        have hrest : t.dropWhile (· != pad) = List.replicate _ pad :=
          List.eq_replicate_iff.mpr ⟨rfl, fun c hc => by simpa using List.all_eq_true.mp hall c hc⟩
        rw [hdigits, List.length_map] at hadmits
        cases h
        refine ⟨ds, _, hds, ?_, hadmits, rfl⟩
        rw [← hdigits, ← hrest, hsplit]
      · cases h
  · rintro ⟨ds, pads, hds, rfl, hadmits, rfl⟩
    rw [decodeStrict_digits hds, if_pos hadmits]

/-- The digits of octets are read with bits left over in any way, and after whole groups with
padding of any length. -/
theorem decodeStrict_eq_some_iff_raised :
    decodeStrict t = some b ↔ ∃ low pads, low < spares b ∧
      t = (raised low b).map digit ++ List.replicate pads pad ∧
      (pads = padding b ∨ b ≠ [] ∧ b.length % 3 = 0) := by
  rw [decodeStrict_eq_some_iff]
  constructor
  · rintro ⟨ds, pads, hds, rfl, hadmits, rfl⟩
    have hl : ds.length % 4 ≠ 1 := by
      intro hl
      simp [admitsPadding, hl] at hadmits
    obtain ⟨low, hlow, heq⟩ := exists_raised ds hds hl
    rw [heq] at hadmits
    exact ⟨low, pads, hlow, by rw [← heq], (admitsPadding_raised ..).mp hadmits⟩
  · rintro ⟨low, pads, hlow, rfl, hpads⟩
    exact ⟨_, pads, raised_lt hlow, rfl, (admitsPadding_raised ..).mpr hpads, octets_raised hlow⟩

theorem decodeStrict_encode (b : Bytes) : decodeStrict (encode b) = some b :=
  decodeStrict_eq_some_iff_raised.mpr
    ⟨0, padding b, spares_pos b, by rw [encode_eq, raised_zero], .inl rfl⟩

-- ---------------------------------------------------------------------------
-- The strict reading
-- ---------------------------------------------------------------------------

theorem decode_encode (b : Bytes) : decode (encode b) = some b := by
  simp [decode, decodeStrict_encode]

theorem eq_encode_of_decode (h : decode t = some b) : t = encode b := by
  unfold decode at h
  split at h
  · cases h
  · split at h
    · rename_i b' _ he
      cases h
      exact he.symm
    · cases h

/-- Reading accepts exactly what writing produces. -/
theorem decode_eq_some_iff : decode t = some b ↔ t = encode b :=
  ⟨eq_encode_of_decode, fun h => h ▸ decode_encode b⟩

theorem encode_injective (h : encode a = encode b) : a = b := by
  have := decode_encode a
  rw [h, decode_encode] at this
  exact Option.some.inj this.symm

end EnvelopeVault.Base64
