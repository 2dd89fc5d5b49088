import EnvelopeVault.Json.Reader
import Mathlib.Algebra.Group.Nat.Defs

/-!
# Numbers in documents

A number is a sign, digits, a fraction and an exponent, all but the digits
optional (`Number`). It is read exactly if it is spelled so and is not too large
for a floating-point number (`number?_eq_some_iff`); that a whole number keeps
to the limit on digits then goes without saying (`length_le_maxDigits`).
-/

namespace EnvelopeVault

-- ---------------------------------------------------------------------------
-- Large whole numbers
-- ---------------------------------------------------------------------------

namespace Binary64

/-- Rounding keeps the highest bit. -/
theorem pow_log2_le_nearest (h : n ≠ 0) : 2 ^ n.log2 ≤ nearest n 1 := by
  let shift := n.log2 + 1 - 53
  have hlow : 2 ^ (n.log2 - shift) ≤ n / 2 ^ shift := by
    rw [Nat.le_div_iff_mul_le (Nat.two_pow_pos shift), ← Nat.pow_add,
      Nat.sub_add_cancel (by omega)]
    exact Nat.log2_self_le h
  have hrounded : (n / 2 ^ shift) * 2 ^ shift ≤ nearest n 1 := by
    simp only [nearest, Nat.div_one, Nat.shiftLeft_eq, Nat.one_mul]
    refine Nat.mul_le_mul_right _ ?_
    split
    · exact Nat.le_succ _
    · exact Nat.le_refl _
  calc 2 ^ n.log2 = 2 ^ (n.log2 - shift) * 2 ^ shift := by
        rw [← Nat.pow_add, Nat.sub_add_cancel (by omega)]
    _ ≤ n / 2 ^ shift * 2 ^ shift := Nat.mul_le_mul_right _ hlow
    _ ≤ nearest n 1 := hrounded

theorem lt_of_nearest_lt (h : nearest (m * 1 <<< a) 1 < 1 <<< (b + a)) : m < 2 ^ b := by
  rw [Nat.one_shiftLeft, Nat.one_shiftLeft] at h
  by_cases hzero : m = 0
  · rw [hzero]
    exact Nat.two_pow_pos b
  have hunits : m * 2 ^ a ≠ 0 := Nat.mul_ne_zero hzero (Nat.ne_of_gt (Nat.two_pow_pos a))
  have hbits : (m * 2 ^ a).log2 < b + a :=
    (Nat.pow_lt_pow_iff_right (by decide)).mp
      (Nat.lt_of_le_of_lt (pow_log2_le_nearest hunits) h)
  rw [Nat.log2_lt hunits, Nat.pow_add] at hbits
  exact Nat.lt_of_mul_lt_mul_right hbits

theorem exists_bits_of_ofInt? {n : Int} (h : (ofInt? n).isSome = true) :
    ∃ bits, bits + 1074 = 2098 ∧ n.natAbs < 2 ^ bits := by
  have hlimit : nearest (n.natAbs * one) 1 < limit := by
    refine Nat.lt_of_not_le fun hn => ?_
    rw [ofInt?, ofUnits?, if_neg (Nat.not_lt.mpr hn)] at h
    cases h
  -- the exponents stay names: as numerals they would be evaluated
  obtain ⟨bits, hbits⟩ : ∃ bits, bits + 1074 = 2098 := ⟨1024, rfl⟩
  rw [one, limit, ← hbits] at hlimit
  exact ⟨bits, hbits, lt_of_nearest_lt hlimit⟩

end Binary64

-- ---------------------------------------------------------------------------
-- Digits
-- ---------------------------------------------------------------------------

theorem Text.mul_pow_le_foldl (t : Text) (n : Nat) :
    n * 10 ^ t.length ≤ t.foldl (fun n c => n * 10 + c.digitValue) n := by
  induction t generalizing n with
  | nil => simp
  | cons c t ih =>
    refine Nat.le_trans ?_ (ih (n * 10 + c.digitValue))
    rw [List.length_cons, Nat.pow_succ', ← Nat.mul_assoc]
    exact Nat.mul_le_mul_right _ (Nat.le_add_right _ _)

theorem Text.takeWhile_digits {ds rest : Text} (hd : ∀ c ∈ ds, c.isDigit = true)
    (hr : rest.head?.any CodePoint.isDigit = false) :
    (ds ++ rest).takeWhile CodePoint.isDigit = ds ∧
      (ds ++ rest).dropWhile CodePoint.isDigit = rest := by
  rw [List.takeWhile_append_of_pos hd, List.dropWhile_append_of_pos hd]
  cases rest with
  | nil => simp
  | cons c rest => simp [show c.isDigit = false from hr]

namespace Json

def IsDigits (t : Text) : Prop := t ≠ [] ∧ ∀ c ∈ t, c.isDigit = true

/-- The digits before a point: a zero stands by itself. -/
def IsWhole (t : Text) : Prop := IsDigits t ∧ (t.head? = some 0x30 → t.length = 1)

theorem natural?_eq_some_iff {digits : Text} :
    Numeral.natural? digits = some n ↔
      (IsWhole digits ∧ digits.length ≤ Numeral.maxDigits) ∧ Text.digitsValue digits = n := by
  have hrefused : (digits.isEmpty || !digits.all CodePoint.isDigit ||
      decide (Numeral.maxDigits < digits.length) ||
      (digits.head? == some 0x30 && digits.length != 1)) = false ↔
        IsWhole digits ∧ digits.length ≤ Numeral.maxDigits := by
    simp [IsWhole, IsDigits, and_assoc, and_comm]
  rw [Numeral.natural?, ← hrefused]
  split <;> simp [*]

theorem pow_le_digitsValue (h : IsWhole digits) (hl : digits.length ≠ 1) :
    10 ^ (digits.length - 1) ≤ Text.digitsValue digits := by
  obtain ⟨⟨hne, hdigits⟩, hzero⟩ := h
  cases digits with
  | nil => exact absurd rfl hne
  | cons c digits =>
    have hc := hdigits c List.mem_cons_self
    have hfirst : c ≠ 0x30 := fun he => hl (hzero (congrArg some he))
    have hvalue : 1 ≤ 0 * 10 + c.digitValue := by
      simp only [CodePoint.isDigit, Bool.and_eq_true, decide_eq_true_eq] at hc
      have hval : c.val ≠ 0x30 := fun he => hfirst (Fin.ext he)
      simp only [CodePoint.digitValue]
      omega
    calc 10 ^ digits.length = 1 * 10 ^ digits.length := (Nat.one_mul _).symm
      _ ≤ (0 * 10 + c.digitValue) * 10 ^ digits.length := Nat.mul_le_mul_right _ hvalue
      _ ≤ Text.digitsValue (c :: digits) := Text.mul_pow_le_foldl digits _

theorem length_le_maxDigits {n : Int} (h : IsWhole digits)
    (hn : n.natAbs = Text.digitsValue digits) (hb : (Binary64.ofInt? n).isSome = true) :
    digits.length ≤ Numeral.maxDigits := by
  have hmax : Numeral.maxDigits = 4300 := rfl
  by_cases hl : digits.length = 1
  · omega
  obtain ⟨bits, hbits, hlt⟩ := Binary64.exists_bits_of_ofInt? hb
  have hpow : 10 ^ (digits.length - 1) < 10 ^ bits :=
    calc 10 ^ (digits.length - 1) ≤ n.natAbs := hn ▸ pow_le_digitsValue h hl
      _ < 2 ^ bits := hlt
      _ ≤ 10 ^ bits := Nat.pow_le_pow_left (by decide) bits
  have := (Nat.pow_lt_pow_iff_right (by decide)).mp hpow
  omega

-- ---------------------------------------------------------------------------
-- Fractions and exponents
-- ---------------------------------------------------------------------------

/-- A point with digits after it, or nothing; and the digits. -/
inductive Fraction : Text → Text → Prop
  | none : Fraction [] []
  | point {digits : Text} (h : IsDigits digits) : Fraction (0x2E :: digits) digits

inductive ExponentSign : Text → Bool → Prop
  | none : ExponentSign [] false
  | plus : ExponentSign [0x2B] false
  | minus : ExponentSign [0x2D] true

def signed (negative : Bool) (n : Nat) : Int := if negative then -(n : Int) else n

inductive Exponent : Text → Int → Prop
  | none : Exponent [] 0
  | some {digits sign : Text} (hm : Decimal.isExponentMark mark = true)
      (hs : ExponentSign sign negative) (h : IsDigits digits) :
      Exponent (mark :: (sign ++ digits)) (signed negative (Text.digitsValue digits))

theorem isDigits_iff {t : Text} : (!t.isEmpty && t.all CodePoint.isDigit) = true ↔ IsDigits t := by
  simp [IsDigits]

def exponentParts : Text → Bool × Text
  | 0x2D :: digits => (true, digits)
  | 0x2B :: digits => (false, digits)
  | digits => (false, digits)

theorem exponentSign_exponentParts (t : Text) :
    ∃ sign, ExponentSign sign (exponentParts t).1 ∧ t = sign ++ (exponentParts t).2 := by
  unfold exponentParts
  split
  · exact ⟨_, .minus, rfl⟩
  · exact ⟨_, .plus, rfl⟩
  · exact ⟨_, .none, rfl⟩

theorem exponentParts_append (hs : ExponentSign sign negative) (h : IsDigits digits) :
    exponentParts (sign ++ digits) = (negative, digits) := by
  cases hs with
  | none =>
    rw [List.nil_append]
    unfold exponentParts
    split
    · exact absurd (h.2 _ List.mem_cons_self) (by decide)
    · exact absurd (h.2 _ List.mem_cons_self) (by decide)
    · rfl
  | plus => rfl
  | minus => rfl

theorem exponent?_cons (mark : CodePoint) (rest : Text) :
    Decimal.exponent? (mark :: rest) = some e ↔
      Decimal.isExponentMark mark = true ∧ IsDigits (exponentParts rest).2 ∧
        signed (exponentParts rest).1 (Text.digitsValue (exponentParts rest).2) = e := by
  have hparts : Decimal.exponent? (mark :: rest) =
      if Decimal.isExponentMark mark && !(exponentParts rest).2.isEmpty &&
          (exponentParts rest).2.all CodePoint.isDigit then
        some (signed (exponentParts rest).1 (Text.digitsValue (exponentParts rest).2))
      else none := by
    unfold exponentParts
    split <;> simp [Decimal.exponent?, signed, *]
  rw [hparts, ← isDigits_iff]
  simp [and_assoc]

theorem exponent?_eq_some_iff {t : Text} : Decimal.exponent? t = some e ↔ Exponent t e := by
  constructor
  · intro h
    cases t with
    | nil =>
      cases h
      exact .none
    | cons mark rest =>
      obtain ⟨hm, hd, rfl⟩ := (exponent?_cons mark rest).mp h
      obtain ⟨sign, hs, hrest⟩ := exponentSign_exponentParts rest
      generalize exponentParts rest = parts at *
      subst hrest
      exact .some hm hs hd
  · intro h
    cases h with
    | none => rfl
    | some hm hs h =>
      rw [exponent?_cons, exponentParts_append hs h]
      exact ⟨hm, h, rfl⟩

-- ---------------------------------------------------------------------------
-- Numbers
-- ---------------------------------------------------------------------------

def sign (negative : Bool) : Text := if negative then [0x2D] else []

/-- A number behind its sign: whole, or with a fraction or an exponent. The first is as it is
written, the second the floating-point number next to it; neither is out of range. -/
inductive Unsigned (negative : Bool) : Text → Scalar → Prop
  | whole {digits : Text} (h : IsWhole digits)
      (hb : isBounded (.scalar (.int (signed negative (Text.digitsValue digits)))) = true) :
      Unsigned negative digits (.int (signed negative (Text.digitsValue digits)))
  | decimal {whole point mark fraction : Text} {exponent : Int} (h : IsWhole whole)
      (hf : Fraction point fraction) (he : Exponent mark exponent) (hne : point ++ mark ≠ [])
      (hx : Binary64.ofDecimal? negative (Decimal.ofParts whole fraction exponent) = some x) :
      Unsigned negative (whole ++ (point ++ mark)) (.float x)

inductive Number : Text → Scalar → Prop
  | signed (negative : Bool) (h : Unsigned negative t s) : Number (sign negative ++ t) s

theorem head_of_exponent {t : Text} (h : Exponent t e) :
    t.head?.any CodePoint.isDigit = false ∧ t.head? ≠ some 0x2E := by
  cases h with
  | none => exact ⟨rfl, nofun⟩
  | some hm =>
    simp only [Decimal.isExponentMark, Bool.or_eq_true, beq_iff_eq] at hm
    rcases hm with rfl | rfl <;> exact ⟨rfl, by simp⟩

theorem head_of_parts (hf : Fraction point digits) (he : Exponent mark e) :
    (point ++ mark).head?.any CodePoint.isDigit = false := by
  cases hf with
  | none => exact (head_of_exponent he).1
  | point => rfl

theorem fraction?_append (hf : Fraction point digits) (he : Exponent mark e) :
    fraction? (point ++ mark) = some (digits, mark) := by
  cases hf with
  | none =>
    rw [List.nil_append]
    unfold fraction?
    split
    · exact absurd rfl (head_of_exponent he).2
    · rfl
  | point h =>
    obtain ⟨htake, hdrop⟩ := Text.takeWhile_digits h.2 (head_of_exponent he).1
    simp [fraction?, htake, hdrop, h.1]

theorem of_fraction? (h : fraction? t = some (digits, rest)) :
    ∃ point, Fraction point digits ∧ t = point ++ rest := by
  unfold fraction? at h
  split at h
  · dsimp only at h
    split at h <;> cases h
    rename_i rest hne
    have hdigits : IsDigits (rest.takeWhile CodePoint.isDigit) :=
      isDigits_iff.mp (by simpa using hne)
    exact ⟨_, .point hdigits, by simp⟩
  · cases h
    exact ⟨_, .none, rfl⟩

section

variable {digits rest : Text} (hd : ∀ c ∈ digits, c.isDigit = true)

include hd

theorem unsigned?_digits :
    unsigned? negative digits = some s ↔ IsWhole digits ∧
      digits.length ≤ Numeral.maxDigits ∧
      .int (signed negative (Text.digitsValue digits)) = s := by
  have hend : ([] : Text).head?.any CodePoint.isDigit = false := rfl
  obtain ⟨htake, hdrop⟩ := Text.takeWhile_digits hd hend
  rw [List.append_nil] at htake hdrop
  simp [unsigned?, htake, hdrop, Option.bind_eq_some_iff, natural?_eq_some_iff, and_assoc, signed]

theorem unsigned?_parts (hr : rest.head?.any CodePoint.isDigit = false) (hne : rest ≠ []) :
    unsigned? negative (digits ++ rest) = some s ↔ IsWhole digits ∧
      ∃ fraction mark exponent x, fraction? rest = some (fraction, mark) ∧
        Decimal.exponent? mark = some exponent ∧
        Binary64.ofDecimal? negative (Decimal.ofParts digits fraction exponent) = some x ∧
        .float x = s := by
  obtain ⟨htake, hdrop⟩ := Text.takeWhile_digits hd hr
  have hwhole : (digits.isEmpty || (digits.head? == some 0x30 && digits.length != 1)) = false ↔
      IsWhole digits := by
    simp [IsWhole, IsDigits, iff_true_intro hd]
  obtain ⟨c, rest, rfl⟩ := List.exists_cons_of_ne_nil hne
  simp only [unsigned?, htake, hdrop, ← hwhole]
  split
  · simp [*]
  · simp [*, Option.bind_eq_some_iff]

end

theorem head?_any_dropWhile (p : CodePoint → Bool) (t : Text) :
    (t.dropWhile p).head?.any p = false := by
  have h := List.head?_dropWhile_not p t
  cases hd : (t.dropWhile p).head? with
  | none => rfl
  | some c =>
    rw [hd] at h
    exact h

theorem natAbs_signed (negative : Bool) (n : Nat) : (signed negative n).natAbs = n := by
  cases negative <;> simp [signed]

theorem unsigned?_eq_some_iff {t : Text} :
    unsigned? negative t = some s ∧ isBounded (.scalar s) = true ↔ Unsigned negative t s := by
  constructor
  · rintro ⟨h, hb⟩
    have hd : ∀ c ∈ t.takeWhile CodePoint.isDigit, c.isDigit = true :=
      List.all_eq_true.mp List.all_takeWhile
    have hr := head?_any_dropWhile CodePoint.isDigit t
    rw [← t.takeWhile_append_dropWhile (p := CodePoint.isDigit)] at h ⊢
    by_cases hne : t.dropWhile CodePoint.isDigit = []
    · rw [hne, List.append_nil] at h ⊢
      obtain ⟨hwhole, -, rfl⟩ := (unsigned?_digits hd).mp h
      exact .whole hwhole hb
    · obtain ⟨hwhole, fraction, mark, exponent, x, hf, he, hx, rfl⟩ :=
        (unsigned?_parts hd hr hne).mp h
      obtain ⟨point, hpoint, hrest⟩ := of_fraction? hf
      rw [hrest] at hne ⊢
      exact .decimal hwhole hpoint (exponent?_eq_some_iff.mp he) hne hx
  · intro h
    cases h with
    | whole h hb =>
      have hl := length_le_maxDigits h (natAbs_signed ..) hb
      exact ⟨(unsigned?_digits h.1.2).mpr ⟨h, hl, rfl⟩, hb⟩
    | decimal h hf he hne hx =>
      exact ⟨(unsigned?_parts h.1.2 (head_of_parts hf he) hne).mpr
        ⟨h, _, _, _, _, fraction?_append hf he, exponent?_eq_some_iff.mpr he, hx, rfl⟩, rfl⟩

theorem head_of_unsigned {t : Text} (h : Unsigned negative t s) :
    t.head?.any CodePoint.isDigit = true := by
  have digits {digits : Text} (h : IsWhole digits) (rest : Text) :
      (digits ++ rest).head?.any CodePoint.isDigit = true := by
    obtain ⟨c, digits, rfl⟩ := List.exists_cons_of_ne_nil h.1.1
    exact h.1.2 c List.mem_cons_self
  cases h with
  | whole h => simpa using digits h []
  | decimal h => exact digits h _

theorem number?_sign {t : Text} (h : t.head? ≠ some 0x2D) (negative : Bool) :
    number? (sign negative ++ t) = unsigned? negative t := by
  cases negative with
  | true => rfl
  | false =>
    unfold number?
    split
    · rename_i he
      exact absurd (congrArg List.head? he) h
    · rfl

theorem number?_eq_some_iff {t : Text} :
    number? t = some s ∧ isBounded (.scalar s) = true ↔ Number t s := by
  constructor
  · rintro ⟨h, hb⟩
    unfold number? at h
    split at h
    · exact .signed true (unsigned?_eq_some_iff.mp ⟨h, hb⟩)
    · exact .signed false (unsigned?_eq_some_iff.mp ⟨h, hb⟩)
  · intro h
    cases h with
    | signed negative h =>
      rw [number?_sign _ negative]
      · exact unsigned?_eq_some_iff.mpr h
      · intro he
        have hdigit := head_of_unsigned h
        rw [he] at hdigit
        cases hdigit

end Json
end EnvelopeVault
