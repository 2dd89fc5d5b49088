import EnvelopeVault.Uuid

/-!
# The text of a UUID denotes it

`Uuid.read_text`: what `text` writes, `read` takes back. The digits are read one
by one (`Hex.read_ofNat`); between them stand dashes only, and no brace stands
around them.
-/

namespace EnvelopeVault

-- ---------------------------------------------------------------------------
-- Digits
-- ---------------------------------------------------------------------------

namespace Hex

theorem value?_digit : ∀ n < 16, value? (digit n) = some n := by decide

@[simp] theorem length_ofNat (width n : Nat) : (ofNat width n).length = width := by
  induction width generalizing n with
  | zero => rfl
  | succ width ih => rw [ofNat, List.length_append, ih, List.length_singleton]

theorem exists_digit {width n : Nat} (h : c ∈ ofNat width n) : ∃ d < 16, c = digit d := by
  induction width generalizing n with
  | zero => cases h
  | succ width ih =>
    obtain h | h := List.mem_append.mp h
    · exact ih h
    · exact ⟨n % 16, Nat.mod_lt _ (by decide), List.mem_singleton.mp h⟩

theorem read_ofNat {width n : Nat} (h : n < Nat.pow 16 width) :
    read (ofNat width n) = some n := by
  induction width generalizing n with
  | zero =>
    obtain rfl : n = 0 := Nat.lt_one_iff.mp h
    rfl
  | succ width ih =>
    have hhigh : n / 16 < Nat.pow 16 width := Nat.div_lt_of_lt_mul (Nat.mul_comm .. ▸ h)
    have hlow := value?_digit (n % 16) (Nat.mod_lt _ (by decide))
    have hhigh := ih hhigh
    rw [read] at hhigh
    rw [read, ofNat, List.foldlM_append, hhigh]
    simp [hlow, Nat.div_add_mod']

end Hex

-- ---------------------------------------------------------------------------
-- Groups of digits
-- ---------------------------------------------------------------------------

namespace Uuid

theorem text_eq (u : Uuid) :
    let digits := Hex.ofNat 32 u.number
    u.text = digits.take 8 ++ 0x2D ::
      ((digits.drop 8).take 4 ++ 0x2D ::
        ((digits.drop 12).take 4 ++ 0x2D ::
          ((digits.drop 16).take 4 ++ 0x2D :: digits.drop 20))) := by
  have hdash : Text.ofString "-" = [0x2D] := by decide
  simp [text, Text.intercalate, List.intersperse, hdash]

theorem append_groups (digits : Text) :
    digits.take 8 ++ ((digits.drop 8).take 4 ++ ((digits.drop 12).take 4 ++
      ((digits.drop 16).take 4 ++ digits.drop 20))) = digits := by
  have group (start : Nat) :
      (digits.drop start).take 4 ++ digits.drop (start + 4) = digits.drop start := by
    rw [← List.drop_drop, List.take_append_drop]
  rw [group 16, group 12, group 8, List.take_append_drop]

theorem filter_text (u : Uuid) : u.text.filter (· != 0x2D) = Hex.ofNat 32 u.number := by
  have hdigit : ∀ d < 16, (Hex.digit d != 0x2D) = true := by decide
  have hkept : ∀ c ∈ Hex.ofNat 32 u.number, (c != 0x2D) = true := by
    intro c hc
    obtain ⟨d, hd, rfl⟩ := Hex.exists_digit hc
    exact hdigit d hd
  have hskip (rest : Text) : ((0x2D :: rest : Text)).filter (· != 0x2D) = rest.filter (· != 0x2D) :=
    rfl
  rw [text_eq]
  simp only [List.filter_append, hskip]
  rw [← List.filter_append, ← List.filter_append, ← List.filter_append, ← List.filter_append,
    append_groups, List.filter_eq_self.mpr hkept]

theorem isBrace_of_mem_text {u : Uuid} (h : c ∈ u.text) : isBrace c = false := by
  have hdigit : ∀ d < 16, isBrace (Hex.digit d) = false := by decide
  by_cases hdash : c = 0x2D
  · subst hdash
    rfl
  · have hkept : c ∈ u.text.filter (· != 0x2D) := List.mem_filter.mpr ⟨h, by simpa using hdash⟩
    rw [filter_text] at hkept
    obtain ⟨d, hd, rfl⟩ := Hex.exists_digit hkept
    exact hdigit d hd

theorem read_text (u : Uuid) : read u.text = some u := by
  have htrimmed {t : Text} (h : ∀ c ∈ t, isBrace c = false) : t.dropWhile isBrace = t := by
    cases t with
    | nil => rfl
    | cons c rest => simp [h c List.mem_cons_self]
  have hinner : ((u.text.dropWhile isBrace).reverse.dropWhile isBrace).reverse = u.text := by
    rw [htrimmed fun c hc => isBrace_of_mem_text hc,
      htrimmed fun c hc => isBrace_of_mem_text (List.mem_reverse.mp hc), List.reverse_reverse]
  have hnumber : u.number < Nat.pow 16 32 := u.lt
  simp [read, hinner, filter_text, Hex.read_ofNat hnumber, u.lt]

end Uuid
end EnvelopeVault
