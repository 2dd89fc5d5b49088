import EnvelopeVault.Proofs.Base64
import EnvelopeVault.Proofs.Layout
import EnvelopeVault.Proofs.Program
import EnvelopeVault.Settings
import Mathlib.Algebra.Group.Nat.Defs
import Mathlib.Data.List.Nodup

/-!
# Spellings of the root key

`root_key_spellings`: the root key is loaded exactly if the variable holds 43
base64 digits and one pad. These are 258 bits, of which a key takes the first 256
(`Spells`); the two at the end are ignored, so every key has four spellings. All
other texts are refused.
-/

namespace EnvelopeVault

-- ---------------------------------------------------------------------------
-- Bits
-- ---------------------------------------------------------------------------

/-- The lowest bits of a number, the highest of them first. -/
def bits : (width n : Nat) → List Bool
  | 0, _ => []
  | width + 1, n => bits width (n / 2) ++ [n % 2 == 1]

@[simp] theorem length_bits (width n : Nat) : (bits width n).length = width := by
  induction width generalizing n with
  | zero => rfl
  | succ width ih => simp [bits, ih]

theorem bits_add (width : Nat) (h : n < 2 ^ width) (m more : Nat) :
    bits (more + width) (m * 2 ^ width + n) = bits more m ++ bits width n := by
  induction width generalizing n with
  | zero => simp [bits, show n = 0 by omega]
  | succ width ih =>
    rw [Nat.pow_succ] at h ⊢
    have hhalf : (m * (2 ^ width * 2) + n) / 2 = m * 2 ^ width + n / 2 := by
      rw [← Nat.mul_assoc]
      omega
    have hlow : (m * (2 ^ width * 2) + n) % 2 = n % 2 := by
      rw [← Nat.mul_assoc]
      omega
    rw [← Nat.add_assoc, bits, bits, hhalf, hlow, ih (by omega), List.append_assoc]

theorem bits_injective {width : Nat} (hm : m < 2 ^ width) (hn : n < 2 ^ width)
    (h : bits width m = bits width n) : m = n := by
  induction width generalizing m n with
  | zero => omega
  | succ width ih =>
    rw [Nat.pow_succ] at hm hn
    obtain ⟨hhigh, hlow⟩ := List.append_inj h (by simp)
    have hhalf : m / 2 = n / 2 := ih (by omega) (by omega) hhigh
    have hparity : (m % 2 == 1) = (n % 2 == 1) := by simpa using hlow
    rw [Bool.eq_iff_iff, beq_iff_eq, beq_iff_eq] at hparity
    omega

def Bytes.bits (b : Bytes) : List Bool := b.flatMap fun octet => EnvelopeVault.bits 8 octet.toNat

@[simp] theorem Bytes.bits_cons (octet : UInt8) (b : Bytes) :
    bits (octet :: b) = EnvelopeVault.bits 8 octet.toNat ++ bits b := rfl

@[simp] theorem Bytes.length_bits (b : Bytes) : b.bits.length = 8 * b.length := by
  induction b with
  | nil => rfl
  | cons octet b ih =>
    simp only [bits_cons, List.length_append, EnvelopeVault.length_bits, ih, List.length_cons]
    omega

theorem Bytes.bits_inj {a b : Bytes} (h : a.bits = b.bits) : a = b := by
  induction a generalizing b with
  | nil =>
    have hlength := congrArg List.length h
    cases b with
    | nil => rfl
    | cons y b =>
      simp only [length_bits, List.length_nil, List.length_cons] at hlength
      omega
  | cons x a ih =>
    cases b with
    | nil => simpa using congrArg List.length h
    | cons y b =>
      obtain ⟨hhead, htail⟩ := List.append_inj h (by simp)
      have hxy : x.toNat = y.toNat := bits_injective x.toNat_lt y.toNat_lt hhead
      rw [UInt8.toNat_inj.mp hxy, ih htail]

-- ---------------------------------------------------------------------------
-- Digits
-- ---------------------------------------------------------------------------

namespace Base64

/-- The alphabet, in the order of the digits. -/
example : (List.range 64).map digit =
    ("ABCDEFGHIJKLMNOPQRSTUVWXYZabcdefghijklmnopqrstuvwxyz0123456789+/" : Text) := by
  decide

def digitBits (ds : List Nat) : List Bool := ds.flatMap (bits 6)

-- ---------------------------------------------------------------------------
-- Bits of digits and of their octets
-- ---------------------------------------------------------------------------

section Groups

variable {a b c d : Nat}

-- Each octet of a group of three takes what is left of one digit and the beginning of the next.

theorem bits_first (ha : a < 64) (hb : b < 64) :
    bits 8 (UInt8.ofNat (a * 4 + b / 16)).toNat = bits 6 a ++ bits 2 (b / 16) := by
  rw [UInt8.toNat_ofNat', Nat.mod_eq_of_lt (by omega)]
  exact bits_add 2 (by omega) a 6

theorem bits_second (hc : c < 64) :
    bits 8 (UInt8.ofNat (b % 16 * 16 + c / 4)).toNat = bits 4 (b % 16) ++ bits 4 (c / 4) := by
  rw [UInt8.toNat_ofNat', Nat.mod_eq_of_lt (by omega)]
  exact bits_add 4 (by omega) (b % 16) 4

theorem bits_third (hd : d < 64) :
    bits 8 (UInt8.ofNat (c % 4 * 64 + d)).toNat = bits 2 (c % 4) ++ bits 6 d := by
  rw [UInt8.toNat_ofNat', Nat.mod_eq_of_lt (by omega)]
  exact bits_add 6 (by omega) (c % 4) 2

theorem bits_split_second (b : Nat) : bits 6 b = bits 2 (b / 16) ++ bits 4 (b % 16) := by
  rw [← bits_add 4 (by omega), show b / 16 * 2 ^ 4 + b % 16 = b by omega]

theorem bits_split_third (c : Nat) : bits 6 c = bits 4 (c / 4) ++ bits 2 (c % 4) := by
  rw [← bits_add 2 (by omega), show c / 4 * 2 ^ 2 + c % 4 = c by omega]

end Groups

/-- The octets of digits have the bits of the digits, as far as these fill octets. -/
theorem bits_octets {ds : List Nat} (hds : ∀ d ∈ ds, d < 64) :
    (octets ds).bits <+: digitBits ds := by
  fun_induction octets ds with
  | case1 a b c d rest ih =>
    simp only [List.forall_mem_cons] at hds
    obtain ⟨ha, hb, hc, hd, hrest⟩ := hds
    simp only [Bytes.bits_cons, bits_first ha hb, bits_second hc, bits_third hd, digitBits,
      List.flatMap_cons, bits_split_second b, bits_split_third c, List.append_assoc,
      List.prefix_append_right_inj]
    exact ih hrest
  | case2 a b c =>
    simp only [List.forall_mem_cons] at hds
    obtain ⟨ha, hb, hc, -⟩ := hds
    simp only [Bytes.bits_cons, bits_first ha hb, bits_second hc, digitBits, List.flatMap_cons,
      bits_split_second b, bits_split_third c, List.append_assoc, List.prefix_append_right_inj]
    exact List.nil_prefix
  | case3 a b =>
    simp only [List.forall_mem_cons] at hds
    obtain ⟨ha, hb, -⟩ := hds
    simp only [Bytes.bits_cons, bits_first ha hb, digitBits, List.flatMap_cons,
      bits_split_second b, List.append_assoc, List.prefix_append_right_inj]
    exact List.nil_prefix
  | case4 ds => exact List.nil_prefix

end Base64

-- ---------------------------------------------------------------------------
-- Texts of root keys
-- ---------------------------------------------------------------------------

namespace Settings

open Base64

/-- The text is 43 digits and one pad, and the key has the first 256 of their 258 bits. -/
def Spells (t : Text) (key : Bytes) : Prop :=
  ∃ ds : List Nat, ds.length = 43 ∧ (∀ d ∈ ds, d < 64) ∧ t = ds.map digit ++ [pad] ∧
    key.bits = (digitBits ds).take 256

/-- Why a text that is there gives no root key. -/
inductive Misspelled (t : Text) : Failure → Prop
  | notAscii (h : ∃ c ∈ t, 0x80 ≤ c.val) : Misspelled t .notAscii
  | notBase64 (h : ∀ c ∈ t, c.val < 0x80) (hd : decodeStrict t = none) :
      Misspelled t .rootKeyNotBase64
  | length (b : Bytes) (hd : decodeStrict t = some b) (hl : b.length ≠ keySize) :
      Misspelled t (.rootKeyLength b.length)

theorem spells_iff : Spells t key ↔ ∃ ds : List Nat, ds.length = 43 ∧ (∀ d ∈ ds, d < 64) ∧
    t = ds.map digit ++ [pad] ∧ octets ds = key := by
  refine exists_congr fun ds => and_congr_right fun hlength => and_congr_right fun hds =>
    and_congr_right fun _ => ?_
  have hbits : (octets ds).bits = (digitBits ds).take 256 := by
    have hprefix := List.prefix_iff_eq_take.mp (bits_octets hds)
    rwa [Bytes.length_bits, length_octets, hlength] at hprefix
  rw [← hbits]
  exact ⟨fun h => (Bytes.bits_inj h).symm, fun h => h ▸ rfl⟩

/-- The length of a key leaves one number of digits and of pads to choose. -/
theorem spells_iff_decodeStrict :
    Spells t key ↔ decodeStrict t = some key ∧ key.length = keySize := by
  rw [spells_iff, decodeStrict_eq_some_iff, keySize]
  constructor
  · rintro ⟨ds, hlength, hds, rfl, rfl⟩
    refine ⟨⟨ds, 1, hds, rfl, ?_, rfl⟩, ?_⟩
    · rw [hlength]
      rfl
    · rw [length_octets, hlength]
  · rintro ⟨⟨ds, pads, hds, rfl, hadmits, rfl⟩, hsize⟩
    rw [length_octets] at hsize
    have hlength : ds.length = 43 := by omega
    obtain rfl : pads = 1 := by simpa [hlength, admitsPadding] using hadmits
    exact ⟨ds, hlength, hds, rfl, rfl⟩

theorem Spells.unique (h : Spells t key) (h' : Spells t other) : key = other :=
  Option.some.inj ((spells_iff_decodeStrict.mp h).1.symm.trans (spells_iff_decodeStrict.mp h').1)

theorem Spells.ascii (h : Spells t key) : ∀ c ∈ t, c.val < 0x80 := by
  have hdigit : ∀ d < 64, (digit d).val < 0x80 := by decide
  obtain ⟨ds, -, hds, rfl, -⟩ := h
  simp only [List.mem_append, List.mem_map, List.mem_singleton]
  rintro _ (⟨d, hd, rfl⟩ | rfl)
  · exact hdigit d (hds d hd)
  · decide

theorem rootKeyOfText_cases (t : Text) :
    (∃ key, rootKeyOfText t = .ok key ∧ Spells t key) ∨
      ∃ e, rootKeyOfText t = .error e ∧ Misspelled t e := by
  by_cases hascii : t.any (fun c => 0x80 ≤ c.val) = true
  · exact .inr ⟨_, if_pos hascii, .notAscii (by simpa using hascii)⟩
  have hlow : ∀ c ∈ t, c.val < 0x80 := by simpa using hascii
  have heq : rootKeyOfText t = _ := if_neg hascii
  cases hd : decodeStrict t with
  | none =>
    rw [hd] at heq
    exact .inr ⟨_, heq, .notBase64 hlow hd⟩
  | some b =>
    rw [hd] at heq
    by_cases hl : b.length = keySize
    · exact .inl ⟨b, heq.trans (if_pos hl), spells_iff_decodeStrict.mpr ⟨hd, hl⟩⟩
    · exact .inr ⟨_, heq.trans (if_neg hl), .length b hd hl⟩

theorem Misspelled.not_spells (h : Misspelled t e) : ¬ Spells t key := by
  intro hs
  obtain ⟨hread, hsize⟩ := spells_iff_decodeStrict.mp hs
  cases h with
  | notAscii h =>
    obtain ⟨c, hc, hhigh⟩ := h
    exact absurd (hs.ascii c hc) (by omega)
  | notBase64 _ hd => simp [hread] at hd
  | length b hd hl =>
    obtain rfl : key = b := Option.some.inj (hread.symm.trans hd)
    exact hl hsize

-- ---------------------------------------------------------------------------
-- The spellings of one key
-- ---------------------------------------------------------------------------

/-- The texts that give a key: the two bits that it does not need are set in each way. -/
def spellings (key : Bytes) : List Text :=
  (List.range 4).map fun low => (raised low key).map digit ++ [pad]

theorem spares_key (hkey : key.length = keySize) : spares key = 4 := by
  have hcases := padding_cases key
  rw [hkey, keySize] at hcases
  omega

theorem mem_spellings (hkey : key.length = keySize) : t ∈ spellings key ↔ Spells t key := by
  simp only [spellings, List.mem_map, List.mem_range, spells_iff, ← spares_key hkey]
  constructor
  · rintro ⟨low, hlow, rfl⟩
    refine ⟨raised low key, ?_, raised_lt hlow, rfl, octets_raised hlow⟩
    rw [length_raised, hkey, keySize]
  · rintro ⟨ds, hlength, hds, rfl, rfl⟩
    obtain ⟨low, hlow, heq⟩ := exists_raised ds hds (by omega)
    exact ⟨low, hlow, by rw [← heq]⟩

theorem nodup_spellings (hkey : key.length = keySize) : (spellings key).Nodup := by
  refine List.Nodup.map_on (fun low hlow other hother h => ?_) List.nodup_range
  rw [List.mem_range, ← spares_key hkey] at hlow hother
  exact map_digit_raised_injective (by rw [hkey, keySize]; decide) hlow hother
    (List.append_cancel_right h)

theorem spells_encode (hkey : key.length = keySize) : Spells (encode key) key :=
  spells_iff_decodeStrict.mpr ⟨decodeStrict_encode key, hkey⟩

-- ---------------------------------------------------------------------------
-- Loading
-- ---------------------------------------------------------------------------

/-- How loading ends, by the value of the variable, and what is logged. -/
inductive Loads : Option Text → Except Failure Bytes → List LogLine → Prop
  | unset : Loads none (.error .rootKeyUnset) []
  | empty : Loads (some []) (.error .rootKeyUnset) []
  | spelled (h : Spells t key) : Loads (some t) (.ok key) [.rootKeyLoaded]
  | misspelled (ht : t ≠ []) (h : Misspelled t e) : Loads (some t) (.error e) []

theorem Spells.ne_nil (h : Spells t key) : t ≠ [] := by
  obtain ⟨ds, -, -, rfl, -⟩ := h
  simp

variable {σ : Type} (b : Backend σ) (s : σ) (env : Environment)

theorem run_loadRootKey : ∃ r log, Loads (env.get? rootKeyVariable) r log ∧
    (loadRootKey env).run b s = ⟨r, log, s⟩ := by
  unfold loadRootKey
  cases env.get? rootKeyVariable with
  | none => exact ⟨_, _, .unset, rfl⟩
  | some t =>
    cases t with
    | nil => exact ⟨_, _, .empty, rfl⟩
    | cons c t =>
      rcases rootKeyOfText_cases (c :: t) with ⟨key, heq, hs⟩ | ⟨e, heq, hm⟩
      · refine ⟨_, _, .spelled hs, ?_⟩
        simp only [heq]
        rfl
      · refine ⟨_, _, .misspelled (List.cons_ne_nil c t) hm, ?_⟩
        simp only [heq]
        rfl

theorem Loads.ok_iff (h : Loads value r log) :
    r = .ok key ↔ ∃ t, value = some t ∧ Spells t key := by
  cases h with
  | unset => simp
  | empty =>
    simp only [reduceCtorEq, Option.some.injEq, exists_eq_left', false_iff]
    exact fun hs => hs.ne_nil rfl
  | spelled hs =>
    simp only [Except.ok.injEq, Option.some.injEq, exists_eq_left']
    exact ⟨fun h => h ▸ hs, hs.unique⟩
  | misspelled ht hm =>
    simp only [reduceCtorEq, Option.some.injEq, exists_eq_left', false_iff]
    exact hm.not_spells

-- ---------------------------------------------------------------------------
-- Settings
-- ---------------------------------------------------------------------------

theorem member_eq_ok_iff {t : Text} {encoding : KeyEncoding} :
    Checked.member KeyEncoding.table (.text t) = .ok encoding ↔ t = encoding.label := by
  constructor
  · intro h
    simp only [Checked.member, Checked.memberText] at h
    split at h
    · cases h
    · split at h
      · rename_i hfound
        cases h
        have hmem := Assoc.mem_of_get? hfound
        simp only [KeyEncoding.table, List.mem_cons, Prod.mk.injEq, List.not_mem_nil,
          or_false] at hmem
        obtain ⟨rfl, rfl⟩ | ⟨rfl, rfl⟩ := hmem <;> rfl
      · cases h
  · rintro rfl
    cases encoding <;> rfl

def Names (given : Option Text) (encoding : KeyEncoding) : Prop :=
  given = none ∧ encoding = .base64 ∨ given = some encoding.label

theorem read_eq_ok_iff (hkey : key.length = keySize) (label : Text) (config : VaultConfig) :
    VaultConfig.read (.map [("root_key", .bytes key), ("key_encoding", .text label)]) =
        .ok config ↔
      config.rootKey = key ∧ config.algorithm = aes256Gcm ∧ label = config.keyEncoding.label := by
  have hroot : VaultConfig.rootKeyOf (.bytes key) = .ok key := if_pos hkey
  change VaultConfig.mk <$> (VaultConfig.rootKeyOf (.bytes key)).under "root_key" <*>
    .ok aes256Gcm <*> (Checked.member KeyEncoding.table (.text label)).under "key_encoding" =
      .ok config ↔ _
  simp only [Checked.seq_eq_ok_iff, Checked.map_eq_ok_iff, Checked.under_eq_ok_iff, hroot,
    member_eq_ok_iff]
  constructor
  · rintro ⟨_, encoding, ⟨_, _, ⟨_, ⟨⟩, rfl⟩, ⟨⟩, rfl⟩, hlabel, rfl⟩
    exact ⟨rfl, rfl, hlabel⟩
  · obtain ⟨root, algorithm, encoding⟩ := config
    rintro ⟨rfl, rfl, hlabel⟩
    exact ⟨_, encoding, ⟨_, _, ⟨_, rfl, rfl⟩, rfl, rfl⟩, hlabel, rfl⟩

theorem getD_label_iff {given : Option Text} {encoding : KeyEncoding} :
    given.getD KeyEncoding.base64.label = encoding.label ↔ Names given encoding := by
  cases given with
  | none =>
    cases encoding
    · exact iff_of_false (by decide) (by simp [Names])
    · simp [Names]
  | some label => simp [Names]

theorem configOf_eq_ok_iff {config : VaultConfig} :
    ((configOf env).run b s).result = .ok config ↔
      ((loadRootKey env).run b s).result = .ok config.rootKey ∧ config.algorithm = aes256Gcm ∧
        Names (env.get? keyEncodingVariable) config.keyEncoding := by
  obtain ⟨r, log, hloads, hrun⟩ := run_loadRootKey b s env
  rw [configOf, Program.bind_eq, Program.run_bind, hrun]
  cases r with
  | error e => simp [Outcome.andThen]
  | ok key =>
    obtain ⟨t, -, hs⟩ := hloads.ok_iff.mp rfl
    let label := (env.get? keyEncodingVariable).getD KeyEncoding.base64.label
    have hread := read_eq_ok_iff (spells_iff_decodeStrict.mp hs).2 label config
    rw [Except.ok.injEq, eq_comm (a := key), ← getD_label_iff]
    exact Checked.ofChecked_eq_ok_iff.trans hread

/-- The root key is loaded exactly if the variable holds 43 digits and one pad, and has the first
256 of their 258 bits: so the base64 text of every key loads as that key, and every key has four
texts. A variable that is not set, or empty, is one failure; every other text is refused as not
ASCII, as no base64, or for its length. Settings are read exactly if the root key is, and the
encoding is left out or one of the two labels; their root key is the one that was loaded. -/
theorem root_key_spellings (env : Environment) (b : Backend σ) (s : σ) :
    let value := env.get? rootKeyVariable
    let o := (loadRootKey env).run b s
    (∀ key, o.result = .ok key ↔ ∃ t, value = some t ∧ Spells t key) ∧
    (∀ key : Bytes, key.length = keySize → Spells (encode key) key ∧
      ∃ texts : List Text, texts.Nodup ∧ texts.length = 4 ∧ ∀ t, Spells t key ↔ t ∈ texts) ∧
    (value = none ∨ value = some [] → o.result = .error .rootKeyUnset) ∧
    (∀ t, value = some t → t ≠ [] → (∀ key, ¬ Spells t key) →
      ∃ e, o.result = .error e ∧ Misspelled t e) ∧
    Loads value o.result o.log ∧
    ∀ config : VaultConfig, ((configOf env).run b s).result = .ok config ↔
      o.result = .ok config.rootKey ∧ config.algorithm = aes256Gcm ∧
        Names (env.get? keyEncodingVariable) config.keyEncoding := by
  obtain ⟨r, log, hloads, hrun⟩ := run_loadRootKey b s env
  refine ⟨fun key => ?_, fun key hkey => ?_, fun h => ?_, fun t ht hne hno => ?_, ?_, ?_⟩
  · rw [hrun]
    exact hloads.ok_iff
  · exact ⟨spells_encode hkey, spellings key, nodup_spellings hkey, rfl,
      fun t => (mem_spellings hkey).symm⟩
  · rw [hrun]
    generalize env.get? rootKeyVariable = value at hloads h
    cases hloads with
    | unset | empty => rfl
    | spelled hs => simp [hs.ne_nil] at h
    | misspelled ht => simp [ht] at h
  · rw [hrun]
    rw [ht] at hloads
    cases hloads with
    | empty => exact absurd rfl hne
    | spelled hs => exact absurd hs (hno _)
    | misspelled _ hm => exact ⟨_, rfl, hm⟩
  · rw [hrun]
    exact hloads
  · exact fun config => configOf_eq_ok_iff b s env

end Settings
end EnvelopeVault
