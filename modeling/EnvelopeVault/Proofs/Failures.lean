import EnvelopeVault.OrgKey
import EnvelopeVault.Proofs.FieldCipher
import EnvelopeVault.Proofs.Layout
import EnvelopeVault.Store.Memory

/-!
# How the parts of an operation fail

One list of failures for each part: what comes of a key that is not resolved
(`OrgKey.Unresolved`), of a row that gives no record (`Layout.Unreadable`), and of
an access to the store in memory, which has no failures of the vault to give. What
is said of failures elsewhere, of their class or of what they name, is read off
these lists.
-/

namespace EnvelopeVault

def Failure.kind? : Failure → Option VaultKind
  | .vault f => some f.kind
  | _ => none

/-- What a call tells by failing: a class of the vault's failures, or that the number which has to
be named has no numeral. -/
inductive Reason where
  | vault (k : VaultKind)
  | unwritable
deriving DecidableEq, Repr

namespace Failure

def reason? : Failure → Option Reason
  | .vault f => some (.vault f.kind)
  | .unwritableNumber => some .unwritable
  | _ => none

def IsConflict (e : Failure) : Prop :=
  e.reason? = some (.vault .versionConflict) ∨ e.reason? = some .unwritable

/-- The failures that tell nothing: they come from elsewhere. -/
abbrev IsForeign (e : Failure) : Prop := e.reason? = none

theorem reason?_eq_vault_iff {e : Failure} {k : VaultKind} :
    e.reason? = some (.vault k) ↔ e.kind? = some k := by
  cases e <;> simp [reason?, kind?]

theorem IsForeign.kind? {e : Failure} (h : e.IsForeign) : e.kind? = none := by
  cases he : Failure.kind? e with
  | none => rfl
  | some k => cases h.symm.trans (reason?_eq_vault_iff.mpr he)

theorem IsConflict.kind_eq {e : Failure} (h : e.IsConflict) (hk : e.kind? = some k) :
    k = .versionConflict := by
  have hreason := reason?_eq_vault_iff.mpr hk
  obtain h | h := h
  · cases hreason.symm.trans h
    rfl
  · cases hreason.symm.trans h

end Failure

-- ---------------------------------------------------------------------------
-- Ends
-- ---------------------------------------------------------------------------

/-- A result of which `R` holds, or a failure of which `E` holds. -/
def Ends (E : Failure → Prop) (R : α → Prop) : Except Failure α → Prop
  | .ok a => R a
  | .error e => E e

abbrev Fails (E : Failure → Prop) (x : Except Failure α) : Prop := Ends E (fun _ => True) x

variable {E E' : Failure → Prop}

namespace Fails

theorem bind {x : Except Failure α} {f : α → Except Failure β} (hx : Fails E x)
    (hf : ∀ a, x = .ok a → Fails E (f a)) : Fails E (x >>= f) := by
  cases x with
  | ok a => exact hf a rfl
  | error e => exact hx

theorem map {x : Except Failure α} (hx : Fails E x) (f : α → β) : Fails E (x.map f) := by
  cases x with
  | ok a => trivial
  | error e => exact hx

theorem mono {x : Except Failure α} (hx : Fails E x) (h : ∀ e, E e → E' e) : Fails E' x := by
  cases x with
  | ok a => trivial
  | error e => exact h e hx

theorem error {x : Except Failure α} (hx : Fails E x) (h : x = .error e) : E e := by
  rw [h] at hx
  exact hx

theorem ofChecked (model : Text) (c : Checked α) :
    Fails Failure.IsForeign (Failure.ofChecked model c) := by
  cases c with
  | ok a => trivial
  | faulty faults => exact rfl

end Fails

namespace Program.Ensures

variable {α β σ : Type} {P : Access → Prop} {R : α → Prop} {S : β → Prop} {p : Program α}

theorem ends_mono (hp : p.Ensures P (Ends E R)) (h : ∀ e, E e → E' e) :
    p.Ensures P (Ends E' R) := by
  refine hp.mono (fun _ ha => ha) ?_
  rintro (e | a) he
  · exact h e he
  · exact he

theorem bind_ends {f : α → Program β} (hp : p.Ensures P (Ends E R)) (h : ∀ e, E e → E' e)
    (hf : ∀ a, R a → (f a).Ensures P (Ends E' S)) : (p.bind f).Ensures P (Ends E' S) :=
  hp.bind (fun e he => h e he) hf

theorem checked_ends {r : Except Failure α} {f : α → Program β} (hr : Ends E R r)
    (h : ∀ e, E e → E' e) (hf : ∀ a, R a → (f a).Ensures P (Ends E' S)) :
    (Program.ofExcept r >>= f).Ensures P (Ends E' S) :=
  bind_ends (p := .ofExcept r) hr h hf

/-- A run ends as its program does, or as its store refuses an access. -/
theorem run_ends (hp : p.Ensures P (Ends E R)) {b : Backend σ}
    (hb : ∀ a s, P a → Fails E (b.answer a s).1) (s : σ) : Ends E R (p.run b s).result := by
  induction p generalizing s with
  | done result => exact hp
  | note line next ih => exact ih hp s
  | draw next ih => exact ih _ (hp _) _
  | access a next ih =>
    have ha := hb a s hp.1
    rw [run]
    generalize b.answer a s = answer at ha ⊢
    obtain ⟨_ | answer, s'⟩ := answer
    · exact ha
    · exact ih answer (hp.2 answer) s'

end Program.Ensures

-- ---------------------------------------------------------------------------
-- Keys and sealing
-- ---------------------------------------------------------------------------

namespace FieldCipher

theorem decrypt_fails (key : Bytes) (parts : Triple Value) :
    Fails (fun e => Unauthentic e ∨ e.IsForeign) (decrypt key parts) := by
  unfold decrypt
  split
  · exact .inr rfl
  · rename_i key _
    cases h : decryptWith key parts with
    | ok t => trivial
    | error e => exact .inl (decryptWith_error h)

theorem decodeKey_fails (t : Text) (encoding : KeyEncoding) :
    Fails (fun e => Unauthentic e ∨ e.IsForeign) (decodeKey t encoding) := by
  unfold decodeKey
  repeat' split
  · trivial
  · exact .inl ⟨_, rfl, rfl⟩
  · trivial
  · exact .inr rfl

end FieldCipher

namespace OrgKey

open FieldCipher

variable {P : Access → Prop}

inductive Unresolved (org : Value) : Failure → Prop
  | absent :
    Unresolved org (.vault { cause := .keyNotFound, operation := operation, orgId := org })
  | unsupported (label : Text) :
    Unresolved org (.vault
      { cause := .unsupportedWrapping label, operation := operation, orgId := org })
  | unauthentic (cause : Cause) (h : cause.kind = .authenticationFailure) :
    Unresolved org (.vault { cause, operation := operation, orgId := org })
  | foreign (h : e.IsForeign) : Unresolved org e

theorem unwrap_fails (root : Bytes) (record : OrgKeyRecord) :
    Fails (fun e => Unauthentic e ∨ e.IsForeign) (unwrap root record) :=
  (decrypt_fails root _).bind fun t _ => decodeKey_fails t _

theorem blame_ends (org : Value) (h : Unauthentic e ∨ e.IsForeign) :
    (blame org e).Ensures P (Ends (Unresolved org) fun key => key.length = keySize) := by
  obtain ⟨cause, rfl, hk⟩ | hforeign := h
  · have hkind : ({ cause } : VaultFailure).kind = .authenticationFailure := hk
    simp only [blame, Failure.ofCause, hkind, if_true]
    exact Unresolved.unauthentic cause hk
  · cases e with
    | vault f => cases hforeign
    | _ => exact Unresolved.foreign hforeign

theorem ofRecord_ends (root : Bytes) (org : Value) (record : OrgKeyRecord) :
    (ofRecord root org record).Ensures P
      (Ends (Unresolved org) fun key => key.length = keySize) := by
  unfold ofRecord
  split
  · exact Unresolved.unsupported _
  split
  · rename_i e he
    exact blame_ends org ((unwrap_fails root record).error he)
  · split
    · assumption
    · exact Unresolved.unauthentic _ rfl

theorem resolve_ends (root : Bytes) {org : Value} (hP : P (.findKey org)) :
    (resolve root org).Ensures P (Ends (Unresolved org) fun key => key.length = keySize) := by
  refine ⟨hP, ?_⟩
  rintro (_ | record)
  · exact Unresolved.absent
  · exact ofRecord_ends root org record

end OrgKey

namespace Sealing

variable {P : Access → Prop}

theorem encrypt_ends (key : Bytes) (t : Text) :
    (encrypt key t).Ensures P (Ends Failure.IsForeign fun _ => True) := by
  unfold encrypt
  split
  · exact rfl
  · intro nonce
    unfold FieldCipher.encryptWith
    split
    · exact rfl
    · trivial

theorem encryptAll_ends (key : Bytes) (texts : Assoc Text) :
    (encryptAll key texts).Ensures P
      (Ends Failure.IsForeign fun fields => Assoc.names fields = texts.names) := by
  induction texts with
  | nil => rfl
  | cons pair rest ih =>
    obtain ⟨name, t⟩ := pair
    refine (encrypt_ends key t).bind_ends (fun _ he => he) fun field _ =>
      ih.bind_ends (fun _ he => he) fun fields h => ?_
    simp [Ends, Program.pure_eq, Program.Ensures, h]

end Sealing

-- ---------------------------------------------------------------------------
-- Rows
-- ---------------------------------------------------------------------------

def Attribute.IsFirst (P : Attribute → Prop) (a : Attribute) : Prop :=
  P a ∧ ∃ before after, all = before ++ a :: after ∧ ∀ b ∈ before, ¬ P b

namespace Layout

variable {cells : Row} {a : Attribute} {id : Value}

/-- Of the columns of an attribute some are null and some are not. -/
def Incomplete (cells : Row) (a : Attribute) : Prop :=
  ∃ parts : Triple Value, (∀ part, cells.get? (column a.name part) = some (parts.get part)) ∧
    (∃ part, (parts.get part).isNull = true) ∧ ∃ part, (parts.get part).isNull = false

/-- The failures of reading a row. One of the vault's own names the secret and the first
attribute that is incomplete. -/
inductive Unreadable : Value → Failure → Prop
  | incomplete (cells : Row) (id : Value) (a : Attribute) (hid : cells.get? "id" = some id)
    (h : Attribute.IsFirst (Incomplete cells) a) :
    Unreadable (.map cells) (.vault
      { cause := .incompleteField, secretId := .text id.toText, field := .text a.name })
  | foreign (h : e.IsForeign) : Unreadable row e

theorem FieldReads.not_incomplete (h : FieldReads cells a field?) : ¬ Incomplete cells a := by
  rintro ⟨parts, hparts, ⟨null, hnull⟩, present, hpresent⟩
  obtain ⟨parts', hparts', hf⟩ := h
  have he (part : Part) : parts'.get part = parts.get part :=
    Option.some.inj ((hparts' part).symm.trans (hparts part))
  cases field? with
  | none =>
    rw [← he, hf present] at hpresent
    cases hpresent
  | some f =>
    rw [← he, hf.1 null] at hnull
    cases hnull

theorem cell_fails (row : Row) (name : Text) : Fails Failure.IsForeign (cell row name) := by
  unfold cell
  split
  · trivial
  · exact rfl

theorem cellOf_fails (row : Value) (name : Text) : Fails Failure.IsForeign (cellOf row name) := by
  unfold cellOf
  split
  · exact cell_fails _ _
  · exact rfl

theorem fieldOf_fails (hid : cells.get? "id" = some id) (before after : List Attribute)
    (hall : Attribute.all = before ++ a :: after)
    (hb : ∀ b ∈ before, ∃ field?, FieldReads cells b field?) :
    Fails (Unreadable (.map cells)) (fieldOf (.map cells) id.toText a) := by
  have hparts : Fails Failure.IsForeign (partsOf (.map cells) a.name) :=
    (cellOf_fails ..).bind fun _ _ => (cellOf_fails ..).bind fun _ _ =>
      (cellOf_fails ..).bind fun _ _ => trivial
  refine (hparts.mono fun _ => .foreign).bind fun parts hok => ?_
  split
  · trivial
  rename_i hpresent
  split
  · rename_i hnull
    have hincomplete : Incomplete cells a := by
      refine ⟨parts, partsOf_eq_ok_iff.mp hok, ?_, ?_⟩
      · obtain ⟨part, -, hpart⟩ := List.any_eq_true.mp hnull
        exact ⟨part, hpart⟩
      · simpa only [all_parts, Classical.not_forall, Bool.not_eq_true] using hpresent
    refine .incomplete cells id a hid ⟨hincomplete, before, after, hall, fun b hm => ?_⟩
    obtain ⟨field?, hreads⟩ := hb b hm
    exact hreads.not_incomplete
  · exact ((Fails.ofChecked _ _).map some).mono fun _ => .foreign

theorem recordOf_fails (row : Value) : Fails (Unreadable row) (recordOf row) := by
  cases row with
  | map cells =>
    have cell (name : Text) : Fails (Unreadable (.map cells)) (cellOf (.map cells) name) :=
      (cellOf_fails ..).mono fun _ => .foreign
    unfold recordOf
    refine (cell _).bind fun id hid => ?_
    have hid : Assoc.get? cells "id" = some id := cell_eq_ok_iff.mp hid
    iterate 7 refine (cell _).bind fun _ _ => ?_
    -- each attribute is read after those before it were read
    refine (fieldOf_fails hid [] _ rfl (by simp)).bind fun title htitle => ?_
    have htitle := fieldOf_eq_ok_iff.mp htitle
    refine (fieldOf_fails hid [.title] _ rfl (by simpa using ⟨_, htitle⟩)).bind
      fun type htype => ?_
    have htype := fieldOf_eq_ok_iff.mp htype
    refine (fieldOf_fails hid [.title, .type] _ rfl
      (by simpa using ⟨⟨_, htitle⟩, _, htype⟩)).bind fun data hdata => ?_
    have hdata := fieldOf_eq_ok_iff.mp hdata
    refine (fieldOf_fails hid [.title, .type, .data] _ rfl
      (by simpa using ⟨⟨_, htitle⟩, ⟨_, htype⟩, _, hdata⟩)).bind fun comment _ => ?_
    exact (Fails.ofChecked _ _).mono fun _ => .foreign
  | _ => exact Unreadable.foreign rfl

end Layout

-- ---------------------------------------------------------------------------
-- The store in memory
-- ---------------------------------------------------------------------------

namespace Memory

open Layout

theorem isSelected_fails (org user : Text) (requireData : Bool) (row : Row) :
    Fails Failure.IsForeign (isSelected org user requireData row) := by
  have howned : Fails Failure.IsForeign (isOwnedBy org user row) := by
    refine (cell_fails ..).bind fun _ _ => ?_
    split
    · exact (cell_fails ..).bind fun _ _ => trivial
    · trivial
  refine howned.bind fun _ _ => ?_
  split
  · split
    · exact (cell_fails ..).bind fun _ _ => trivial
    · trivial
  · trivial

theorem select_fails (org user : Text) (requireData : Bool) (rows : List Row) :
    Fails Failure.IsForeign (select org user requireData rows) := by
  induction rows with
  | nil => trivial
  | cons row rows ih =>
    exact (isSelected_fails ..).bind fun _ _ => ih.bind fun _ _ => trivial

theorem nextVersion_fails (v : Value) : Fails Failure.IsForeign (nextVersion v) := by
  cases v with
  | int n => trivial
  | bool b => trivial
  | float x => trivial
  | _ => exact rfl

theorem updateRow_fails (m : Memory) (secret : Text) (columns : Row) (expected : Option Value) :
    Fails Failure.IsForeign (m.updateRow secret columns expected).1 := by
  simp only [updateRow]
  split
  · trivial
  split
  · have hnext (row : Row) :
        Fails Failure.IsForeign ((cell row "version").bind nextVersion) :=
      (cell_fails ..).bind fun v _ => nextVersion_fails v
    split
    · trivial
    · rename_i h
      exact (hnext _).error h
  · trivial

theorem answer_fails (a : Access) (m : Memory) : Fails Failure.IsForeign (answer a m).1 := by
  cases a with
  | fetchFiltered org user requireData => exact (select_fails ..).map _
  | update secret columns expected => exact (updateRow_fails ..).map _
  | _ => trivial

end Memory
end EnvelopeVault
