import EnvelopeVault.Proofs.Opening
import EnvelopeVault.Proofs.Request
import EnvelopeVault.Proofs.Statements

/-!
# The failures that a request can end with

`Request.ends`: each request has a list of failures, put together from those of its
parts, and no other failure comes out of it, whatever the stores answer. From the
list are read the kinds of failures of each request (`Request.ends_among`). A
failure to persist is in no list: only a store makes one. The columns of every
update pass their check, so each access of a request gets to the database.
-/

namespace EnvelopeVault

open Layout

-- ---------------------------------------------------------------------------
-- Operations
-- ---------------------------------------------------------------------------

namespace Vault

variable {root : Bytes} {secret org : Value} {changes : Changes} {expected : Option Value}

def unprovided (secret org : Value) : Failure :=
  .vault
    { cause := .nothingProvided
      operation := .text updateOperation
      secretId := secret
      orgId := org }

def gone (secret : Value) : Failure :=
  .vault
    { cause := .secretNotFound
      operation := .text "DeleteConsumerSecret"
      secretId := secret }

inductive Ungotten (secret org : Value) : Failure → Prop
  | absent : Ungotten secret org (notFound "FindConsumerSecretById" secret org)
  | unreadable (h : Unreadable row e) : Ungotten secret org e
  | key (h : OrgKey.Unresolved org e) : Ungotten secret org e
  | unopened (h : Unopened key row e log) : Ungotten secret org e

inductive Unlisted (org : Value) : Failure → Prop
  | key (h : OrgKey.Unresolved org e) : Unlisted org e
  | unopened (h : Unopened key row e log) : Unlisted org e

/-- The failures of an update. A row is read, but not opened. -/
inductive Unwritten (secret org : Value) (expected : Option Value) : Failure → Prop
  | unprovided : Unwritten secret org expected (unprovided secret org)
  | refused (found : Option Value) :
    Unwritten secret org expected (refusal secret org expected found)
  | key (h : OrgKey.Unresolved org e) : Unwritten secret org expected e
  | unreadable (h : Unreadable row e) : Unwritten secret org expected e

inductive Undeleted (secret : Value) : Failure → Prop
  | gone : Undeleted secret (gone secret)
  | foreign (h : e.IsForeign) : Undeleted secret e

theorem create_ends (root : Bytes) (draft : Draft) (org user : Value) :
    (create root draft org user).Ensures Access.IsIssued
      (Ends (OrgKey.Unresolved org) fun _ => True) := by
  refine (OrgKey.resolve_ends root ⟨_, rfl⟩).bind_ends (fun _ he => he) fun key _ => ?_
  refine (Sealing.encryptAll_ends key _).bind_ends (fun _ => .foreign) fun fields _ => ?_
  refine ⟨⟨_, rfl⟩, fun created => ?_⟩
  exact Program.Ensures.checked_ends (r := cellOf created "id") (cellOf_fails created "id")
    (fun _ => .foreign) fun _ _ => trivial

theorem ownedRecord_ends (operation : Text) (secret org : Value) (found : Option Value) :
    Ends (fun e => e = notFound operation secret org ∨ ∃ row, Unreadable row e)
      (fun r => ∃ row, recordOf row = .ok r) (ownedRecord operation secret org found) := by
  cases found with
  | none => exact .inl rfl
  | some row =>
    simp only [ownedRecord]
    cases howner : cellOf row "orgId" with
    | error e => exact .inr ⟨row, .foreign ((cellOf_fails ..).error howner)⟩
    | ok owner =>
      simp only [bind, Except.bind]
      split
      · cases hr : recordOf row with
        | error e => exact .inr ⟨row, (recordOf_fails row).error hr⟩
        | ok r => exact ⟨row, hr⟩
      · exact .inl rfl

theorem get_ends (root : Bytes) (secret org : Value) :
    (get root secret org).Ensures Access.IsIssued
      (Ends (Ungotten secret org) fun _ => True) := by
  rw [get, fetchOwned_eq]
  refine ⟨⟨_, rfl⟩, fun found => ?_⟩
  refine Program.Ensures.bind_ends (p := .done _)
    (ownedRecord_ends "FindConsumerSecretById" secret org found) ?_ fun r hr => ?_
  · rintro e (rfl | ⟨row, h⟩)
    · exact .absent
    · exact .unreadable h
  obtain ⟨row, hr⟩ := hr
  refine (OrgKey.resolve_ends root ⟨_, rfl⟩).bind_ends (fun _ => .key) fun octets hlength => ?_
  obtain ⟨s, hs⟩ | ⟨e, log, he, hs⟩ := decryptRecord_opens ⟨octets, hlength⟩ hr
  · exact hs ▸ Program.ensures_saying [] trivial
  · exact hs ▸ Program.ensures_saying log (.unopened he)

theorem list_ends (root : Bytes) (org user : Value) :
    (list root org user).Ensures Access.IsIssued (Ends (Unlisted org) fun _ => True) := by
  refine (OrgKey.resolve_ends root ⟨_, rfl⟩).bind_ends (fun _ => .key) fun octets hlength => ?_
  refine ⟨⟨_, rfl⟩, fun rows => ?_⟩
  have hrows : (openRows octets rows).Ensures Access.IsIssued
      (Ends (Unlisted org) fun _ => True) := by
    obtain ⟨secrets, hs⟩ | ⟨row, -, e, log, he, hs⟩ := openRows_cases ⟨octets, hlength⟩ rows
    · exact hs ▸ Program.ensures_saying [] trivial
    · exact hs ▸ Program.ensures_saying log (.unopened he)
  exact hrows.bind_ends (fun _ he => he) fun _ _ => trivial

theorem delete_ends (secret : Value) :
    (delete secret).Ensures Access.IsIssued (Ends (Undeleted secret) fun _ => True) := by
  refine ⟨⟨_, rfl⟩, fun found => ?_⟩
  cases found with
  | none => exact Undeleted.gone
  | some row =>
    exact Program.Ensures.checked_ends (r := cellOf row "id") (cellOf_fails row "id")
      (fun _ => .foreign) fun _ _ => trivial

/-- The write of an update is issued, as it has fields of attributes and at least one. -/
theorem exists_update_statement {fields : Assoc Field} (h : changes.provided.isEmpty = false)
    (hnames : fields.names = Assoc.names changes.provided) (secret : Value)
    (expected : Option Value) :
    ∃ q, Query.update secret (Layout.columnsOf fields) expected = .ok q := by
  have hn : fields.names.Nodup := hnames ▸ changes.nodup_provided
  have hne : fields ≠ [] := by
    rintro rfl
    rw [List.eq_nil_of_map_eq_nil hnames.symm] at h
    cases h
  refine Query.exists_update hn hne (fun name hm => ?_) secret expected
  obtain ⟨a, -, rfl⟩ := List.mem_map.mp (changes.names_provided.subset (hnames ▸ hm))
  exact ⟨a, rfl⟩

/-- What an update goes on with after its key. -/
def writeUnder (secret : Value) (changes : Changes) (org : Value) (expected : Option Value)
    (key : Bytes) : Program Text :=
  (Sealing.encryptChanges key changes).bind fun fields =>
    .access (.update secret (columnsOf fields) expected) (conclude secret org expected fields)

theorem writeChanges_eq_under (root : Bytes) (secret : Value) (changes : Changes) (org : Value)
    (expected : Option Value) :
    writeChanges root secret changes org expected =
      (OrgKey.resolve root org).bind (writeUnder secret changes org expected) := by
  rw [writeChanges_eq, sealChanges, Program.bind_assoc]
  rfl

theorem writeUnder_ends (h : changes.provided.isEmpty = false) (key : Bytes) :
    (writeUnder secret changes org expected key).Ensures Access.IsIssued
      (Ends (fun e => e.IsForeign ∨ ∃ found, e = refusal secret org expected found)
        fun _ => True) := by
  refine (Sealing.encryptAll_ends key changes.provided).bind_ends (fun _ => .inl)
    fun fields hnames => ?_
  refine ⟨exists_update_statement h hnames secret expected, fun answer => ?_⟩
  cases answer with
  | none =>
    rw [conclude, refused_eq]
    exact ⟨⟨_, rfl⟩, fun found => Or.inr ⟨found, rfl⟩⟩
  | some row => exact ((cellOf_fails row "id").map _).mono fun _ => .inl

theorem writeChanges_ends (h : changes.provided.isEmpty = false) :
    (writeChanges root secret changes org expected).Ensures Access.IsIssued
      (Ends (Unwritten secret org expected) fun _ => True) := by
  rw [writeChanges_eq_under]
  refine (OrgKey.resolve_ends root ⟨_, rfl⟩).bind_ends (fun _ => .key) fun key _ => ?_
  refine (writeUnder_ends h key).ends_mono ?_
  rintro e (hforeign | ⟨found, rfl⟩)
  · exact .key (.foreign hforeign)
  · exact .refused found

theorem admits_fails (secret org : Value) (expected found : Option Value) :
    Fails (Unwritten secret org expected) (admits secret org expected found) := by
  have howned := ownedRecord_ends updateOperation secret org found
  unfold admits
  cases hr : ownedRecord updateOperation secret org found with
  | error e =>
    rw [hr] at howned
    obtain rfl | ⟨row, h⟩ := howned
    · cases expected <;> exact Unwritten.refused none
    · exact .unreadable h
  | ok record =>
    simp only [bind, Except.bind]
    cases expected with
    | none => trivial
    | some version =>
      dsimp only
      split
      · trivial
      · exact Unwritten.refused (some .null)

theorem update_ends (root : Bytes) (secret : Value) (changes : Changes) (org : Value)
    (expected : Option Value) :
    (update root secret changes org expected).Ensures Access.IsIssued
      (Ends (Unwritten secret org expected) fun _ => True) := by
  cases h : changes.provided.isEmpty with
  | true =>
    rw [update, if_pos h]
    exact Unwritten.unprovided
  | false =>
    rw [update_eq h]
    refine ⟨⟨_, rfl⟩, fun found => ?_⟩
    unfold proceed
    split
    · rename_i e he
      exact (admits_fails secret org expected found).error he
    · exact writeChanges_ends h

end Vault

-- ---------------------------------------------------------------------------
-- Requests
-- ---------------------------------------------------------------------------

namespace Request

/-- The failures that a request can end with. -/
def MayFail : Request → Failure → Prop
  | .create _ org _ => OrgKey.Unresolved org
  | .get secret org => Vault.Ungotten secret org
  | .list org _ => Vault.Unlisted org
  | .update secret _ org expected => Vault.Unwritten secret org expected
  | .delete secret => Vault.Undeleted secret
  | .resolve org => OrgKey.Unresolved org

/-- Whatever the stores answer, every access of a request is issued, and the request ends with a
reply or a failure of its list. -/
theorem ends (root : Bytes) (r : Request) :
    (r.program root).Ensures Access.IsIssued (Ends r.MayFail fun _ => True) := by
  cases r with
  | create secret org user =>
    refine .checked_ends (Fails.ofChecked _ _) (fun _ => .foreign) fun draft _ => ?_
    exact (Vault.create_ends root draft org user).bind_ends (fun _ he => he) fun _ _ => trivial
  | get secret org =>
    exact (Vault.get_ends root secret org).bind_ends (fun _ he => he) fun _ _ => trivial
  | list org user =>
    exact (Vault.list_ends root org user).bind_ends (fun _ he => he) fun _ _ => trivial
  | update secret given org expected =>
    refine .checked_ends (Fails.ofChecked _ _) (fun _ he => .key (.foreign he)) fun changes _ => ?_
    exact (Vault.update_ends root secret changes org expected).bind_ends (fun _ he => he)
      fun _ _ => trivial
  | delete secret =>
    exact (Vault.delete_ends secret).bind_ends (fun _ he => he) fun _ _ => trivial
  | resolve org =>
    exact (OrgKey.resolve_ends root ⟨_, rfl⟩).bind_ends (fun _ he => he) fun _ _ => trivial

end Request

-- ---------------------------------------------------------------------------
-- Kinds
-- ---------------------------------------------------------------------------

/-- If the failure is one of the vault's, then of one of the kinds. -/
def Failure.IsAmong (allowed : List VaultKind) (e : Failure) : Prop :=
  ∀ k, e.kind? = some k → k ∈ allowed

def EndsAmong (allowed : List VaultKind) (R : α → Prop) : Except Failure α → Prop
  | .ok a => R a
  | .error e => e.IsAmong allowed

abbrev FailsAmong (allowed : List VaultKind) (x : Except Failure α) : Prop :=
  EndsAmong allowed (fun _ => True) x

variable {allowed : List VaultKind} {e : Failure}

namespace Failure.IsAmong

theorem of_foreign (h : e.IsForeign) : IsAmong allowed e := by
  intro k hk
  cases h.kind?.symm.trans hk

theorem of_conflict (h : e.IsConflict) (hk : .versionConflict ∈ allowed) : IsAmong allowed e :=
  fun _ he => h.kind_eq he ▸ hk

theorem of_vault {f : VaultFailure} (hk : f.kind = k) (h : k ∈ allowed) :
    IsAmong allowed (.vault f) := by
  rintro _ ⟨⟩
  rwa [hk]

theorem not (h : IsAmong allowed e) (hk : k ∉ allowed) : e.kind? ≠ some k := fun he => hk (h k he)

end Failure.IsAmong

theorem FailsAmong.error {x : Except Failure α} (hx : FailsAmong allowed x) (h : x = .error e) :
    e.IsAmong allowed := by
  rw [h] at hx
  exact hx

theorem Ends.among {x : Except Failure α} {E : Failure → Prop} {R : α → Prop} (hx : Ends E R x)
    (h : ∀ e, E e → e.IsAmong allowed) : EndsAmong allowed R x := by
  cases x with
  | ok a => exact hx
  | error e => exact h e hx

/-- What comes of an organization's key that is absent, altered or in an unknown form. -/
def OrgKey.kinds : List VaultKind :=
  [.organizationKeyNotFound, .authenticationFailure, .unsupportedAlgorithm]

theorem OrgKey.Unresolved.isAmong (hkinds : OrgKey.kinds ⊆ allowed) (h : Unresolved org e) :
    e.IsAmong allowed := by
  cases h with
  | absent => exact .of_vault (k := .organizationKeyNotFound) rfl (hkinds (by decide))
  | unsupported label => exact .of_vault (k := .unsupportedAlgorithm) rfl (hkinds (by decide))
  | unauthentic cause hk => exact .of_vault hk (hkinds (by decide))
  | foreign hforeign => exact .of_foreign hforeign

section Rows

variable (hauth : .authenticationFailure ∈ allowed)
include hauth

theorem Layout.Unreadable.isAmong (h : Unreadable row e) : e.IsAmong allowed := by
  cases h with
  | incomplete cells id a => exact .of_vault rfl hauth
  | foreign hforeign => exact .of_foreign hforeign

theorem Vault.Unopened.isAmong (hunsupported : .unsupportedAlgorithm ∈ allowed)
    (h : Unopened key row e log) : e.IsAmong allowed := by
  cases h with
  | unreadable h => exact h.isAmong hauth
  | unsupported r => exact .of_vault rfl hunsupported
  | broken r a cause _ _ hk => exact .of_vault hk hauth

end Rows

theorem Vault.refusal_isAmong (habsent : .secretNotFound ∈ allowed)
    (hconflict : .versionConflict ∈ allowed) (secret org : Value) (expected found : Option Value) :
    (refusal secret org expected found).IsAmong allowed := by
  unfold refusal
  split
  · exact .of_conflict (conflict_isConflict ..) hconflict
  · exact .of_vault (k := .secretNotFound) rfl habsent

def Vault.updateKinds : List VaultKind := .secretNotFound :: .versionConflict :: OrgKey.kinds

namespace Request

def kinds : Request → List VaultKind
  | .create .. => OrgKey.kinds
  | .get .. => .secretNotFound :: OrgKey.kinds
  | .list .. => OrgKey.kinds
  | .update .. => .noFieldsProvided :: Vault.updateKinds
  | .delete _ => [.secretNotFound]
  | .resolve _ => OrgKey.kinds

theorem MayFail.isAmong {r : Request} (h : r.MayFail e) : e.IsAmong r.kinds := by
  cases r with
  | create secret org user => exact OrgKey.Unresolved.isAmong (List.Subset.refl _) h
  | get secret org =>
    change e.IsAmong (.secretNotFound :: OrgKey.kinds)
    cases h with
    | absent => exact .of_vault rfl (List.mem_cons_self ..)
    | unreadable hrow => exact hrow.isAmong (by decide)
    | key hkey => exact hkey.isAmong (by decide)
    | unopened hrow => exact hrow.isAmong (by decide) (by decide)
  | list org user =>
    change e.IsAmong OrgKey.kinds
    cases h with
    | key hkey => exact hkey.isAmong (List.Subset.refl _)
    | unopened hrow => exact hrow.isAmong (by decide) (by decide)
  | update secret given org expected =>
    change e.IsAmong (.noFieldsProvided :: Vault.updateKinds)
    cases h with
    | unprovided => exact .of_vault rfl (List.mem_cons_self ..)
    | refused found =>
      exact Vault.refusal_isAmong (by decide) (by decide) secret org expected found
    | key hkey => exact hkey.isAmong (by decide)
    | unreadable hrow => exact hrow.isAmong (by decide)
  | delete secret =>
    cases h with
    | gone => exact .of_vault rfl (List.mem_cons_self ..)
    | foreign hforeign => exact .of_foreign hforeign
  | resolve org => exact OrgKey.Unresolved.isAmong (List.Subset.refl _) h

theorem ends_among (root : Bytes) (r : Request) :
    (r.program root).Ensures Access.IsIssued (FailsAmong r.kinds) :=
  (ends root r).mono (fun _ ha => ha) fun _ hx => hx.among fun _ => MayFail.isAmong

end Request
end EnvelopeVault
