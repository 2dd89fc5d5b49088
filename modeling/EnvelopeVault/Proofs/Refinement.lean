import Mathlib
import EnvelopeVault.Proofs.Atomic
import EnvelopeVault.Proofs.Representation

/-!
# The vault refines a store of plain texts

`Mirrors` ties a store in memory to a store of plain texts: rows to entries, in
order, and key records to organizations. Each call ends in both with the same
value, or fails in both for the same reason, and leaves them tied
(`Mirrors.call_matches`); so do all finite sequences of calls
(`vault_refines_plain_store`).
-/

namespace EnvelopeVault

open FieldCipher Layout

-- ---------------------------------------------------------------------------
-- Versions that are expected
-- ---------------------------------------------------------------------------

theorem Text.length_ofNat_le_iff {n k : Nat} (hk : 0 < k) :
    (ofNat n).length ≤ k ↔ n < Nat.pow 10 k := by
  rw [ofNat, List.length_map]
  exact Nat.length_toDigits_le_iff (by decide) hk

/-- A conflict cannot be told of a version that has too many digits, and of no other. -/
theorem PlainEntry.conflict_eq_unwritable_iff {expected : Int} :
    conflict expected = .unwritable ↔ Nat.pow 10 Numeral.maxDigits ≤ expected.natAbs := by
  have hwritable : Numeral.isWritable expected = true ↔
      expected.natAbs < Nat.pow 10 Numeral.maxDigits := by
    rw [Numeral.isWritable, decide_eq_true_iff]
    exact Text.length_ofNat_le_iff (by decide)
  rw [conflict, ← Nat.not_lt, ← hwritable]
  split <;> simp_all

example : PlainEntry.conflict (Nat.pow 10 Numeral.maxDigits : Nat) = .unwritable :=
  PlainEntry.conflict_eq_unwritable_iff.mpr (Nat.le_of_eq (Int.natAbs_natCast _).symm)

theorem reason?_conflict (secret org : Value) (expected : Int) :
    (Vault.conflict secret org (.int expected)).reason? = some (PlainEntry.conflict expected) := by
  rw [Vault.conflict, PlainEntry.conflict, Value.isWritable]
  split <;> rfl

-- ---------------------------------------------------------------------------
-- Calls
-- ---------------------------------------------------------------------------

/-- A store in memory and a store of plain texts that are in step: the key records are those of
the organizations, wrapped under the root key, the rows are those of the entries, and the next
ids are the same. -/
structure Mirrors (root : Key) (keyOf : Text → Key) (m : Memory) (s : PlainStore) : Prop where
  orgs : ∀ org, s.orgs org = m.keys.has org
  keys : ∀ org record, m.keys.get? org = some record → OrgKey.Wraps root (keyOf org) record
  rows : Assoc.Rel (Represents keyOf) m.rows s.entries
  ids : ∀ k, s.newIds k = Value.toText (Memory.nextId { m with planned := k })
  created : s.created = m.planned

def Call.IsEncodable : Call → Prop
  | .create draft _ _ => ∀ a, (draft.texts.get a).IsEncodable
  | .update _ changes _ _ => ∀ a t, changes.get a = some t → t.IsEncodable
  | _ => True

namespace Mirrors

variable {root : Key} {keyOf : Text → Key} {m : Memory} {s : PlainStore}
  (h : Mirrors root keyOf m s)
include h

theorem contents : Mirrors root keyOf m.contents s := ⟨h.orgs, h.keys, h.rows, h.ids, h.created⟩

theorem resolves (org : Text) (n : Nonces) :
    (s.checkOrg org = .ok () ∧
      (OrgKey.resolve root.bytes (.text org)).settle m.keys n = some (.ok (keyOf org).bytes, n)) ∨
    (s.checkOrg org = .error (.vault .organizationKeyNotFound) ∧ ∃ e,
      (OrgKey.resolve root.bytes (.text org)).settle m.keys n = some (.error e, n) ∧
        e.reason? = some (.vault .organizationKeyNotFound)) := by
  rw [PlainStore.checkOrg, h.orgs, Assoc.has]
  cases hk : m.keys.get? org with
  | none => exact .inr ⟨rfl, _, OrgKey.settle_resolve_absent hk, rfl⟩
  | some record => exact .inl ⟨rfl, OrgKey.settle_resolve hk (h.keys org record hk)⟩

theorem owned (secret org : Text) :
    (∃ row e, s.owned secret org = .ok e ∧ e.org = org ∧ m.rows.get? secret = some row ∧
      Represents keyOf secret row e) ∨
    (s.owned secret org = .error (.vault .secretNotFound) ∧ ∀ operation,
      Vault.ownedRecord operation (.text secret) (.text org) ((m.rows.get? secret).map .map) =
        .error (Vault.notFound operation (.text secret) (.text org))) := by
  have hrow := h.rows.get? secret
  rw [PlainStore.owned]
  generalize hm : m.rows.get? secret = row? at hrow ⊢
  generalize s.entries.get? secret = e? at hrow ⊢
  cases hrow with
  | none => exact .inr ⟨rfl, fun _ => rfl⟩
  | @some row e hrow =>
    by_cases ho : e.org = org
    · exact .inl ⟨row, e, if_pos ho, ho, rfl, hrow⟩
    · obtain ⟨owner, howner, hown⟩ := hrow.holds_org
      have hne : owner.toText ≠ Value.toText (.text org) := hown ▸ ho
      exact .inr ⟨if_neg ho, fun _ => Vault.ownedRecord_foreign ⟨owner, howner, hne⟩⟩

end Mirrors

/-- A call that succeeds in both stores with the same value, or fails in both for the same reason,
the plain one being left as it was. -/
inductive Matches (root : Key) (keyOf : Text → Key) (s : PlainStore) {α : Type} :
    Except Failure α × Memory → Except Reason (α × PlainStore) → Prop
  | ok {a : α} {m : Memory} {s' : PlainStore} (h : Mirrors root keyOf m s') :
    Matches root keyOf s (.ok a, m) (.ok (a, s'))
  | error {e : Failure} {k : Reason} {m : Memory} (hk : e.reason? = some k)
    (h : Mirrors root keyOf m s) : Matches root keyOf s (.error e, m) (.error k)

theorem Matches.map {α β : Type} {o : Except Failure α × Memory}
    {x : Except Reason (α × PlainStore)} (h : Matches root keyOf s o x) (f : α → β) :
    Matches root keyOf s (o.1.map f, o.2) (x.map (Prod.map f id)) := by
  cases h with
  | ok h => exact .ok h
  | error hk h => exact .error hk h

theorem Agrees.matches {α : Type} {r : Except Failure α} {x : Except Reason α}
    (ha : Agrees r x) (h : Mirrors root keyOf m s) :
    Matches root keyOf s (r, m) (do return (← x, s)) := by
  cases ha with
  | ok a => exact .ok h
  | error hk => exact .error hk h

namespace Mirrors

variable {root : Key} {keyOf : Text → Key} {m : Memory} {s : PlainStore}
  (h : Mirrors root keyOf m s)
include h

theorem get_matches (secret org : Text) (n : Nonces) :
    Matches root keyOf s ((Vault.get root.bytes (.text secret) (.text org)).effect n m)
      (s.get secret org) := by
  rw [Vault.get, Vault.fetchOwned_eq, Program.bind_eq, Program.bind, Program.effect_answer rfl]
  simp only [Value.toText, PlainStore.get]
  rcases h.owned secret org with ⟨row, e, hown, ho, hrow, hrep⟩ | ⟨hown, hrefused⟩
  · obtain ⟨r, hr, hc⟩ := hrep.record
    rw [ho] at hc
    rw [hown, hrow, Option.map_some,
      Vault.ownedRecord_eq_ok_iff.mpr ⟨hr, show r.orgId = Value.toText (.text org) from
        hc.org.trans ho⟩]
    rcases h.resolves org n with ⟨horg, hkey⟩ | ⟨horg, e', hkey, hk⟩
    · obtain ⟨result, hresult, ha⟩ := hc.settle_decryptRecord m.keys n
      rw [horg, Program.done_bind, Program.bind_eq, Program.effect_bind_settled hkey,
        Program.effect_settled hresult]
      exact ha.matches h.contents
    · rw [horg, Program.done_bind, Program.bind_eq,
        Program.effect_settled (Program.settle_bind_error hkey)]
      exact .error hk h.contents
  · rw [hown, hrefused]
    exact .error rfl h.contents

theorem list_matches (org user : Text) (n : Nonces) :
    Matches root keyOf s ((Vault.list root.bytes (.text org) (.text user)).effect n m)
      (s.list org user) := by
  rw [Vault.list, Program.bind_eq, PlainStore.list]
  rcases h.resolves org n with ⟨horg, hkey⟩ | ⟨horg, e', hkey, hk⟩
  · obtain ⟨selected, hselect, hrel⟩ := exists_select h.rows org user
    have hanswer : Memory.answer (.fetchFiltered (.text org) (.text user) true) m =
        (.ok (selected.map fun pair => .map pair.2), m) := by
      simp [Memory.answer, Value.toText, hselect, Except.map]
    have hown : ∀ pair ∈ s.entries.filter (fun pair => pair.2.isListed org user),
        pair.2.org = org := by
      intro pair hp
      have hl := (List.mem_filter.mp hp).2
      simp only [PlainEntry.isListed, Bool.and_eq_true, beq_iff_eq] at hl
      exact hl.1.1
    obtain ⟨result, hresult, ha⟩ := settle_openRows hrel hown m.keys n
    rw [Program.effect_bind_settled hkey, horg, Program.bind_eq, Program.call_bind,
      Program.effect_answer hanswer, Program.bind_eq]
    change Matches _ _ _ _ (do return (← PlainStore.secrets _, s))
    generalize PlainStore.secrets _ = x at ha ⊢
    cases ha with
    | error hk =>
      rw [Program.effect_settled (Program.settle_bind_error hresult)]
      exact .error hk h.contents
    | ok secrets =>
      rw [Program.effect_bind_settled hresult]
      exact .ok h.contents
  · rw [Program.effect_settled (Program.settle_bind_error hkey), horg]
    exact .error hk h.contents

theorem delete_matches (secret : Text) (n : Nonces) :
    Matches root keyOf s ((Vault.delete (.text secret)).effect n m) (s.delete secret) := by
  have hanswer : Memory.answer (.delete (.text secret)) m =
      (.ok ((m.rows.get? secret).map .map),
        { m.counted with rows := m.rows.erase secret }) := rfl
  have hrow := h.rows.get? secret
  have herase := h.rows.erase secret
  rw [Vault.delete, Program.bind_eq, Program.call_bind, Program.effect_answer hanswer,
    PlainStore.delete]
  cases hm : m.rows.get? secret with
  | none =>
    rw [hm] at hrow
    generalize s.entries.get? secret = e? at hrow ⊢
    cases hrow
    -- the store in memory erases nothing here, the plain one does not even try
    rw [Assoc.erase_of_not_mem (Assoc.get?_eq_none_iff.mp hm)]
    exact .error rfl ⟨h.orgs, h.keys, h.rows, h.ids, h.created⟩
  | some row =>
    rw [hm] at hrow
    generalize s.entries.get? secret = e? at hrow ⊢
    cases hrow with
    | some hrow =>
      obtain ⟨id, hid, ht⟩ := hrow.holds_id
      have hcell : cellOf (.map row) "id" = .ok id := cell_eq_ok_iff.mpr hid
      simp only [Option.map_some, hcell, Program.bind_eq, Program.log_bind, Program.ofExcept_bind,
        Program.effect_note, ht]
      exact .ok ⟨h.orgs, h.keys, herase, h.ids, h.created⟩

theorem create_matches {draft : Draft} (hd : ∀ a, (draft.texts.get a).IsEncodable)
    (org user : Text) (n : Nonces) :
    Matches root keyOf s ((Vault.create root.bytes draft (.text org) (.text user)).effect n m)
      (s.create draft org user) := by
  rw [Vault.create, Program.bind_eq, PlainStore.create]
  rcases h.resolves org n with ⟨horg, hkey⟩ | ⟨horg, e', hkey, hk⟩
  · obtain ⟨fields, left, hseal, hrel⟩ := Sealing.exists_settle_encryptAll m.keys (keyOf org)
      (Attributes.forall_mem_toList hd) n
    have hn : fields.names.Nodup := by
      rw [hrel.names_eq, Vault.names_texts]
      decide
    have hid := Vault.get?_newRow_plain hn (.text org) (.text user) (show isPlain "id" by decide)
    have hrep := Represents.inserted hrel user m.nextId
    rw [Program.effect_bind_settled hkey, Program.bind_eq, Sealing.encryptDraft,
      Program.effect_bind_settled hseal, Program.bind_eq, Program.call_bind,
      Program.effect_answer (Memory.answer_insert hid), horg]
    have hcell : cellOf (.map (Memory.insertedRow m.nextId
        (Vault.newRow (.text org) (.text user) fields))) "id" = .ok m.nextId :=
      cell_eq_ok_iff.mpr (Memory.get?_insertedRow_id ..)
    have hnew : s.newIds s.created = m.nextId.toText := h.created ▸ h.ids m.planned
    simp only [hcell, Program.bind_eq, Program.ofExcept_bind, Program.log_bind,
      Program.effect_note, Program.pure_eq, Program.effect_done]
    change Matches _ _ _ _ (Except.ok (s.newIds s.created, _))
    rw [hnew]
    exact .ok ⟨h.orgs, h.keys, h.rows.put hrep, h.ids, congrArg (· + 1) h.created⟩
  · rw [Program.effect_settled (Program.settle_bind_error hkey), horg]
    exact .error hk h.contents

theorem writeChanges_matches {changes : Changes} {expected : Option Value}
    (hc : ∀ a t, changes.get a = some t → Text.IsEncodable t)
    (hrow : m.rows.get? secret = some row) (hrep : Represents keyOf secret row e)
    (ho : e.org = org) (hv : expected.all (·.isNumber e.version) = true) (n : Nonces) :
    Matches root keyOf s
      ((Vault.writeChanges root.bytes (.text secret) changes (.text org) expected).effect n m)
      (do
        s.checkOrg org
        return (secret, { s with entries := s.entries.put secret (e.change changes) })) := by
  rcases h.resolves org n with ⟨horg, hkey⟩ | ⟨horg, e', hkey, hk⟩
  · obtain ⟨fields, left, hseal, hrel⟩ := Sealing.exists_settle_encryptAll m.keys (keyOf org)
      (Changes.forall_mem_provided hc) n
    have hn : fields.names.Nodup := hrel.names_eq ▸ changes.nodup_provided
    have hnew := hrep.overlay (ho.symm ▸ hrel)
    obtain ⟨id, hid, ht⟩ := hnew.holds_id
    have hcell : cellOf (.map (overlay row fields (e.version + 1))) "id" = .ok id :=
      cell_eq_ok_iff.mpr hid
    have hsettle : (Vault.sealChanges root.bytes changes (.text org)).settle m.keys n =
        some (.ok fields, left) := (Program.settle_bind_ok hkey).trans hseal
    have hread : m.rows.get? (Value.toText (.text secret)) = some row := hrow
    have hwrite := Memory.answer_update_written hread hrep.version hn hv
    rw [Vault.effect_writeChanges hsettle, Program.effect_answer hwrite, horg, Vault.conclude,
      Program.effect_note, Program.effect_done, hcell, Except.map, ht]
    exact .ok ⟨h.orgs, h.keys, h.rows.put hnew, h.ids, h.created⟩
  · rw [Vault.effect_writeChanges_error (Program.settle_bind_error hkey), horg]
    exact .error hk h.contents

theorem update_matches {changes : Changes}
    (hc : ∀ a t, changes.get a = some t → Text.IsEncodable t) (secret org : Text)
    (expected : Option Int) (n : Nonces) :
    Matches root keyOf s
      ((Vault.update root.bytes (.text secret) changes (.text org) (expected.map .int)).effect n m)
      (s.update secret changes org expected) := by
  rw [PlainStore.update]
  cases hp : changes.provided.isEmpty with
  | true =>
    rw [if_pos (changes.provided_isEmpty.mp hp), Vault.update, if_pos hp]
    exact .error rfl h.contents
  | false =>
    have hne : ¬ changes = ⟨none, none, none, none⟩ := by
      intro hn
      rw [changes.provided_isEmpty.mpr hn] at hp
      cases hp
    rw [if_neg hne, Vault.effect_update hp, show Value.toText (.text secret) = secret from rfl]
    rcases h.owned secret org with ⟨row, e, hown, ho, hrow, hrep⟩ | ⟨hown, hrefused⟩
    · obtain ⟨r, hr, hconceals⟩ := hrep.record
      have horg : r.orgId = Value.toText (.text org) := hconceals.org.trans ho
      rw [hown, hrow, Option.map_some, Vault.admits_of_version hr horg hrep.version]
      simp only [bind, Except.bind]
      cases expected with
      | none => exact h.writeChanges_matches hc hrow hrep ho rfl n
      | some v =>
        rw [PlainEntry.checkVersion]
        by_cases hv : v = e.version
        · have hnumber : (Option.map Value.int (some v)).all (·.isNumber e.version) = true := by
            simp [Value.isNumber, hv]
          rw [if_pos hnumber, if_pos hv]
          exact h.writeChanges_matches hc hrow hrep ho hnumber n
        · have hnumber : ¬ (Option.map Value.int (some v)).all (·.isNumber e.version) = true := by
            simp [Value.isNumber, hv]
          rw [if_neg hnumber, if_neg hv]
          exact .error (reason?_conflict ..) h.contents
    · rw [hown, Vault.admits, hrefused]
      exact .error rfl h.contents

theorem call_matches {call : Call} (hc : call.IsEncodable) (n : Nonces) :
    Matches root keyOf s ((call.program root.bytes).effect n m) (s.perform call) := by
  cases call with
  | create draft org user =>
    have hm := (h.create_matches hc org user n).map Reply.id
    rwa [← Program.effect_map] at hm
  | get secret org =>
    have hm := (h.get_matches secret org n).map Reply.secret
    rwa [← Program.effect_map] at hm
  | list org user =>
    have hm := (h.list_matches org user n).map Reply.secrets
    rwa [← Program.effect_map] at hm
  | update secret changes org expected =>
    have hm := (h.update_matches hc secret org expected n).map Reply.id
    rwa [← Program.effect_map] at hm
  | delete secret =>
    have hm := (h.delete_matches secret n).map Reply.id
    rwa [← Program.effect_map] at hm

end Mirrors

-- ---------------------------------------------------------------------------
-- Sequences of calls
-- ---------------------------------------------------------------------------

theorem Matches.step (h : Matches root keyOf s (r, m) (s.perform call)) :
    Agrees r (s.step call).1 ∧ Mirrors root keyOf m (s.step call).2 := by
  rw [PlainStore.step]
  generalize s.perform call = x at h ⊢
  cases h with
  | ok h => exact ⟨.ok _, h⟩
  | error hk h => exact ⟨.error hk, h⟩

theorem Mirrors.run {root : Key} (h : Mirrors root keyOf m s) {calls : List Call}
    (hcalls : ∀ call ∈ calls, call.IsEncodable) :
    List.Forall₂ (fun o x => Agrees o.1 x.1 ∧ Mirrors root keyOf o.2 x.2)
      (Call.runAll root.bytes calls m) (PlainStore.runAll calls s) := by
  induction calls generalizing m s with
  | nil => exact .nil
  | cons call calls ih =>
    obtain ⟨hcall, hrest⟩ := List.forall_mem_cons.mp hcalls
    obtain ⟨hresult, hs⟩ := (h.call_matches hcall m.nonces).step
    -- the effect forgets counters and nonces, on which no later call depends
    have hafter : Mirrors root keyOf ((call.program root.bytes).run Memory.backend m).state
        (s.step call).2 := ⟨hs.orgs, hs.keys, hs.rows, hs.ids, hs.created⟩
    exact .cons ⟨hresult, hafter⟩ (ih hafter hrest)

def Memory.plain (m : Memory) (entries : Assoc PlainEntry) : PlainStore where
  entries := entries
  orgs := m.keys.has
  newIds k := Value.toText (nextId { m with planned := k })
  created := m.planned

/-- Any calls, one after the other, end as they end on the store of plain texts, each with the
same value or with a failure for the same reason; and after each of them every row decrypts to the
entry in its place. The version that an update expects can be any number: a conflict is told of
those that have a numeral (`PlainEntry.conflict_eq_unwritable_iff`). -/
theorem vault_refines_plain_store (root : Key) (keyOf : Text → Key) (m : Memory)
    (entries : Assoc PlainEntry)
    (hkeys : ∀ org record, m.keys.get? org = some record → OrgKey.Wraps root (keyOf org) record)
    (hrows : Assoc.Rel (Represents keyOf) m.rows entries)
    (calls : List Call) (hcalls : ∀ call ∈ calls, call.IsEncodable) :
    List.Forall₂
      (fun o x => Agrees o.1 x.1 ∧ Assoc.Rel (Decrypts keyOf) o.2.rows x.2.entries)
      (Call.runAll root.bytes calls m) (PlainStore.runAll calls (m.plain entries)) := by
  have h : Mirrors root keyOf m (m.plain entries) :=
    ⟨fun _ => rfl, hkeys, hrows, fun _ => rfl, rfl⟩
  refine (h.run hcalls).imp fun o x hox => ⟨hox.1, hox.2.rows.mono ?_⟩
  exact fun _ _ _ hrep => hrep.decrypts

namespace Shelf

def key : Key := ⟨List.replicate keySize 0, by decide⟩

def store (record : OrgKeyRecord) : Memory :=
  { Memory.empty [.text "s1"] (Nonces.counting 0) with
    keys := [("o", record)]
    rows := [("s0", Assoc.putAll Memory.blankRow
      [("id", .text "s0"), ("userId", .text "u"), ("orgId", .text "o")])] }

def entries : Assoc PlainEntry := [("s0", ⟨"o", "u", 1, ⟨none, none, none, none⟩⟩)]

def draft : Draft := ⟨"title", "type", "data", none⟩

def changes : Changes := ⟨some "name", none, none, none⟩

def calls : List Call :=
  [.create draft "o" "u", .create draft "p" "u", .get "s1" "p",
    .update "s1" changes "o" (some 2), .update "s1" changes "o" (some 1), .get "s1" "o",
    .get "s0" "o", .list "o" "u", .delete "s0", .delete "s0"]

def secret : Secret := ⟨"s1", "u", "o", ⟨"name", "type", "data", []⟩⟩

theorem represents : Assoc.Rel (Represents fun _ => key) (store record).rows entries := by
  refine .cons ⟨⟨_, rfl, rfl⟩, ⟨"s0", "u", "o", ⟨none, none, none, none⟩, aes256Gcm,
    KeyEncoding.utf8.label, 1, none, none⟩, ?_, ?_⟩ .nil
  · exact recordOf_eq_ok_iff.mp rfl
  · refine ⟨rfl, rfl, rfl, rfl, ?_⟩
    rintro (_ | _ | _ | _) <;> exact .none

theorem isEncodable : ∀ call ∈ calls, call.IsEncodable := by
  have hdraft (a : Attribute) : (draft.texts.get a).IsEncodable := by
    cases a <;> decide
  have hchanges (a : Attribute) (t : Text) (h : changes.get a = some t) : t.IsEncodable := by
    cases a <;> cases h
    decide
  simp only [calls, List.forall_mem_cons]
  exact ⟨hdraft, hdraft, trivial, hchanges, hchanges, trivial, trivial, trivial, trivial, trivial,
    List.forall_mem_nil _⟩

example (record : OrgKeyRecord) :
    (PlainStore.runAll calls ((store record).plain entries)).map (·.1) =
      [.ok (.id "s1"), .error (.vault .organizationKeyNotFound), .error (.vault .secretNotFound),
        .error (.vault .versionConflict), .ok (.id "s1"), .ok (.secret secret),
        .error (.vault .authenticationFailure), .ok (.secrets [secret]), .ok (.id "s0"),
        .error (.vault .secretNotFound)] := by
  cbv

end Shelf

/-- The hypotheses hold of a store with a legacy row, and calls end in it in many ways. -/
theorem shelf_refines : ∃ record, OrgKey.Wraps Shelf.key Shelf.key record ∧
    List.Forall₂
      (fun o x => Agrees o.1 x.1 ∧
        Assoc.Rel (Decrypts fun _ => Shelf.key) o.2.rows x.2.entries)
      (Call.runAll Shelf.key.bytes Shelf.calls (Shelf.store record))
      (PlainStore.runAll Shelf.calls ((Shelf.store record).plain Shelf.entries)) := by
  obtain ⟨record, hrecord⟩ := OrgKey.exists_wraps Shelf.key Shelf.key
  have hkeys (org : Text) (found : OrgKeyRecord)
      (h : (Shelf.store record).keys.get? org = some found) :
      OrgKey.Wraps Shelf.key Shelf.key found := by
    obtain ⟨-, rfl⟩ := Prod.mk.inj (List.mem_singleton.mp (Assoc.mem_of_get? h))
    exact hrecord
  exact ⟨record, hrecord, vault_refines_plain_store Shelf.key (fun _ => Shelf.key)
    (Shelf.store record) Shelf.entries hkeys Shelf.represents Shelf.calls Shelf.isEncodable⟩

end EnvelopeVault
