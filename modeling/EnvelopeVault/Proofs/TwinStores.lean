import EnvelopeVault.Proofs.Coupling
import EnvelopeVault.Proofs.Twins

/-!
# Runs on stores of twins

Texts are sealed side by side and twin records are opened side by side, with the
same lines and failures. Two stores that are the same but for twin rows
(`TwinStores`) answer what a call reads with twins.
-/

namespace EnvelopeVault

open FieldCipher Layout Program

-- ---------------------------------------------------------------------------
-- Sealing and opening side by side
-- ---------------------------------------------------------------------------

structure Secret.SameButTexts (s s' : Secret) : Prop where
  id : s'.id = s.id
  user : s'.userId = s.userId
  org : s'.orgId = s.orgId

namespace Program.Couples

variable {R : Memory → Memory → Prop} {α β : Type}

theorem ofExcept {S : α → β → Prop} {x : Except Failure α} {y : Except Failure β}
    (h : Concurs S x y) :
    Couples R (.ofExcept x) (.ofExcept y) (fun a b m m' => S a b ∧ R m m') R := by
  cases h with
  | ok h => exact .done_ok fun _ _ hR => ⟨h, hR⟩
  | error e => exact .done_error fun _ _ hR => hR

end Program.Couples

section Sealing

variable {R : Memory → Memory → Prop} (hd : DrawsAlike R R) {root : Bytes}
  {keys : Assoc OrgKeyRecord} {key : Key} {r r' : SecretRecord}
include hd

theorem couples_encryptAll {P : Attribute → Prop} {texts texts' : Assoc Text}
    (h : Assoc.Rel (fun name t t' => (∃ a, name = a.name ∧ P a) ∧ t.IsEncodable ∧ t'.IsEncodable)
      texts texts') :
    Couples R (Sealing.encryptAll key.bytes texts) (Sealing.encryptAll key.bytes texts')
      (fun fields fields' m m' =>
        (Assoc.names fields = texts.names ∧ SealedFields P key fields fields') ∧ R m m') R := by
  induction h with
  | nil => exact .done_ok fun _ _ hR => ⟨⟨rfl, .nil⟩, hR⟩
  | @cons name t t' texts texts' head tail ih =>
    obtain ⟨hname, ht, ht'⟩ := head
    have hseal : Couples R (Sealing.encrypt key.bytes t) (Sealing.encrypt key.bytes t')
        (fun f f' m m' => SealPair key f f' ∧ R m m') R := by
      rw [encrypt_eq_draw, encrypt_eq_draw]
      refine .draw hd fun nonce => ?_
      obtain ⟨f, hf⟩ := exists_encryptWith key nonce ht
      obtain ⟨f', hf'⟩ := exists_encryptWith key nonce ht'
      rw [hf, hf']
      exact .done_ok fun _ _ hR => ⟨⟨nonce, t, t', hf, hf'⟩, hR⟩
    refine hseal.bind fun f f' => .assume fun hpair => ?_
    refine ih.bind fun fields fields' => .assume fun hfields => ?_
    obtain ⟨hnames, hrel⟩ := hfields
    exact .done_ok fun _ _ hR => ⟨⟨congrArg (name :: ·) hnames, .cons ⟨hname, hpair⟩ hrel⟩, hR⟩

theorem couples_openOrBlame (h : TwinRecords root keys r r')
    (hkey : IsKeyOf root keys r.orgId key) (a : Attribute) :
    Couples R (Sealing.openOrBlame key.bytes r a) (Sealing.openOrBlame key.bytes r' a)
      (fun _ _ => R) R := by
  rcases h.fields a with hsame | ⟨key', f, f', hkey', hseal, hf, hf'⟩
  · have hopen : Sealing.openAttribute key.bytes r' a = Sealing.openAttribute key.bytes r a := by
      simp only [Sealing.openAttribute, hsame]
    have heq : Sealing.openOrBlame key.bytes r' a = Sealing.openOrBlame key.bytes r a := by
      simp only [Sealing.openOrBlame, Sealing.blame, hopen, h.id, h.org]
    rw [heq]
    refine (Couples.refl (Vault.openOrBlame_ensures (P := fun _ => False) key.bytes r a) hd
      (fun _ => False.elim)).mono (fun _ _ hR => hR) (fun _ _ _ _ hR => hR.2.2) fun _ _ hR => hR
  · cases hkey.unique hkey'
    obtain ⟨t, t', ht, ht'⟩ := hseal.seals
    have hopen : Sealing.openAttribute key.bytes r a = .ok t := by
      rw [Sealing.openAttribute, hf]
      exact seals_iff_decrypt.mp ht
    have hopen' : Sealing.openAttribute key.bytes r' a = .ok t' := by
      rw [Sealing.openAttribute, hf']
      exact seals_iff_decrypt.mp ht'
    rw [Sealing.openOrBlame_ok hopen, Sealing.openOrBlame_ok hopen']
    exact .done_ok fun _ _ hR => hR

theorem couples_decryptRecord (h : TwinRecords root keys r r')
    (hkey : IsKeyOf root keys r.orgId key) :
    Couples R (Sealing.decryptRecord key.bytes r) (Sealing.decryptRecord key.bytes r')
      (fun s s' m m' => s.SameButTexts s' ∧ R m m') R := by
  have opens := couples_openOrBlame hd h hkey
  rw [Sealing.decryptRecord, Sealing.decryptRecord, h.algorithm]
  split
  · refine (opens .title).bind fun _ _ => (opens .type).bind fun _ _ => ?_
    refine (opens .data).bind fun _ _ => (opens .comment).bind fun _ _ => ?_
    exact .done_ok fun _ _ hR => ⟨⟨h.id, h.user, h.org⟩, hR⟩
  · rw [h.id, h.org]
    exact .done_error fun _ _ hR => hR

theorem couples_openRows {written : List (Text × Attribute)} {rows rows' : List Row}
    (h : List.Forall₂ (OwnTwins root keys written org) rows rows')
    (hkey : IsKeyOf root keys org key) :
    Couples R (Vault.openRows key.bytes (rows.map .map)) (Vault.openRows key.bytes (rows'.map .map))
      (fun secrets secrets' m m' => List.Forall₂ Secret.SameButTexts secrets secrets' ∧ R m m')
      R := by
  induction h with
  | nil => exact .done_ok fun _ _ hR => ⟨.nil, hR⟩
  | @cons row row' rows rows' head tail ih =>
    obtain ⟨⟨id, htwins⟩, owner, howner, rfl⟩ := head
    refine (Couples.ofExcept htwins.recordOf_twins.of_left).bind fun r r' => .assume ?_
    rintro ⟨hr, hrr⟩
    obtain ⟨owner', howner', ho⟩ := (recordOf_eq_ok_iff.mp hr).org
    cases howner.symm.trans howner'
    refine (couples_decryptRecord hd hrr (ho ▸ hkey)).bind fun s s' => .assume fun hs => ?_
    refine ih.bind fun ss ss' => .assume fun hss => ?_
    exact .done_ok fun _ _ hR => ⟨.cons hs hss, hR⟩

end Sealing

-- ---------------------------------------------------------------------------
-- Two stores of twins
-- ---------------------------------------------------------------------------

structure Memory.Paired (keys : Assoc OrgKeyRecord) (left right : Assoc Row) (m m' : Memory) :
    Prop where
  rows : m.rows = left
  rows' : m'.rows = right
  records : m.keys = keys
  records' : m'.keys = keys
  plan : m'.plan = m.plan
  planned : m'.planned = m.planned
  nonces : m'.nonces = m.nonces
  lookups : m'.lookups = m.lookups
  writes : m'.writes = m.writes

/-- Twins under the same ids in the same order, with integers as versions. -/
structure TwinTables (root : Bytes) (keys : Assoc OrgKeyRecord) (written : List (Text × Attribute))
    (left right : Assoc Row) : Prop where
  rows : Assoc.Rel (TwinRows root keys written) left right
  versions : ∀ id row, left.get? id = some row → ∃ v : Int, Holds row "version" (· = .int v)

def TwinStores (root : Bytes) (keys : Assoc OrgKeyRecord) (written : List (Text × Attribute))
    (m m' : Memory) : Prop :=
  ∃ left right, TwinTables root keys written left right ∧ Memory.Paired keys left right m m'

variable {root : Bytes} {keys : Assoc OrgKeyRecord} {written : List (Text × Attribute)}
  {left right : Assoc Row} {row row' : Row} {org user secret id : Text}

namespace TwinTables

theorem get? (h : TwinTables root keys written left right) (id : Text) :
    (left.get? id).Rel (TwinRows root keys written id) (right.get? id) := h.rows.get? id

theorem of_get? (h : TwinTables root keys written left right) (hrow : left.get? id = some row) :
    ∃ row', right.get? id = some row' ∧ TwinRows root keys written id row row' := by
  have hget := h.get? id
  rw [hrow] at hget
  generalize right.get? id = row? at hget ⊢
  cases hget with
  | some htwins => exact ⟨_, rfl, htwins⟩

theorem mono {more : List (Text × Attribute)} (h : TwinTables root keys written left right)
    (hm : ∀ w ∈ written, w ∈ more) : TwinTables root keys more left right :=
  ⟨h.rows.mono fun _ _ _ hrow => hrow.mono hm, h.versions⟩

theorem put (h : TwinTables root keys written left right)
    (hrow : TwinRows root keys written id row row') {v : Int}
    (hv : Holds row "version" (· = .int v)) :
    TwinTables root keys written (left.put id row) (right.put id row') where
  rows := h.rows.put hrow
  versions other found hfound := by
    rw [Assoc.get?_put] at hfound
    split at hfound
    · cases hfound
      exact ⟨v, hv⟩
    · exact h.versions other found hfound

theorem erase (h : TwinTables root keys written left right) (id : Text) :
    TwinTables root keys written (left.erase id) (right.erase id) where
  rows := h.rows.erase id
  versions other found hfound := by
    rw [Assoc.get?_erase] at hfound
    split at hfound
    · cases hfound
    · exact h.versions other found hfound

end TwinTables

namespace Memory.Paired

variable {m m' : Memory}

theorem twins (ht : TwinTables root keys written left right) (h : Paired keys left right m m') :
    TwinStores root keys written m m' := ⟨left, right, ht, h⟩

theorem drawsAlike : DrawsAlike (Paired keys left right) (Paired keys left right) := by
  intro m m' h
  exact ⟨congrArg (·.next.1) h.nonces.symm, { h with nonces := congrArg (·.next.2) h.nonces }⟩

theorem couples_resolve (root : Bytes) (org : Text) :
    Couples (Paired keys left right) (OrgKey.resolve root (.text org))
      (OrgKey.resolve root (.text org))
      (fun k k' m m' => (k' = k ∧ ∃ key : Key, k = key.bytes ∧ IsKeyOf root keys org key) ∧
        Paired keys left right m m')
      (Paired keys left right) := by
  have hfind : Couples (Paired keys left right) (.call (.findKey (.text org)))
      (.call (.findKey (.text org)))
      (fun x y m m' => (x = keys.get? org ∧ y = keys.get? org) ∧ Paired keys left right m m')
      (Paired keys left right) := by
    refine .call fun m m' h => ⟨_, _, _, _, rfl, rfl, ⟨?_, ?_⟩, ?_⟩
    · rw [h.records, Value.toText]
    · rw [h.records', Value.toText]
    · exact { h with lookups := congrArg (· + 1) h.lookups }
  refine hfind.access fun x y => .assume ?_
  rintro ⟨rfl, rfl⟩
  cases hrecord : keys.get? org with
  | none => exact .done_error fun _ _ h => h
  | some record =>
    refine (Couples.refl (OrgKey.ofRecord_ensures_opens (P := fun _ => False) root (.text org)
      record) drawsAlike (fun _ => False.elim)).mono (fun _ _ h => h) ?_ fun _ _ h => h
    rintro k k' m m' ⟨rfl, ho, h⟩
    exact ⟨⟨rfl, ⟨k, (ho k rfl).2.2⟩, rfl, record, hrecord, ho k rfl⟩, h⟩

theorem couples_fetch (secret : Text) :
    Couples (Paired keys left right) (.call (.fetch (.text secret)))
      (.call (.fetch (.text secret)))
      (fun x y m m' => (x = (left.get? secret).map .map ∧ y = (right.get? secret).map .map) ∧
        Paired keys left right m m')
      (Paired keys left right) :=
  .call fun m m' h => ⟨_, _, _, _, rfl, rfl, ⟨by rw [h.rows, Value.toText],
    by rw [h.rows', Value.toText]⟩, h⟩

end Memory.Paired

-- ---------------------------------------------------------------------------
-- What a call reads
-- ---------------------------------------------------------------------------

section Reading

variable (h : TwinTables root keys written left right)
include h

theorem ownedRecord_twins (operation secret org : Text) :
    Concurs (fun r r' => r.orgId = org ∧ TwinRecords root keys r r')
      (Vault.ownedRecord operation (.text secret) (.text org) ((left.get? secret).map .map))
      (Vault.ownedRecord operation (.text secret) (.text org) ((right.get? secret).map .map)) := by
  have hrow := h.get? secret
  generalize left.get? secret = row? at hrow ⊢
  generalize right.get? secret = row?' at hrow ⊢
  cases hrow with
  | none => exact .error _
  | @some row row' hrow =>
    have hread : Concurs (TwinRecords root keys)
        (Vault.ownedRecord operation (.text secret) (.text org) (some (.map row)))
        (Vault.ownedRecord operation (.text secret) (.text org) (some (.map row'))) := by
      rw [Vault.ownedRecord, Vault.ownedRecord, hrow.cellOf_plain (by decide)]
      refine .bind_same fun owner _ => ?_
      split
      · exact hrow.recordOf_twins
      · exact .error _
    refine hread.of_left.mono ?_
    rintro r r' ⟨hr, hrr⟩
    exact ⟨(Vault.ownedRecord_eq_ok_iff.mp hr).2, hrr⟩

theorem admits_twins (secret org : Text) (expected : Option Value) :
    Vault.admits (.text secret) (.text org) expected ((right.get? secret).map .map) =
      Vault.admits (.text secret) (.text org) expected ((left.get? secret).map .map) := by
  have hread := ownedRecord_twins h Vault.updateOperation secret org
  rw [Vault.admits, Vault.admits]
  generalize Vault.ownedRecord _ _ _ ((left.get? secret).map .map) = x at hread ⊢
  generalize Vault.ownedRecord _ _ _ ((right.get? secret).map .map) = y at hread ⊢
  cases hread with
  | error e => rfl
  | ok hrr => simp only [Bind.bind, Except.bind, hrr.2.version]

theorem couples_select (org user : Text) :
    Couples (Memory.Paired keys left right) (.call (.fetchFiltered (.text org) (.text user) true))
      (.call (.fetchFiltered (.text org) (.text user) true))
      (fun x y m m' => (∃ rows rows' : List Row, x = rows.map .map ∧ y = rows'.map .map ∧
        List.Forall₂ (OwnTwins root keys written org) rows rows') ∧
        Memory.Paired keys left right m m')
      (Memory.Paired keys left right) := by
  intro m m' hm
  have hselect := select_twins h.rows org user true
  rw [run_call, run_call, Memory.answer_fetchFiltered, Memory.answer_fetchFiltered, hm.rows,
    hm.rows']
  generalize Memory.select org user true (left.map (·.2)) = x at hselect ⊢
  generalize Memory.select org user true (right.map (·.2)) = y at hselect ⊢
  cases hselect with
  | error e => exact .error e [] hm
  | ok hrows => exact .ok [] ⟨⟨_, _, rfl, rfl, hrows⟩, hm⟩

theorem couples_get (secret org : Text) :
    Couples (Memory.Paired keys left right) (Vault.get root (.text secret) (.text org))
      (Vault.get root (.text secret) (.text org))
      (fun s s' m m' => s.SameButTexts s' ∧ Memory.Paired keys left right m m')
      (Memory.Paired keys left right) := by
  rw [Vault.get, Vault.fetchOwned_eq]
  refine (Memory.Paired.couples_fetch secret).access fun x y => .assume ?_
  rintro ⟨rfl, rfl⟩
  refine (Couples.ofExcept (ownedRecord_twins h _ secret org)).bind fun r r' => .assume ?_
  rintro ⟨ho, hrr⟩
  refine (Memory.Paired.couples_resolve root org).bind fun k k' => .assume ?_
  rintro ⟨rfl, key, rfl, hkey⟩
  exact couples_decryptRecord Memory.Paired.drawsAlike hrr (ho ▸ hkey)

theorem couples_list (org user : Text) :
    Couples (Memory.Paired keys left right) (Vault.list root (.text org) (.text user))
      (Vault.list root (.text org) (.text user))
      (fun ss ss' m m' => List.Forall₂ Secret.SameButTexts ss ss' ∧
        Memory.Paired keys left right m m')
      (Memory.Paired keys left right) := by
  rw [Vault.list]
  refine (Memory.Paired.couples_resolve root org).bind fun k k' => .assume ?_
  rintro ⟨rfl, key, rfl, hkey⟩
  refine (couples_select h org user).bind fun x y => .assume ?_
  rintro ⟨rows, rows', rfl, rfl, hrows⟩
  refine (couples_openRows Memory.Paired.drawsAlike hrows hkey).bind fun ss ss' =>
    .assume fun hss => ?_
  rw [hss.length_eq]
  exact .note (.done_ok fun _ _ hm => ⟨hss, hm⟩) _

end Reading

end EnvelopeVault
