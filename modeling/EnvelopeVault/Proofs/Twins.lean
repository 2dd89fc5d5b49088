import Mathlib.Data.List.Forall2
import EnvelopeVault.Proofs.OrgKey
import EnvelopeVault.Proofs.Vault

/-!
# Rows that differ in what is sealed

`TwinRows` ties two rows that are the same but for some ciphertexts and tags:
those of fields that hold two texts under the key of the owner and one nonce.
Reading twins gives twin records or the same failure (`recordOf_twins`), they
are selected alike (`select_twins`), and inserts and updates with texts sealed
side by side make twins again (`TwinRows.inserted`, `TwinRows.overlay`).
-/

namespace EnvelopeVault

open FieldCipher Layout

-- ---------------------------------------------------------------------------
-- Results side by side
-- ---------------------------------------------------------------------------

/-- Two values that `R` relates, or one failure. -/
inductive Concurs {α β : Type} (R : α → β → Prop) : Except Failure α → Except Failure β → Prop
  | ok {a : α} {b : β} (h : R a b) : Concurs R (.ok a) (.ok b)
  | error (e : Failure) : Concurs R (.error e) (.error e)

namespace Concurs

variable {α β γ δ : Type} {R : α → β → Prop} {S : γ → δ → Prop} {x : Except Failure α}
  {y : Except Failure β}

theorem refl {R : α → α → Prop} (h : ∀ a, R a a) : Concurs R x x := by
  cases x with
  | ok a => exact .ok (h a)
  | error e => exact .error e

theorem bind {f : α → Except Failure γ} {g : β → Except Failure δ} (h : Concurs R x y)
    (hf : ∀ a b, R a b → Concurs S (f a) (g b)) : Concurs S (x >>= f) (y >>= g) := by
  cases h with
  | ok h => exact hf _ _ h
  | error e => exact .error e

theorem bind_same {f : α → Except Failure γ} {g : α → Except Failure δ}
    (hf : ∀ a, x = .ok a → Concurs S (f a) (g a)) : Concurs S (x >>= f) (x >>= g) := by
  cases x with
  | ok a => exact hf a rfl
  | error e => exact .error e

theorem of_left (h : Concurs R x y) : Concurs (fun a b => x = .ok a ∧ R a b) x y := by
  cases h with
  | ok h => exact .ok ⟨rfl, h⟩
  | error e => exact .error e

theorem mono {R' : α → β → Prop} (h : Concurs R x y) (hR : ∀ a b, R a b → R' a b) :
    Concurs R' x y := by
  cases h with
  | ok h => exact .ok (hR _ _ h)
  | error e => exact .error e

end Concurs

namespace Checked

inductive Rel {α β : Type} (R : α → β → Prop) : Checked α → Checked β → Prop
  | ok {a : α} {b : β} (h : R a b) : Rel R (.ok a) (.ok b)
  | faulty (faults : List Fault) : Rel R (.faulty faults) (.faulty faults)

namespace Rel

variable {α β γ : Type} {R : β → γ → Prop}

theorem map_same {f : α → β} {g : α → γ} (h : ∀ a, R (f a) (g a)) (c : Checked α) :
    Rel R (f <$> c) (g <$> c) := by
  cases c with
  | ok a => exact .ok (h a)
  | faulty faults => exact .faulty faults

theorem seq_same {f : Checked (α → β)} {g : Checked (α → γ)}
    (h : Rel (fun f g => ∀ a, R (f a) (g a)) f g) (c : Checked α) : Rel R (f <*> c) (g <*> c) := by
  cases h with
  | ok h =>
    cases c with
    | ok a => exact .ok (h a)
    | faulty faults => exact .faulty faults
  | faulty faults => cases c <;> exact .faulty _

theorem ofChecked {c : Checked β} {d : Checked γ} (h : Rel R c d) (model : Text) :
    Concurs R (Failure.ofChecked model c) (Failure.ofChecked model d) := by
  cases h with
  | ok h => exact .ok h
  | faulty faults => exact .error _

end Rel
end Checked

-- ---------------------------------------------------------------------------
-- Fields side by side
-- ---------------------------------------------------------------------------

def IsKeyOf (root : Bytes) (keys : Assoc OrgKeyRecord) (org : Text) (key : Key) : Prop :=
  ∃ record, keys.get? org = some record ∧ OrgKey.Opens root record key.bytes

theorem IsKeyOf.unique (h : IsKeyOf root keys org key) (h' : IsKeyOf root keys org key') :
    key = key' := by
  obtain ⟨record, hrecord, ho⟩ := h
  obtain ⟨record', hrecord', ho'⟩ := h'
  cases hrecord.symm.trans hrecord'
  have hbytes := ho.unique ho'
  cases key
  cases key'
  simp_all

/-- Two texts sealed under one key and one nonce. -/
def SealPair (key : Key) (f f' : Field) : Prop :=
  ∃ nonce t t', encryptWith key nonce t = .ok f ∧ encryptWith key nonce t' = .ok f'

theorem SealPair.iv (h : SealPair key f f') : f'.iv = f.iv := by
  obtain ⟨nonce, t, t', hf, hf'⟩ := h
  rw [iv_of_encryptWith hf, iv_of_encryptWith hf']

theorem SealPair.seals (h : SealPair key f f') :
    ∃ t t', Seals key f t ∧ Seals key f' t' := by
  obtain ⟨nonce, t, t', hf, hf'⟩ := h
  exact ⟨t, t', ⟨nonce, hf⟩, ⟨nonce, hf'⟩⟩

/-- The same field, or two texts under the organization's key. -/
def TwinFields (root : Bytes) (keys : Assoc OrgKeyRecord) (org : Text) (x x' : Option Field) :
    Prop :=
  x' = x ∨ ∃ key f f', IsKeyOf root keys org key ∧ SealPair key f f' ∧ x = some f ∧ x' = some f'

structure TwinRecords (root : Bytes) (keys : Assoc OrgKeyRecord) (r r' : SecretRecord) : Prop where
  id : r'.id = r.id
  user : r'.userId = r.userId
  org : r'.orgId = r.orgId
  algorithm : r'.algorithm = r.algorithm
  version : r'.version = r.version
  fields : ∀ a, TwinFields root keys r.orgId (r.fields.get a) (r'.fields.get a)

-- ---------------------------------------------------------------------------
-- Rows side by side
-- ---------------------------------------------------------------------------

/-- A column for the ciphertext or the tag of one of the fields that were written. -/
def IsVeiled (written : List (Text × Attribute)) (id name : Text) : Prop :=
  ∃ a part, (id, a) ∈ written ∧ part ≠ Part.iv ∧ name = column a.name part

def Veils (written : List (Text × Attribute)) (id name : Text) (v v' : Value) : Prop :=
  v' = v ∨ IsVeiled written id name

def HoldsField (row : Row) (a : Attribute) (f : Field) : Prop :=
  ∀ part, row.get? (column a.name part) = some (.text (f.get part))

/-- Rows that differ in ciphertexts and tags of fields that were written, where every field is
either the same or two texts under the owner's key. -/
structure TwinRows (root : Bytes) (keys : Assoc OrgKeyRecord) (written : List (Text × Attribute))
    (id : Text) (row row' : Row) : Prop where
  cells : Assoc.Rel (Veils written id) row row'
  fields : ∀ a,
    (∀ part, row'.get? (column a.name part) = row.get? (column a.name part)) ∨
    ∃ owner key f f', row.get? "orgId" = some owner ∧ IsKeyOf root keys owner.toText key ∧
      SealPair key f f' ∧ HoldsField row a f ∧ HoldsField row' a f'

variable {root : Bytes} {keys : Assoc OrgKeyRecord} {written : List (Text × Attribute)}
  {id org : Text} {row row' : Row}

theorem IsVeiled.mono {more : List (Text × Attribute)} {name : Text}
    (h : IsVeiled written id name) (hm : ∀ w ∈ written, w ∈ more) : IsVeiled more id name := by
  obtain ⟨a, part, ha, hpart, hname⟩ := h
  exact ⟨a, part, hm _ ha, hpart, hname⟩

namespace TwinRows

theorem refl (row : Row) : TwinRows root keys written id row row :=
  ⟨.refl (fun _ _ => .inl rfl) row, fun _ => .inl fun _ => rfl⟩

theorem mono {more : List (Text × Attribute)} (h : TwinRows root keys written id row row')
    (hm : ∀ w ∈ written, w ∈ more) : TwinRows root keys more id row row' where
  cells := h.cells.mono fun _ _ _ hv => hv.imp_right (·.mono hm)
  fields := h.fields

theorem plain {name : Text} (h : TwinRows root keys written id row row') (hn : isPlain name) :
    row'.get? name = row.get? name := by
  have hcell := h.cells.get? name
  generalize row.get? name = v? at hcell ⊢
  generalize row'.get? name = v'? at hcell ⊢
  cases hcell with
  | none => rfl
  | some hv =>
    rcases hv with rfl | ⟨a, part, -, -, rfl⟩
    · rfl
    · exact absurd rfl (ne_column hn)

theorem cellOf_plain {name : Text} (h : TwinRows root keys written id row row')
    (hn : isPlain name) : cellOf (.map row') name = cellOf (.map row) name := by
  simp only [cellOf, cell, h.plain hn]

theorem fieldOf_twins (h : TwinRows root keys written id row row') {owner : Value}
    (howner : row.get? "orgId" = some owner) (reported : Text) (a : Attribute) :
    Concurs (TwinFields root keys owner.toText) (fieldOf (.map row) reported a)
      (fieldOf (.map row') reported a) := by
  rcases h.fields a with hsame | ⟨owner', key, f, f', howner', hkey, hseal, hf, hf'⟩
  · have heq : fieldOf (.map row') reported a = fieldOf (.map row) reported a := by
      simp only [fieldOf, partsOf, cellOf, cell, hsame]
    rw [heq]
    exact .refl fun _ => .inl rfl
  · cases howner.symm.trans howner'
    rw [fieldOf_eq_ok_iff.mpr (.texts hf), fieldOf_eq_ok_iff.mpr (.texts hf')]
    exact .ok (.inr ⟨key, f, f', hkey, hseal, rfl, rfl⟩)

theorem recordOf_twins (h : TwinRows root keys written id row row') :
    Concurs (TwinRecords root keys) (recordOf (.map row)) (recordOf (.map row')) := by
  have hplain {name : Text} (hn : isPlain name) := h.cellOf_plain hn
  rw [recordOf, recordOf, hplain (by decide), hplain (by decide), hplain (by decide),
    hplain (by decide), hplain (by decide), hplain (by decide), hplain (by decide),
    hplain (by decide)]
  refine .bind_same fun id _ => .bind_same fun user _ => .bind_same fun owner howner => ?_
  have howner : row.get? "orgId" = some owner := cell_eq_ok_iff.mp howner
  refine .bind_same fun algorithm _ => .bind_same fun encoding _ => .bind_same fun version _ =>
    .bind_same fun created _ => .bind_same fun updated _ => ?_
  refine (h.fieldOf_twins howner _ .title).bind fun title title' htitle => ?_
  refine (h.fieldOf_twins howner _ .type).bind fun type type' htype => ?_
  refine (h.fieldOf_twins howner _ .data).bind fun data data' hdata => ?_
  refine (h.fieldOf_twins howner _ .comment).bind fun comment comment' hcomment => ?_
  refine Checked.Rel.ofChecked (.seq_same (.seq_same (.seq_same (.seq_same (.map_same
    (fun algorithm encoding version created updated => ?_) _) _) _) _) _) _
  refine ⟨rfl, rfl, rfl, rfl, rfl, ?_⟩
  rintro (_ | _ | _ | _)
  · exact htitle
  · exact htype
  · exact hdata
  · exact hcomment

-- ---------------------------------------------------------------------------
-- Selecting
-- ---------------------------------------------------------------------------

theorem hasData_twins (h : TwinRows root keys written id row row') :
    Memory.hasData row' = Memory.hasData row := by
  rcases h.fields .data with hsame | ⟨-, -, f, f', -, -, -, hf, hf'⟩
  · simp only [Memory.hasData, cell, hsame .ciphertext]
  · simp only [Memory.hasData, cell, hf .ciphertext, hf' .ciphertext]
    rfl

theorem isSelected_twins (h : TwinRows root keys written id row row') (org user : Text)
    (requireData : Bool) :
    Memory.isSelected org user requireData row' = Memory.isSelected org user requireData row := by
  have howned : Memory.isOwnedBy org user row' = Memory.isOwnedBy org user row := by
    have horg : row'.get? "orgId" = row.get? "orgId" := h.plain (by decide)
    have huser : row'.get? "userId" = row.get? "userId" := h.plain (by decide)
    simp only [Memory.isOwnedBy, cell, horg, huser]
  simp only [Memory.isSelected, howned, h.hasData_twins]

end TwinRows

theorem Memory.owner_of_isSelected (h : isSelected org user requireData row = .ok true) :
    Holds row "orgId" fun owner => owner.toText = org := by
  obtain ⟨owned, howned, hdata⟩ := bind_ok.mp h
  obtain ⟨owner, howner, hmember⟩ := bind_ok.mp howned
  refine ⟨owner, cell_eq_ok_iff.mp howner, ?_⟩
  by_cases ho : owner.toText = org
  · exact ho
  · rw [if_neg ho] at hmember
    cases hmember
    cases hdata

def OwnTwins (root : Bytes) (keys : Assoc OrgKeyRecord) (written : List (Text × Attribute))
    (org : Text) (row row' : Row) : Prop :=
  (∃ id, TwinRows root keys written id row row') ∧ Holds row "orgId" fun owner => owner.toText = org

theorem select_twins {rows rows' : Assoc Row}
    (h : Assoc.Rel (TwinRows root keys written) rows rows') (org user : Text)
    (requireData : Bool) :
    Concurs (List.Forall₂ (OwnTwins root keys written org))
      (Memory.select org user requireData (rows.map (·.2)))
      (Memory.select org user requireData (rows'.map (·.2))) := by
  induction h with
  | nil => exact .ok .nil
  | @cons id row row' rows rows' head tail ih =>
    simp only [List.map_cons, Memory.select, head.isSelected_twins]
    refine .bind_same fun selected hselected => ih.bind fun rest rest' hrest => .ok ?_
    cases selected with
    | true => exact .cons ⟨⟨id, head⟩, Memory.owner_of_isSelected hselected⟩ hrest
    | false => exact hrest

-- ---------------------------------------------------------------------------
-- Writing
-- ---------------------------------------------------------------------------

def SealedFields (P : Attribute → Prop) (key : Key) (fields fields' : Assoc Field) : Prop :=
  Assoc.Rel (fun name f f' => (∃ a, name = a.name ∧ P a) ∧ SealPair key f f') fields fields'

section Writing

variable {P : Attribute → Prop} {key : Key} {fields fields' : Assoc Field}

theorem SealedFields.columns (h : SealedFields P key fields fields')
    (hP : ∀ a, P a → (id, a) ∈ written) :
    Assoc.Rel (Veils written id) (columnsOf fields) (columnsOf fields') := by
  refine .putAll .nil ?_
  induction h with
  | nil => exact .nil
  | @cons name f f' fields fields' head tail ih =>
    obtain ⟨⟨a, rfl, ha⟩, hseal⟩ := head
    refine .append (.cons ?_ (.cons ?_ (.cons ?_ .nil))) ih
    · exact .inr ⟨a, .ciphertext, hP a ha, nofun, rfl⟩
    · exact .inl (congrArg Value.text hseal.iv)
    · exact .inr ⟨a, .tag, hP a ha, nofun, rfl⟩

theorem SealedFields.get? (h : SealedFields P key fields fields') (a : Attribute) :
    (fields.get? a.name = none ∧ fields'.get? a.name = none) ∨
      ∃ f f', fields.get? a.name = some f ∧ fields'.get? a.name = some f' ∧ SealPair key f f' := by
  have hf := Assoc.Rel.get? h a.name
  generalize fields.get? a.name = f? at hf ⊢
  generalize fields'.get? a.name = f'? at hf ⊢
  cases hf with
  | none => exact .inl ⟨rfl, rfl⟩
  | some hf => exact .inr ⟨_, _, rfl, rfl, hf.2⟩

variable (h : SealedFields P key fields fields') (hn : fields.names.Nodup)
  (hP : ∀ a, P a → (id, a) ∈ written)
include h hn hP

theorem TwinRows.overlay {owner : Value} (hrow : TwinRows root keys written id row row')
    (howner : row.get? "orgId" = some owner) (hkey : IsKeyOf root keys owner.toText key)
    (version : Int) :
    TwinRows root keys written id (overlay row fields version) (overlay row' fields' version) := by
  have hn' : fields'.names.Nodup := Assoc.Rel.names_eq h ▸ hn
  refine ⟨(hrow.cells.putAll (h.columns hP)).put (.inl rfl), fun a => ?_⟩
  have hplain : (Layout.overlay row fields version).get? "orgId" = row.get? "orgId" :=
    overlay_plain hn row version "orgId" (by decide) (by decide)
  -- fields that are not changed are twins as before, changed ones are sealed under the key at hand
  rcases h.get? a with ⟨hf, hf'⟩ | ⟨f, f', hf, hf', hseal⟩
  · have hold (part : Part) : (Layout.overlay row fields version).get? (column a.name part) =
        row.get? (column a.name part) := by
      rw [get?_overlay_column hn, hf]
      rfl
    have hold' (part : Part) : (Layout.overlay row' fields' version).get? (column a.name part) =
        row'.get? (column a.name part) := by
      rw [get?_overlay_column hn', hf']
      rfl
    simp only [HoldsField, hold, hold', hplain]
    exact hrow.fields a
  · refine .inr ⟨owner, key, f, f', hplain.trans howner, hkey, hseal, fun part => ?_,
      fun part => ?_⟩
    · rw [get?_overlay_column hn, hf]
      rfl
    · rw [get?_overlay_column hn', hf']
      rfl

theorem TwinRows.inserted (hall : ∀ a : Attribute, a.name ∈ fields.names)
    (hkey : IsKeyOf root keys org key) (user : Text) (new : Value) :
    TwinRows root keys written id
      (Memory.insertedRow new (Vault.newRow (.text org) (.text user) fields))
      (Memory.insertedRow new (Vault.newRow (.text org) (.text user) fields')) := by
  have hn' : fields'.names.Nodup := Assoc.Rel.names_eq h ▸ hn
  have same : ∀ (name : Text) (v : Value), Veils written id name v v := fun _ _ => .inl rfl
  refine ⟨?_, fun a => ?_⟩
  · exact ((Assoc.Rel.refl same _).putAll ((Assoc.Rel.refl same _).putAll
      ((h.columns hP).append (.refl same _)))).put (same _ _)
  · have howner : (Memory.insertedRow new (Vault.newRow (.text org) (.text user) fields)).get?
        "orgId" = some (.text org) :=
      Vault.get?_inserted_plain hn _ _ new (by decide) (by decide)
    rcases h.get? a with ⟨hf, -⟩ | ⟨f, f', hf, hf', hseal⟩
    · exact absurd (hall a) (Assoc.get?_eq_none_iff.mp hf)
    · refine .inr ⟨.text org, key, f, f', howner, hkey, hseal, fun part => ?_, fun part => ?_⟩
      · rw [Vault.get?_inserted_column hn, hf]
        rfl
      · rw [Vault.get?_inserted_column hn', hf']
        rfl

end Writing
end EnvelopeVault
