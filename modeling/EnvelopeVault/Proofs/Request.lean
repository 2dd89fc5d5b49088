import EnvelopeVault.Proofs.Vault

/-!
# What requests access

A request makes one write at most, the one that it is for. All requests but
updates are `Brief`: apart from key lookups they access the store once.
-/

namespace EnvelopeVault.Request

def reader? : Request → Option Value
  | .get _ org => some org
  | .list org _ => some org
  | .update _ _ org _ => some org
  | _ => none

def MayAccess (r : Request) : Access → Prop
  | .insert row => (∃ secret org user, r = .create secret org user) ∧
      row.get? "id" = none ∧ row.get? "version" = none
  | .update secret columns expected => (∃ changes org, r = .update secret changes org expected) ∧
      ∃ fields : Assoc Field, fields.names.Nodup ∧ columns = Layout.columnsOf fields
  | .delete secret => r = .delete secret
  | _ => True

variable {r : Request} {a : Access}

theorem MayAccess.isOrderly (h : r.MayAccess a) : a.IsOrderly := by
  cases a with
  | insert row => exact h.2
  | update secret columns expected => exact h.2
  | _ => trivial

theorem mayAccess_of_lookup (h : a.IsLookup) : r.MayAccess a := by
  obtain ⟨org, rfl⟩ := h
  trivial

def IsUpdate (r : Request) : Prop := ∃ secret changes org expected,
  r = .update secret changes org expected

theorem brief (root : Bytes) (h : ¬ r.IsUpdate) : (r.program root).Brief r.MayAccess := by
  cases r with
  | create secret org user =>
    refine .ofExcept_bind fun draft => ?_
    refine ((Vault.create_brief root draft org user).mono ?_).bind fun _ => trivial
    rintro _ ⟨row, rfl, hrow⟩
    exact ⟨⟨_, _, _, rfl⟩, hrow⟩
  | get secret org =>
    refine ((Vault.get_brief root secret org).mono ?_).bind fun _ => trivial
    rintro _ rfl
    trivial
  | list org user =>
    refine ((Vault.list_brief root org user).mono ?_).bind fun _ => trivial
    rintro _ rfl
    trivial
  | update secret changes org expected => exact absurd ⟨_, _, _, _, rfl⟩ h
  | delete secret =>
    refine ((Vault.delete_brief secret).mono ?_).bind fun _ => trivial
    rintro _ rfl
    rfl
  | resolve org =>
    exact .of_lookups ((Vault.resolve_lookups root org).bind_any fun _ => trivial)

/-- A request for an update fails at once, or is an update that writes something. -/
theorem update_program (root : Bytes) (secret given org : Value) (expected : Option Value) :
    (∃ e, (Request.update secret given org expected).program root = .done (.error e) ∧
      e.IsNeutral) ∨
    ∃ changes : Changes, changes.provided.isEmpty = false ∧
      (Request.update secret given org expected).program root =
        (Vault.update root secret changes org expected).bind fun t => .done (.ok (.id t)) := by
  cases hread : Failure.ofChecked Changes.modelName (Changes.read given) with
  | error e =>
    refine .inl ⟨e, by rw [program, hread]; rfl, ?_⟩
    unfold Failure.ofChecked at hread
    split at hread <;> cases hread
    exact .of_foreign rfl
  | ok changes =>
    have hprogram : (Request.update secret given org expected).program root =
        (Vault.update root secret changes org expected).bind fun t => .done (.ok (.id t)) := by
      rw [program, hread]
      rfl
    cases hp : changes.provided.isEmpty with
    | true =>
      have hfail : (Request.update secret given org expected).program root =
          .done (.error (.vault
            { cause := .nothingProvided
              operation := .text Vault.updateOperation
              secretId := secret
              orgId := org })) := by
        rw [hprogram, Vault.update, if_pos hp]
        rfl
      exact .inl ⟨_, hfail, .of_vault rfl⟩
    | false => exact .inr ⟨changes, hp, hprogram⟩

theorem update_ensures (root : Bytes) (secret given org : Value) (expected : Option Value) :
    ((Request.update secret given org expected).program root).Ensures
      (MayAccess (.update secret given org expected)) fun _ => True := by
  rcases update_program root secret given org expected with
    ⟨e, hprogram, -⟩ | ⟨changes, hp, hprogram⟩
  · rw [hprogram]
    trivial
  rw [hprogram, Vault.update_eq hp]
  refine Program.Ensures.bind_any ⟨trivial, fun found => ?_⟩ fun _ => trivial
  unfold Vault.proceed
  split
  · trivial
  rw [Vault.writeChanges_eq]
  refine ((Vault.sealChanges_ensures root changes ⟨org, rfl⟩).mono
    (fun a => mayAccess_of_lookup) fun _ h => h).bind (fun _ _ => trivial) fun fields hf => ?_
  refine ⟨⟨⟨_, _, rfl⟩, fields, hf, rfl⟩, fun answer => ?_⟩
  cases answer with
  | none =>
    rw [Vault.conclude, Vault.refused_eq]
    exact ⟨trivial, fun _ => trivial⟩
  | some row => trivial

theorem ensures (root : Bytes) (r : Request) :
    (r.program root).Ensures r.MayAccess fun _ => True := by
  by_cases h : r.IsUpdate
  · obtain ⟨secret, changes, org, expected, rfl⟩ := h
    exact update_ensures root secret changes org expected
  · exact (brief root h).ensures (fun a => mayAccess_of_lookup) fun _ ha => ha

end EnvelopeVault.Request
