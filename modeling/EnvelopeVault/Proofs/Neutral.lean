import EnvelopeVault.Proofs.Failures

/-!
# Failures that say nothing about a secret

Only the vault's own checks report that a secret is not found or at another
version. Rows that cannot be read, keys that cannot be unwrapped, texts that
cannot be encrypted and faults of the store all fail in other ways, as the list
of the failures of each shows.
-/

namespace EnvelopeVault

def Failure.IsNeutral (e : Failure) : Prop := e.kind? ≠ some .secretNotFound ∧ ¬ e.IsConflict

theorem Failure.IsNeutral.of_foreign (h : IsForeign e) : IsNeutral e := by
  have hreason : reason? e = none := h
  simp [IsNeutral, IsConflict, h.kind?, hreason]

theorem Failure.IsNeutral.of_vault {f : VaultFailure}
    (h : (f.kind != .secretNotFound && f.kind != .versionConflict) = true) :
    IsNeutral (.vault f) := by
  simpa [IsNeutral, IsConflict, reason?, Failure.kind?] using h

def Neutral (R : α → Prop) : Except Failure α → Prop
  | .ok a => R a
  | .error e => e.IsNeutral

abbrev FailsNeutrally (x : Except Failure α) : Prop := Neutral (fun _ => True) x

theorem FailsNeutrally.error {x : Except Failure α} (hx : FailsNeutrally x) (h : x = .error e) :
    e.IsNeutral := by
  rw [h] at hx
  exact hx

variable {E : Failure → Prop} {R : α → Prop}

theorem Ends.neutral {x : Except Failure α} (hx : Ends E R x) (h : ∀ e, E e → e.IsNeutral) :
    Neutral R x := by
  cases x with
  | ok a => exact hx
  | error e => exact h e hx

theorem Program.Ensures.neutral {p : Program α} (hp : p.Ensures P (Ends E R))
    (h : ∀ e, E e → e.IsNeutral) : p.Ensures P (Neutral R) :=
  hp.mono (fun _ ha => ha) fun _ hx => hx.neutral h

-- ---------------------------------------------------------------------------
-- Keys, rows and the store in memory
-- ---------------------------------------------------------------------------

theorem OrgKey.Unresolved.isNeutral (h : Unresolved org e) : e.IsNeutral := by
  cases h with
  | absent => exact .of_vault rfl
  | unsupported label => exact .of_vault rfl
  | unauthentic cause hk => exact .of_vault (by simp [VaultFailure.kind, hk])
  | foreign hforeign => exact .of_foreign hforeign

namespace Layout

theorem Unreadable.isNeutral (h : Unreadable row e) : e.IsNeutral := by
  cases h with
  | incomplete cells id a => exact .of_vault rfl
  | foreign hforeign => exact .of_foreign hforeign

theorem cellOf_neutral (row : Value) (name : Text) : FailsNeutrally (cellOf row name) :=
  (cellOf_fails row name).neutral fun _ => .of_foreign

theorem recordOf_neutral (row : Value) : FailsNeutrally (recordOf row) :=
  (recordOf_fails row).neutral fun _ => Unreadable.isNeutral

end Layout

theorem Memory.answer_neutral (a : Access) (m : Memory) : FailsNeutrally (answer a m).1 :=
  (answer_fails a m).neutral fun _ => .of_foreign

end EnvelopeVault
