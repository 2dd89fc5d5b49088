import EnvelopeVault.Proofs.Effect
import EnvelopeVault.Proofs.World
import EnvelopeVault.Request
import Mathlib.Logic.Function.Basic

/-!
# Interleaved runs

Any number of callers share a store. Each has a program and nonces of its own,
and in one step of a run one of them makes its next access, whole. Steps come in
any order; the one thing asked of a run is that an insert gives an id that no
row ever had.

What is known of every step of a run is collected in `Traced`: the store stays
sound, and it evolves from one access to the next.
-/

namespace EnvelopeVault
namespace Program

variable {α : Type} {m : Memory}

-- ---------------------------------------------------------------------------
-- Steps of one program
-- ---------------------------------------------------------------------------

/-- The next access of a program, with what the program goes on with after it. -/
def step? (m : Memory) : Program α → Nonces → Option (Access × Program α × Nonces)
  | .done _, _ => none
  | .note _ next, nonces => next.step? m nonces
  | .draw next, nonces => (next nonces.next.1).step? m nonces.next.2
  | .access a next, nonces =>
    match (Memory.answer a m).1 with
    | .ok answer => some (a, next answer, nonces)
    | .error e => some (a, .done (.error e), nonces)

def result? : Program α → Nonces → Option (Except Failure α)
  | .done result, _ => some result
  | .note _ next, nonces => next.result? nonces
  | .draw next, nonces => (next nonces.next.1).result? nonces.next.2
  | .access .., _ => none

theorem step?_of_result {p : Program α} (h : p.result? nonces = some r) :
    p.step? m nonces = none := by
  induction p generalizing nonces with
  | done result => rfl
  | note line next ih => exact ih h
  | draw next ih => exact ih _ h
  | access a next ih => cases h

theorem settle_of_result {p : Program α} (h : p.result? nonces = some r)
    (keys : Assoc OrgKeyRecord) : ∃ left, p.settle keys nonces = some (r, left) := by
  induction p generalizing nonces with
  | done result =>
    cases h
    exact ⟨nonces, rfl⟩
  | note line next ih => exact ih h
  | draw next ih => exact ih _ h
  | access a next ih => cases h

theorem settle_step {p : Program α} (hs : p.settle m.keys nonces = some (r, left))
    (h : p.step? m nonces = some (a, p', nonces')) :
    a.IsLookup ∧ p'.settle m.keys nonces' = some (r, left) := by
  induction p generalizing nonces with
  | done result => cases h
  | note line next ih => exact ih hs h
  | draw next ih => exact ih _ hs h
  | access b next ih =>
    cases b with
    | findKey org =>
      cases h
      exact ⟨⟨org, rfl⟩, hs⟩
    | _ => cases hs

theorem Ensures.step {p : Program α} {P : Access → Prop} (hp : p.Ensures P fun _ => True)
    (h : p.step? m nonces = some (a, p', nonces')) : P a ∧ p'.Ensures P fun _ => True := by
  induction p generalizing nonces with
  | done result => cases h
  | note line next ih => exact ih hp h
  | draw next ih => exact ih _ (hp _) h
  | access b next ih =>
    rw [step?] at h
    split at h <;> cases h
    · exact ⟨hp.1, hp.2 _⟩
    · exact ⟨hp.1, trivial⟩

end Program

-- ---------------------------------------------------------------------------
-- Runs
-- ---------------------------------------------------------------------------

structure Caller where
  program : Program Reply
  nonces : Nonces

def Caller.result? (c : Caller) : Option (Except Failure Reply) := c.program.result? c.nonces

def Caller.effect (c : Caller) (m : Memory) : Except Failure Reply × Memory :=
  c.program.effect c.nonces m

/-- A store and those who share it. -/
structure Crowd (n : Nat) where
  world : World
  callers : Fin n → Caller

def Crowd.requesting (root : Bytes) (requests : Fin n → Request) (nonces : Fin n → Nonces)
    (m : Memory) : Crowd n :=
  ⟨World.start m, fun i => ⟨(requests i).program root, nonces i⟩⟩

/-- One access of one caller, and the store that it met. -/
structure Event (n : Nat) where
  caller : Fin n
  access : Access
  before : World

def Event.after (e : Event n) : World := e.before.after e.access

def Crowd.move (crowd : Crowd n) (i : Fin n) (a : Access) (next : Caller) : Crowd n :=
  ⟨crowd.world.after a, Function.update crowd.callers i next⟩

@[simp] theorem Crowd.move_world (crowd : Crowd n) (i : Fin n) (a : Access) (next : Caller) :
    (crowd.move i a next).world = crowd.world.after a := rfl

@[simp] theorem Crowd.move_self (crowd : Crowd n) (i : Fin n) (a : Access) (next : Caller) :
    (crowd.move i a next).callers i = next := Function.update_self ..

theorem Crowd.move_of_ne (crowd : Crowd n) (a : Access) (next : Caller) (h : j ≠ i) :
    (crowd.move i a next).callers j = crowd.callers j := Function.update_of_ne h ..

/-- Steps of callers, in any order. -/
inductive Run (start : Crowd n) : List (Event n) → Crowd n → Prop
  | nil : Run start [] start
  | snoc : Run start events crowd →
      (crowd.callers i).program.step? crowd.world.memory (crowd.callers i).nonces =
        some (a, p, nonces) →
      a.IsFresh crowd.world →
      Run start (events ++ [⟨i, a, crowd.world⟩]) (crowd.move i a ⟨p, nonces⟩)

section Runs

variable {start crowd : Crowd n} {events : List (Event n)}

theorem Run.ensures {P : Fin n → Access → Prop} (h : Run start events crowd)
    (hp : ∀ i, (start.callers i).program.Ensures (P i) fun _ => True) :
    (∀ i, (crowd.callers i).program.Ensures (P i) fun _ => True) ∧
      ∀ e ∈ events, P e.caller e.access := by
  induction h with
  | nil => exact ⟨hp, fun e he => nomatch he⟩
  | @snoc events crowd i a p nonces _ hstep _ ih =>
    obtain ⟨hnow, hevents⟩ := ih
    obtain ⟨ha, hp'⟩ := (hnow i).step hstep
    constructor
    · intro j
      by_cases hj : j = i
      · subst hj
        rw [Crowd.move_self]
        exact hp'
      · rw [crowd.move_of_ne _ _ hj]
        exact hnow j
    · intro e he
      rcases List.mem_append.mp he with he | he
      · exact hevents e he
      · rw [List.mem_singleton.mp he]
        exact ha

theorem Run.idle (h : Run start events crowd) (hi : ∀ e ∈ events, e.caller ≠ i) :
    crowd.callers i = start.callers i := by
  induction h with
  | nil => rfl
  | snoc _ _ _ ih =>
    rw [Crowd.move_of_ne _ _ _ (hi _ (List.mem_append_right _ List.mem_cons_self)).symm]
    exact ih fun e he => hi e (List.mem_append_left _ he)

structure Traced (start : Crowd n) (events : List (Event n)) (crowd : Crowd n) : Prop where
  sound : crowd.world.Sound
  evolves : start.world.Evolves crowd.world
  met : ∀ e ∈ events, e.before.Sound ∧ e.access.IsFresh e.before ∧
    start.world.Evolves e.before ∧ e.after.Evolves crowd.world
  ordered : events.Pairwise fun e e' => e.after.Evolves e'.before

theorem Run.traced (h : Run start events crowd) (hs : start.world.Sound)
    (hp : ∀ i, (start.callers i).program.Ensures Access.IsOrderly fun _ => True) :
    Traced start events crowd := by
  induction h with
  | nil => exact ⟨hs, .refl hs, fun e he => (nomatch he), .nil⟩
  | @snoc events crowd i a p nonces hrun hstep hfresh ih =>
    have ha := ((hrun.ensures hp).1 i |>.step hstep).1
    have hmove := World.after_evolves ih.sound ha hfresh
    refine ⟨World.after_sound ih.sound ha hfresh, ih.evolves.trans hmove, ?_, ?_⟩
    · intro e he
      rcases List.mem_append.mp he with he | he
      · obtain ⟨hsound, hf, hbefore, hafter⟩ := ih.met e he
        exact ⟨hsound, hf, hbefore, hafter.trans hmove⟩
      · rw [List.mem_singleton.mp he]
        exact ⟨ih.sound, hfresh, ih.evolves, .refl (World.after_sound ih.sound ha hfresh)⟩
    · refine List.pairwise_append.mpr ⟨ih.ordered, List.pairwise_singleton .., ?_⟩
      intro e he e' he'
      rw [List.mem_singleton.mp he']
      exact (ih.met e he).2.2.2

end Runs

-- ---------------------------------------------------------------------------
-- A race
-- ---------------------------------------------------------------------------

namespace Race

/-- One row, of the organization `o`, which has no key. -/
def store : Memory :=
  { Memory.empty [] (Nonces.counting 0) with
    rows := [("s", Assoc.putAll Memory.blankRow
      [("id", .text "s"), ("userId", .text "u"), ("orgId", .text "o")])] }

/-- Two updates, the second of which expects a version that the row never has, and a delete. -/
def requests : Fin 3 → Request
  | 0 => .update (.text "s") (.map [("title", .text "t")]) (.text "o") (some (.int 1))
  | 1 => .delete (.text "s")
  | 2 => .update (.text "s") (.map [("title", .text "t")]) (.text "o") (some (.int 2))

def start : Crowd 3 := .requesting [] requests (fun _ => Nonces.counting 0) store

theorem store_versions : store.HasIntegerVersions := by
  intro id row h
  obtain ⟨-, rfl⟩ := Prod.mk.inj (List.mem_singleton.mp (Assoc.mem_of_get? h))
  exact ⟨1, .int 1, rfl, rfl⟩

/-- The row is deleted after the first update has read it and before that looks for the key. -/
theorem exists_run : ∃ events crowd, ∃ result : Fin 3 → Except Failure Reply,
    Run Race.start events crowd ∧ (∀ i, (crowd.callers i).result? = some (result i)) ∧
      events.map (·.caller) = [0, 2, 1, 0] ∧ result 1 = .ok (.id "s") ∧
      result 2 = .error (Vault.conflict (.text "s") (.text "o") (.int 2)) := by
  have h₁ : Run Race.start _ _ := .snoc (i := 0) (a := .fetch (.text "s")) .nil rfl trivial
  have h₂ := Run.snoc (i := 2) (a := .fetch (.text "s")) h₁ rfl trivial
  have h₃ := Run.snoc (i := 1) (a := .delete (.text "s")) h₂ rfl trivial
  have h₄ := Run.snoc (i := 0) (a := .findKey (.text "o")) h₃ rfl trivial
  exact ⟨_, _, fun | 0 => _ | 1 => _ | 2 => _, h₄, fun | 0 => rfl | 1 => rfl | 2 => rfl, rfl, rfl,
    rfl⟩

end Race
end EnvelopeVault
