import EnvelopeVault.Proofs.Effect
import EnvelopeVault.Proofs.PlainStore

/-!
# Two runs side by side

`Couples R p q Q E`: on any two stores that `R` relates, `p` and `q` log the
same lines, and either both succeed, with values and stores that `Q` relates, or
both end with one failure, with stores that `E` relates. The rules follow the
nodes of a program and compose along `bind`, so the two runs are never unfolded
together.
-/

namespace EnvelopeVault

/-- What two runs came to that cannot be told apart but by what `Q` and `E` leave open. -/
inductive Alike {α β : Type} (Q : α → β → Memory → Memory → Prop) (E : Memory → Memory → Prop) :
    Outcome Memory α → Outcome Memory β → Prop
  | ok {a : α} {b : β} {m m' : Memory} (log : List LogLine) (h : Q a b m m') :
      Alike Q E ⟨.ok a, log, m⟩ ⟨.ok b, log, m'⟩
  | error {m m' : Memory} (e : Failure) (log : List LogLine) (h : E m m') :
      Alike Q E ⟨.error e, log, m⟩ ⟨.error e, log, m'⟩

namespace Program

variable {α β γ δ : Type} {R S : Memory → Memory → Prop} {E F : Memory → Memory → Prop}
  {Q Q' : α → β → Memory → Memory → Prop}

def Couples (R : Memory → Memory → Prop) (p : Program α) (q : Program β)
    (Q : α → β → Memory → Memory → Prop) (E : Memory → Memory → Prop) : Prop :=
  ∀ m m', R m m' → Alike Q E (p.run Memory.backend m) (q.run Memory.backend m')

/-- Two stores hand out the same nonce and stay related. -/
def DrawsAlike (R S : Memory → Memory → Prop) : Prop :=
  ∀ m m', R m m' → m.nonce.1 = m'.nonce.1 ∧ S m.nonce.2 m'.nonce.2

namespace Couples

-- ---------------------------------------------------------------------------
-- One node
-- ---------------------------------------------------------------------------

theorem done_ok {a : α} {b : β} (h : ∀ m m', R m m' → Q a b m m') :
    Couples R (.done (.ok a)) (.done (.ok b)) Q E :=
  fun m m' hR => .ok [] (h m m' hR)

theorem done_error {e : Failure} (h : ∀ m m', R m m' → E m m') :
    Couples R (.done (.error e)) (.done (.error e)) Q E :=
  fun m m' hR => .error e [] (h m m' hR)

theorem note {p : Program α} {q : Program β} (h : Couples R p q Q E) (line : LogLine) :
    Couples R (.note line p) (.note line q) Q E := by
  intro m m' hR
  have hpq := h m m' hR
  rw [run, run]
  generalize p.run Memory.backend m = o at hpq ⊢
  generalize q.run Memory.backend m' = o' at hpq ⊢
  cases hpq with
  | ok log hQ => exact .ok (line :: log) hQ
  | error e log hE => exact .error e (line :: log) hE

theorem draw {next : Nonce → Program α} {next' : Nonce → Program β} (hd : DrawsAlike R S)
    (h : ∀ nonce, Couples S (next nonce) (next' nonce) Q E) :
    Couples R (.draw next) (.draw next') Q E := by
  intro m m' hR
  obtain ⟨hnonce, hS⟩ := hd m m' hR
  have hpq := h m.nonce.1 _ _ hS
  change Alike Q E ((next m.nonce.1).run Memory.backend m.nonce.2)
    ((next' m'.nonce.1).run Memory.backend m'.nonce.2)
  rwa [← hnonce]

theorem call {a a' : Access} {Q : a.Answer → a'.Answer → Memory → Memory → Prop}
    (h : ∀ m m', R m m' → ∃ answer answer' s s', Memory.answer a m = (.ok answer, s) ∧
      Memory.answer a' m' = (.ok answer', s') ∧ Q answer answer' s s') :
    Couples R (.call a) (.call a') Q E := by
  intro m m' hR
  obtain ⟨answer, answer', s, s', ha, ha', hQ⟩ := h m m' hR
  rw [run_call, run_call, ha, ha']
  exact .ok [] hQ

-- ---------------------------------------------------------------------------
-- Composition
-- ---------------------------------------------------------------------------

theorem bind {p : Program α} {q : Program β} {f : α → Program γ} {g : β → Program δ}
    {T : γ → δ → Memory → Memory → Prop} (h : Couples R p q Q E)
    (hf : ∀ a b, Couples (Q a b) (f a) (g b) T E) : Couples R (p.bind f) (q.bind g) T E := by
  intro m m' hR
  have hpq := h m m' hR
  rw [run_bind, run_bind]
  generalize p.run Memory.backend m = o at hpq ⊢
  generalize q.run Memory.backend m' = o' at hpq ⊢
  cases hpq with
  | error e log hE => exact .error e log hE
  | @ok a b s s' log hQ =>
    have hfg := hf a b s s' hQ
    simp only [Outcome.andThen]
    generalize (f a).run Memory.backend s = o at hfg ⊢
    generalize (g b).run Memory.backend s' = o' at hfg ⊢
    cases hfg with
    | ok log' hT => exact .ok (log ++ log') hT
    | error e log' hE => exact .error e (log ++ log') hE

theorem access {a a' : Access} {next : a.Answer → Program γ} {next' : a'.Answer → Program δ}
    {Q : a.Answer → a'.Answer → Memory → Memory → Prop} {T : γ → δ → Memory → Memory → Prop}
    (h : Couples R (.call a) (.call a') Q E)
    (hn : ∀ x y, Couples (Q x y) (next x) (next' y) T E) :
    Couples R (.access a next) (.access a' next') T E :=
  h.bind hn

/-- What is known of the results of a first part is known in the second. -/
theorem assume {P : Prop} {p : Program α} {q : Program β} (h : P → Couples R p q Q E) :
    Couples (fun m m' => P ∧ R m m') p q Q E :=
  fun m m' hR => h hR.1 m m' hR.2

theorem any {ι : Type} {R : ι → Memory → Memory → Prop} {p : Program α} {q : Program β}
    (h : ∀ i, Couples (R i) p q Q E) : Couples (fun m m' => ∃ i, R i m m') p q Q E := by
  rintro m m' ⟨i, hR⟩
  exact h i m m' hR

theorem mono {p : Program α} {q : Program β} (h : Couples R p q Q E)
    (hR : ∀ m m', S m m' → R m m') (hQ : ∀ a b m m', Q a b m m' → Q' a b m m')
    (hE : ∀ m m', E m m' → F m m') : Couples S p q Q' F := by
  intro m m' hS
  have hpq := h m m' (hR m m' hS)
  generalize p.run Memory.backend m = o at hpq ⊢
  generalize q.run Memory.backend m' = o' at hpq ⊢
  cases hpq with
  | ok log h => exact .ok log (hQ _ _ _ _ h)
  | error e log h => exact .error e log (hE _ _ h)

theorem mono_error {p : Program α} {q : Program β} (h : Couples R p q Q E)
    (hE : ∀ m m', E m m' → F m m') : Couples R p q Q F :=
  h.mono (fun _ _ hR => hR) (fun _ _ _ _ hQ => hQ) hE

theorem map {p : Program α} {q : Program β} {f : α → γ} {g : β → δ}
    {T : γ → δ → Memory → Memory → Prop} (h : Couples R p q Q E)
    (hT : ∀ a b m m', Q a b m m' → T (f a) (g b) m m') :
    Couples R (p.bind fun a => .done (.ok (f a))) (q.bind fun b => .done (.ok (g b))) T E :=
  h.bind fun a b => done_ok (hT a b)

theorem refl {p : Program α} {P : Access → Prop} {G : Except Failure α → Prop}
    (hp : p.Ensures P G) (hd : DrawsAlike R R)
    (hc : ∀ a, P a → Couples R (.call a) (.call a) (fun x y m m' => x = y ∧ R m m') R) :
    Couples R p p (fun a b m m' => a = b ∧ G (.ok a) ∧ R m m') R := by
  induction p with
  | done result =>
    cases result with
    | ok a => exact done_ok fun m m' hR => ⟨rfl, hp, hR⟩
    | error e => exact done_error fun m m' hR => hR
  | note line next ih => exact (ih hp).note line
  | draw next ih => exact draw hd fun nonce => ih nonce (hp nonce)
  | access a next ih =>
    refine (hc a hp.1).access fun x y => .assume ?_
    rintro rfl
    exact ih x (hp.2 x)

end Couples
end Program

-- ---------------------------------------------------------------------------
-- Sequences of calls
-- ---------------------------------------------------------------------------

def Call.outcomes (root : Bytes) : List Call → Memory → List (Outcome Memory Reply)
  | [], _ => []
  | call :: calls, m =>
    let o := (call.program root).run Memory.backend m
    o :: outcomes root calls o.state

end EnvelopeVault
