import EnvelopeVault.Proofs.Memory
import EnvelopeVault.Proofs.Program

/-!
# Programs over the store in memory

`Program.effect` is what a program comes to when it runs alone: its result and
the contents of the store after it. It is computed node by node and depends on
the contents alone. A program that accesses key records only is settled by the
key records: what it will come to is known before it runs (`effect_settled`),
and stays known whatever happens to the rows.
-/

namespace EnvelopeVault

namespace Memory

theorem answer_findKey (org : Value) (m : Memory) :
    (answer (.findKey org) m).2.contents = m.contents := rfl

end Memory

namespace Program

open Memory

variable {α β : Type} {m m' : Memory} {keys : Assoc OrgKeyRecord}

-- ---------------------------------------------------------------------------
-- Runs
-- ---------------------------------------------------------------------------

theorem run_answer {a : Access} {answer : a.Answer} {next : a.Answer → Program α}
    (h : Memory.answer a m = (.ok answer, m')) :
    (access a next).run Memory.backend m = (next answer).run Memory.backend m' := by
  simp [run, Memory.backend, h]

theorem run_call (a : Access) (m : Memory) :
    (call a).run Memory.backend m = ⟨(Memory.answer a m).1, [], (Memory.answer a m).2⟩ := by
  simp only [call, run, Memory.backend]
  split <;> simp_all

-- ---------------------------------------------------------------------------
-- Effects
-- ---------------------------------------------------------------------------

theorem run_congr (p : Program α) (h : m.contents = m'.contents) (hn : m.nonces = m'.nonces) :
    (p.run Memory.backend m).result = (p.run Memory.backend m').result ∧
      (p.run Memory.backend m).state.contents = (p.run Memory.backend m').state.contents := by
  induction p generalizing m m' with
  | done result => exact ⟨rfl, h⟩
  | note line next ih => exact ih h hn
  | draw next ih =>
    simp only [run, Memory.backend, Memory.nonce, Nonces.next, hn]
    exact ih _ h rfl
  | access a next ih =>
    obtain ⟨ha, hc⟩ := Memory.answer_congr h a
    have hn' := (Memory.answer_nonces a m).trans (hn.trans (Memory.answer_nonces a m').symm)
    simp only [run, Memory.backend]
    generalize Memory.answer a m = o at ha hc hn' ⊢
    generalize Memory.answer a m' = o' at ha hc hn' ⊢
    obtain ⟨result, s⟩ := o
    obtain ⟨result', s'⟩ := o'
    cases ha
    cases result with
    | error e => exact ⟨rfl, hc⟩
    | ok answer => exact ih answer hc hn'

/-- The result of a program that runs alone with its own nonces, and what it leaves. -/
def effect (p : Program α) (n : Nonces) (m : Memory) : Except Failure α × Memory :=
  let o := p.run Memory.backend { m with nonces := n }
  (o.result, o.state.contents)

theorem effect_congr (p : Program α) (n : Nonces) (h : m.contents = m'.contents) :
    p.effect n m = p.effect n m' :=
  have hn : contents { m with nonces := n } = contents { m' with nonces := n } := h
  have hrun := run_congr p hn rfl
  Prod.ext hrun.1 hrun.2

@[simp] theorem effect_done (r : Except Failure α) (n : Nonces) (m : Memory) :
    (done r).effect n m = (r, m.contents) := rfl

@[simp] theorem effect_note (line : LogLine) (next : Program α) (n : Nonces) (m : Memory) :
    (note line next).effect n m = next.effect n m := rfl

theorem effect_access (a : Access) (next : a.Answer → Program α) (n : Nonces) (m : Memory) :
    (access a next).effect n m =
      match Memory.answer a m with
      | (.ok answer, m') => (next answer).effect n m'
      | (.error e, m') => (.error e, m'.contents) := by
  obtain ⟨ha, hc⟩ := Memory.answer_congr (Memory.contents_nonces m n) a
  have hn := Memory.answer_nonces a { m with nonces := n }
  simp only [effect, run, Memory.backend]
  generalize Memory.answer a { m with nonces := n } = o at ha hc hn ⊢
  generalize Memory.answer a m = o' at ha hc ⊢
  obtain ⟨result, s⟩ := o
  obtain ⟨result', s'⟩ := o'
  cases ha
  cases result with
  | error e => exact Prod.ext rfl hc
  | ok answer =>
    have hc : s.contents = contents { s' with nonces := n } := hc
    have hrun := run_congr (next answer) hc hn
    exact Prod.ext hrun.1 hrun.2

theorem effect_answer {a : Access} {answer : a.Answer} {next : a.Answer → Program α}
    (h : Memory.answer a m = (.ok answer, m')) :
    (access a next).effect n m = (next answer).effect n m' := by
  rw [effect_access, h]

theorem effect_findKey (org : Value) (next : Option OrgKeyRecord → Program α) (n : Nonces)
    (m : Memory) :
    (access (.findKey org) next).effect n m = (next (m.keys.get? org.toText)).effect n m :=
  (effect_answer rfl).trans (effect_congr _ n (answer_findKey org m))

theorem effect_map (p : Program α) (f : α → β) (n : Nonces) (m : Memory) :
    (p.bind fun a => .done (.ok (f a))).effect n m =
      ((p.effect n m).1.map f, (p.effect n m).2) := by
  induction p generalizing n m with
  | done result => cases result <;> rfl
  | note line next ih => exact ih n m
  | draw next ih => exact ih _ _ m
  | access a next ih =>
    simp only [bind, effect_access]
    split
    · exact ih ..
    · rfl

-- ---------------------------------------------------------------------------
-- Settled programs
-- ---------------------------------------------------------------------------

/-- The end of a program that accesses key records only, with the nonces that are left. -/
def settle (keys : Assoc OrgKeyRecord) : Program α → Nonces → Option (Except Failure α × Nonces)
  | .done result, n => some (result, n)
  | .note _ next, n => next.settle keys n
  | .draw next, n => (next n.next.1).settle keys n.next.2
  | .access (.findKey org) next, n => (next (keys.get? org.toText)).settle keys n
  | .access _ _, _ => none

theorem exists_settle {p : Program α} (h : p.Ensures Access.IsLookup Q)
    (keys : Assoc OrgKeyRecord) (n : Nonces) :
    ∃ r n', p.settle keys n = some (r, n') ∧ Q r := by
  induction p generalizing n with
  | done result => exact ⟨result, n, rfl, h⟩
  | note line next ih => exact ih h n
  | draw next ih => exact ih _ (h _) _
  | access a next ih =>
    obtain ⟨⟨org, rfl⟩, hnext⟩ := h
    exact ih _ (hnext _) n

theorem settle_bind_ok {p : Program α} {f : α → Program β}
    (h : p.settle keys n = some (.ok a, n')) :
    (p.bind f).settle keys n = (f a).settle keys n' := by
  induction p generalizing n with
  | done result => cases h; rfl
  | note line next ih => exact ih h
  | draw next ih => exact ih _ h
  | access b next ih =>
    cases b with
    | findKey org => exact ih _ h
    | _ => cases h

theorem settle_bind_error {p : Program α} {f : α → Program β}
    (h : p.settle keys n = some (.error e, n')) :
    (p.bind f).settle keys n = some (.error e, n') := by
  induction p generalizing n with
  | done result => cases h; rfl
  | note line next ih => exact ih h
  | draw next ih => exact ih _ h
  | access b next ih =>
    cases b with
    | findKey org => exact ih _ h
    | _ => cases h

theorem settle_saying (lines : List LogLine) (result : Except Failure α) (n : Nonces) :
    (saying lines result).settle keys n = some (result, n) := by
  induction lines with
  | nil => rfl
  | cons line lines ih => exact ih

theorem effect_bind_settled {p : Program α} {f : α → Program β}
    (h : p.settle m.keys n = some (.ok a, n')) :
    (p.bind f).effect n m = (f a).effect n' m := by
  induction p generalizing n with
  | done result => cases h; rfl
  | note line next ih => exact ih h
  | draw next ih => exact ih _ h
  | access b next ih =>
    cases b with
    | findKey org =>
      rw [bind, effect_findKey]
      exact ih _ h
    | _ => cases h

theorem effect_settled {p : Program α} (h : p.settle m.keys n = some (r, n')) :
    p.effect n m = (r, m.contents) := by
  induction p generalizing n with
  | done result => cases h; rfl
  | note line next ih => exact ih h
  | draw next ih => exact ih _ h
  | access b next ih =>
    cases b with
    | findKey org =>
      rw [effect_findKey]
      exact ih _ h
    | _ => cases h

end Program
end EnvelopeVault
