import EnvelopeVault.Cipher.Gcm
import EnvelopeVault.Failure
import EnvelopeVault.LogLine
import EnvelopeVault.OrgKeyRecord

/-!
# Programs of the vault

An operation of the vault is a program: it ends with a result or a failure, and
on its way it logs, draws nonces and accesses the stores. Each access is one
atomic step, so programs can be run alone, against a scripted store, or
interleaved. A store that refuses an access ends the program with its failure.
-/

namespace EnvelopeVault

/-- The accesses to the stores: one to the keys, five to the rows. -/
inductive Access where
  | findKey (org : Value)
  | fetch (secret : Value)
  | fetchFiltered (org user : Value) (requireData : Bool)
  | insert (row : Row)
  /-- Overwrites columns and counts the version up; with `expected` only at that version. -/
  | update (secret : Value) (columns : Row) (expected : Option Value)
  | delete (secret : Value)

namespace Access

/-- What a store gives for a row is a row only if the store keeps its promise. -/
abbrev Answer : Access → Type
  | .findKey _ => Option OrgKeyRecord
  | .fetch _ => Option Value
  | .fetchFiltered .. => List Value
  | .insert _ => Value
  | .update .. => Option Value
  | .delete _ => Option Value

end Access

inductive Program (α : Type) where
  | done (result : Except Failure α)
  | note (line : LogLine) (next : Program α)
  | draw (next : Nonce → Program α)
  | access (a : Access) (next : a.Answer → Program α)

namespace Program

variable {α β σ : Type}

def bind : Program α → (α → Program β) → Program β
  | .done (.ok a), f => f a
  | .done (.error e), _ => .done (.error e)
  | .note line next, f => .note line (next.bind f)
  | .draw next, f => .draw fun nonce => (next nonce).bind f
  | .access a next, f => .access a fun answer => (next answer).bind f

instance : Monad Program where
  pure a := .done (.ok a)
  bind := bind

def fail (e : Failure) : Program α := .done (.error e)

def ofExcept (result : Except Failure α) : Program α := .done result

def log (line : LogLine) : Program Unit := .note line (.done (.ok ()))

def call (a : Access) : Program a.Answer := .access a fun answer => .done (.ok answer)

theorem bind_pure (p : Program α) : p.bind (fun a => .done (.ok a)) = p := by
  induction p with
  | done result => cases result <;> rfl
  | note line next ih => simp [bind, ih]
  | draw next ih => simp [bind, ih]
  | access a next ih => simp [bind, ih]

theorem bind_assoc {γ : Type} (p : Program α) (f : α → Program β) (g : β → Program γ) :
    (p.bind f).bind g = p.bind fun a => (f a).bind g := by
  induction p with
  | done result => cases result <;> rfl
  | note line next ih => simp [bind, ih]
  | draw next ih => simp [bind, ih]
  | access a next ih => simp [bind, ih]

end Program

/-- What a program runs on: stores that answer accesses, and a source of nonces. -/
structure Backend (σ : Type) where
  answer : (a : Access) → σ → Except Failure a.Answer × σ
  nonce : σ → Nonce × σ

/-- How a run ended: the result, the lines in the order of logging, the state after it. -/
structure Outcome (σ α : Type) where
  result : Except Failure α
  log : List LogLine
  state : σ

def Outcome.andThen {σ α β : Type} (o : Outcome σ α) (f : α → σ → Outcome σ β) : Outcome σ β :=
  match o.result with
  | .error e => ⟨.error e, o.log, o.state⟩
  | .ok a =>
    let rest := f a o.state
    { rest with log := o.log ++ rest.log }

namespace Program

variable {α σ : Type}

def run (b : Backend σ) : Program α → σ → Outcome σ α
  | .done result, s => ⟨result, [], s⟩
  | .note line next, s =>
    let rest := next.run b s
    { rest with log := line :: rest.log }
  | .draw next, s =>
    let (nonce, s) := b.nonce s
    (next nonce).run b s
  | .access a next, s =>
    match b.answer a s with
    | (.error e, s) => ⟨.error e, [], s⟩
    | (.ok answer, s) => (next answer).run b s

theorem run_bind {β : Type} (b : Backend σ) (p : Program α) (f : α → Program β) (s : σ) :
    (p.bind f).run b s = (p.run b s).andThen fun a s => (f a).run b s := by
  induction p generalizing s with
  | done result => cases result <;> rfl
  | note line next ih =>
    simp only [bind, run, ih, Outcome.andThen]
    cases (next.run b s).result <;> rfl
  | draw next ih => exact ih _ _
  | access a next ih =>
    simp only [bind, run]
    split
    · rfl
    · exact ih _ _

end Program

/-- A supply of nonces, and how many of them are used up. -/
structure Nonces where
  supply : Nat → Nonce
  drawn : Nat

namespace Nonces

def next (n : Nonces) : Nonce × Nonces := (n.supply n.drawn, { n with drawn := n.drawn + 1 })

/-- Consecutive numbers from `first`, modulo 2^96. -/
def counting (first : Nat) : Nonces := ⟨fun k => Nonce.ofNat (first + k), 0⟩

end Nonces
end EnvelopeVault
