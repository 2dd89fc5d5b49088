import EnvelopeVault.Proofs.OrgKey
import EnvelopeVault.Proofs.Vault

/-!
# Programs with their encryptions in view

A `Ciphering` is a program whose encryptions are nodes of their own: where a
program draws a nonce, it calls the field cipher. Without the nodes it is the
program again (`program`), and a run of it records every call of the cipher, those
of a run that fails later too (`trace`).

What can be exposed in this way makes no other draws: the nonces of a run are
those that the recorded calls drew (`draws_program`), one in each call that gives
a field (`Encryption.gives`).
-/

namespace EnvelopeVault

open FieldCipher

namespace Program

variable {α β σ : Type}

def draws (b : Backend σ) : Program α → σ → List Nonce
  | .done _, _ => []
  | .note _ next, s => next.draws b s
  | .draw next, s =>
    let (nonce, s) := b.nonce s
    nonce :: (next nonce).draws b s
  | .access a next, s =>
    match b.answer a s with
    | (.error _, _) => []
    | (.ok answer, s) => (next answer).draws b s

theorem draws_bind (b : Backend σ) (p : Program α) (f : α → Program β) (s : σ) :
    (p.bind f).draws b s = p.draws b s ++
      match (p.run b s).result with
      | .error _ => []
      | .ok a => (f a).draws b (p.run b s).state := by
  induction p generalizing s with
  | done result => cases result <;> rfl
  | note line next ih => exact ih s
  | draw next ih =>
    simp only [bind, draws, run, ih, List.cons_append]
  | access a next ih =>
    simp only [bind, draws, run]
    generalize b.answer a s = o
    obtain ⟨result, s'⟩ := o
    cases result with
    | error e => rfl
    | ok answer => exact ih answer s'

-- ---------------------------------------------------------------------------
-- Programs that draw nothing
-- ---------------------------------------------------------------------------

def Drawless : Program α → Prop
  | .done _ => True
  | .note _ next => next.Drawless
  | .draw _ => False
  | .access _ next => ∀ answer, (next answer).Drawless

theorem Drawless.bind {p : Program α} {f : α → Program β} (hp : p.Drawless)
    (hf : ∀ a, (f a).Drawless) : (p.bind f).Drawless := by
  induction p with
  | done result =>
    cases result with
    | error e => trivial
    | ok a => exact hf a
  | note line next ih => exact ih hp
  | draw next ih => cases hp
  | access a next ih => exact fun answer => ih answer (hp answer)

theorem drawless_saying (lines : List LogLine) (result : Except Failure α) :
    (saying lines result).Drawless := by
  induction lines with
  | nil => trivial
  | cons line lines ih => exact ih

end Program

-- ---------------------------------------------------------------------------
-- Calls of the field cipher
-- ---------------------------------------------------------------------------

/-- A call of the field cipher: what it was given, the nonces that it drew, how it ended. -/
structure Encryption where
  key : Bytes
  plaintext : Value
  draws : List Nonce
  result : Except Failure Field

namespace Encryption

variable {σ : Type}

def start (b : Backend σ) (key : Bytes) (plaintext : Value) (s : σ) : Encryption :=
  let p := Sealing.encryptValue key plaintext
  ⟨key, plaintext, p.draws b s, (p.run b s).result⟩

def produced (es : List Encryption) : List Field := es.filterMap (·.result.toOption)

/-- The call has drawn one nonce, and the field is what encrypting a text under it gives. -/
structure Gives (e : Encryption) (f : Field) (nonce : Nonce) : Prop where
  draws : e.draws = [nonce]
  sealed : ∃ (key : Key) (t : Text), e.key = key.bytes ∧ e.plaintext = .text t ∧
    encryptWith key nonce t = .ok f

theorem gives (b : Backend σ) (key : Bytes) (plaintext : Value) (s : σ)
    (h : (start b key plaintext s).result = .ok f) :
    ∃ nonce, (start b key plaintext s).Gives f nonce := by
  simp only [start] at h
  cases plaintext with
  | text t =>
    simp only [Sealing.encryptValue, Sealing.encrypt] at h
    cases hk : Key.ofBytes? key with
    | none =>
      simp only [hk] at h
      cases h
    | some k =>
      have hbytes : key = k.bytes := by
        unfold Key.ofBytes? at hk
        split at hk
        · cases hk
          rfl
        · cases hk
      subst hbytes
      simp only [hk] at h
      refine ⟨(b.nonce s).1, ?_, k, t, rfl, rfl, h⟩
      simp only [start, Sealing.encryptValue, encrypt_eq_draw]
      rfl
  | _ =>
    simp only [Sealing.encryptValue] at h
    cases hk : Key.ofBytes? key <;> · simp only [hk] at h; cases h

theorem exists_field (b : Backend σ) (key : Key) {t : Text} (ht : t.IsEncodable) (s : σ) :
    ∃ f, (start b key.bytes (.text t) s).result = .ok f := by
  obtain ⟨f, hf⟩ := exists_encryptWith key (b.nonce s).1 ht
  refine ⟨f, ?_⟩
  simp only [start, Sealing.encryptValue, encrypt_eq_draw]
  exact hf

theorem Gives.iv_eq {e : Encryption} (h : e.Gives f nonce) : f.iv = Base64.encode nonce.bytes := by
  obtain ⟨_, _, -, -, hf⟩ := h.sealed
  exact iv_of_encryptWith hf

end Encryption

-- ---------------------------------------------------------------------------
-- Trees
-- ---------------------------------------------------------------------------

inductive Ciphering (α : Type) where
  | done (result : Except Failure α)
  | note (line : LogLine) (next : Ciphering α)
  | encrypt (key : Bytes) (plaintext : Value) (next : Field → Ciphering α)
  | access (a : Access) (next : a.Answer → Ciphering α)

namespace Ciphering

variable {α β σ : Type}

/-- The program that makes the calls. -/
def program : Ciphering α → Program α
  | .done result => .done result
  | .note line next => .note line next.program
  | .encrypt key plaintext next =>
    (Sealing.encryptValue key plaintext).bind fun field => (next field).program
  | .access a next => .access a fun answer => (next answer).program

def bind : Ciphering α → (α → Ciphering β) → Ciphering β
  | .done (.ok a), f => f a
  | .done (.error e), _ => .done (.error e)
  | .note line next, f => .note line (next.bind f)
  | .encrypt key plaintext next, f => .encrypt key plaintext fun field => (next field).bind f
  | .access a next, f => .access a fun answer => (next answer).bind f

theorem program_bind (t : Ciphering α) (f : α → Ciphering β) :
    (t.bind f).program = t.program.bind fun a => (f a).program := by
  induction t with
  | done result => cases result <;> rfl
  | note line next ih => simp only [bind, program, Program.bind, ih]
  | encrypt key plaintext next ih => simp only [bind, program, Program.bind_assoc, ih]
  | access a next ih => simp only [bind, program, Program.bind, ih]

def plain : (p : Program α) → p.Drawless → Ciphering α
  | .done result, _ => .done result
  | .note line next, h => .note line (plain next h)
  | .draw _, h => h.elim
  | .access a next, h => .access a fun answer => plain (next answer) (h answer)

theorem program_plain (p : Program α) (h : p.Drawless) : (plain p h).program = p := by
  induction p with
  | done result => rfl
  | note line next ih => exact congrArg _ (ih h)
  | draw next ih => cases h
  | access a next ih => exact congrArg _ (funext fun answer => ih answer (h answer))

/-- The calls that a run makes, in order. One that fails is the last. -/
def trace (b : Backend σ) : Ciphering α → σ → List Encryption
  | .done _, _ => []
  | .note _ next, s => next.trace b s
  | .encrypt key plaintext next, s =>
    let o := (Sealing.encryptValue key plaintext).run b s
    .start b key plaintext s :: match o.result with
      | .error _ => []
      | .ok field => (next field).trace b o.state
  | .access a next, s =>
    match b.answer a s with
    | (.error _, _) => []
    | (.ok answer, s) => (next answer).trace b s

theorem trace_bind (b : Backend σ) (t : Ciphering α) (f : α → Ciphering β) (s : σ) :
    (t.bind f).trace b s = t.trace b s ++
      match (t.program.run b s).result with
      | .error _ => []
      | .ok a => (f a).trace b (t.program.run b s).state := by
  induction t generalizing s with
  | done result => cases result <;> rfl
  | note line next ih => exact ih s
  | encrypt key plaintext next ih =>
    simp only [bind, trace, program, Program.run_bind, Outcome.andThen, List.cons_append]
    refine congrArg (Encryption.start b key plaintext s :: ·) ?_
    cases ((Sealing.encryptValue key plaintext).run b s).result with
    | error e => rfl
    | ok field => exact ih field _
  | access a next ih =>
    simp only [bind, trace, program, Program.run]
    generalize b.answer a s = o
    obtain ⟨result, s'⟩ := o
    cases result with
    | error e => rfl
    | ok answer => exact ih answer s'

/-- The nonces of a run are those that the calls drew. -/
theorem draws_program (b : Backend σ) (t : Ciphering α) (s : σ) :
    t.program.draws b s = (t.trace b s).flatMap (·.draws) := by
  induction t generalizing s with
  | done result => rfl
  | note line next ih => exact ih s
  | encrypt key plaintext next ih =>
    rw [program, Program.draws_bind, trace, List.flatMap_cons]
    refine congrArg (_ ++ ·) ?_
    cases ((Sealing.encryptValue key plaintext).run b s).result with
    | error e => rfl
    | ok field => exact ih field _
  | access a next ih =>
    simp only [program, Program.draws, trace]
    split
    · rfl
    · exact ih _ _

theorem exists_start_of_mem_trace {b : Backend σ} {t : Ciphering α} {s : σ} {e : Encryption}
    (h : e ∈ t.trace b s) : ∃ key plaintext s', e = .start b key plaintext s' := by
  induction t generalizing s with
  | done result => cases h
  | note line next ih => exact ih h
  | encrypt key plaintext next ih =>
    rw [trace, List.mem_cons] at h
    obtain rfl | h := h
    · exact ⟨key, plaintext, s, rfl⟩
    · split at h
      · cases h
      · exact ih _ h
  | access a next ih =>
    simp only [trace] at h
    split at h
    · cases h
    · exact ih _ h

end Ciphering

-- ---------------------------------------------------------------------------
-- Programs that are exposed
-- ---------------------------------------------------------------------------

/-- A program with its encryptions in view. -/
structure Exposed {α : Type} (p : Program α) where
  tree : Ciphering α
  program_eq : tree.program = p

namespace Exposed

variable {α β σ : Type}

def congr {p q : Program α} (h : p = q) (x : Exposed q) : Exposed p :=
  ⟨x.tree, x.program_eq.trans h.symm⟩

def plain {p : Program α} (h : p.Drawless) : Exposed p := ⟨.plain p h, Ciphering.program_plain p h⟩

def encrypt (key : Bytes) (plaintext : Value) : Exposed (Sealing.encryptValue key plaintext) :=
  ⟨.encrypt key plaintext fun field => .done (.ok field), Program.bind_pure _⟩

def access {a : Access} {next : a.Answer → Program α} (x : ∀ answer, Exposed (next answer)) :
    Exposed (.access a next) :=
  ⟨.access a fun answer => (x answer).tree,
    congrArg (Program.access a) (funext fun answer => (x answer).program_eq)⟩

def bind {p : Program α} {f : α → Program β} (x : Exposed p) (y : ∀ a, Exposed (f a)) :
    Exposed (p.bind f) where
  tree := x.tree.bind fun a => (y a).tree
  program_eq := by
    rw [Ciphering.program_bind, x.program_eq]
    exact congrArg p.bind (funext fun a => (y a).program_eq)

def encryptions {p : Program α} (x : Exposed p) (b : Backend σ) (s : σ) : List Encryption :=
  x.tree.trace b s

theorem draws_eq {p : Program α} (x : Exposed p) (b : Backend σ) (s : σ) :
    p.draws b s = (x.encryptions b s).flatMap (·.draws) := by
  rw [encryptions, ← Ciphering.draws_program, x.program_eq]

theorem encryptions_plain {p : Program α} (h : p.Drawless) (b : Backend σ) (s : σ) :
    (plain h).encryptions b s = [] := by
  change (Ciphering.plain p h).trace b s = []
  induction p generalizing s with
  | done result => rfl
  | note line next ih => exact ih h s
  | draw next ih => cases h
  | access a next ih =>
    simp only [Ciphering.plain, Ciphering.trace]
    split
    · rfl
    · exact ih _ (h _) _

theorem encryptions_encrypt (key : Bytes) (plaintext : Value) (b : Backend σ) (s : σ) :
    (encrypt key plaintext).encryptions b s = [.start b key plaintext s] := by
  simp only [encryptions, encrypt, Ciphering.trace]
  split <;> rfl

theorem encryptions_bind {p : Program α} {f : α → Program β} (x : Exposed p)
    (y : ∀ a, Exposed (f a)) (b : Backend σ) (s : σ) :
    (x.bind y).encryptions b s = x.encryptions b s ++
      match (p.run b s).result with
      | .error _ => []
      | .ok a => (y a).encryptions b (p.run b s).state := by
  obtain ⟨tree, rfl⟩ := x
  exact Ciphering.trace_bind b tree (fun a => (y a).tree) s

theorem encryptions_bind_ok {p : Program α} {f : α → Program β} (x : Exposed p)
    (y : ∀ a, Exposed (f a)) (h : (p.run b s).result = .ok a) :
    (x.bind y).encryptions b s = x.encryptions b s ++ (y a).encryptions b (p.run b s).state := by
  rw [encryptions_bind, h]

end Exposed

-- ---------------------------------------------------------------------------
-- The operations that encrypt
-- ---------------------------------------------------------------------------

namespace OrgKey

theorem resolve_drawless (root : Bytes) (org : Value) : (resolve root org).Drawless := by
  rw [resolve_eq]
  rintro (_ | record)
  · trivial
  · obtain ⟨log, r, h, -⟩ := exists_saying root org record
    rw [ofFound, h]
    exact Program.drawless_saying log r

def exposeWrap (org key : Value) (root : Bytes) (encoding : Value) :
    Exposed (wrap org key root encoding) :=
  .bind (.plain trivial) fun keyText =>
    .bind (.encrypt root (.text keyText)) fun _ => .plain trivial

end OrgKey

namespace Sealing

def exposeAll (key : Bytes) : (texts : List (Text × Text)) → Exposed (encryptAll key texts)
  | [] => .plain trivial
  | (_, t) :: rest =>
    .bind (.encrypt key (.text t)) fun _ => .bind (exposeAll key rest) fun _ => .plain trivial

end Sealing

namespace Vault

def exposeCreate (root : Bytes) (draft : Draft) (org user : Value) :
    Exposed (create root draft org user) :=
  .bind (.plain (OrgKey.resolve_drawless root org)) fun key =>
    .bind (Sealing.exposeAll key draft.texts.toList) fun _ =>
      .plain (.bind (fun _ => trivial) fun _ => .bind trivial fun _ => trivial)

def exposeWrite (root : Bytes) (secret : Value) (changes : Changes) (org : Value)
    (expected : Option Value) : Exposed (writeChanges root secret changes org expected) :=
  .congr (writeChanges_eq root secret changes org expected) <|
    .bind (.bind (.plain (OrgKey.resolve_drawless root org)) fun key =>
      Sealing.exposeAll key changes.provided) fun fields => .plain fun
        | none => by
          rw [conclude, refused_eq]
          exact fun _ => trivial
        | some _ => trivial

def exposeUpdate (root : Bytes) (secret : Value) (changes : Changes) (org : Value)
    (expected : Option Value) : Exposed (update root secret changes org expected) :=
  match h : changes.provided.isEmpty with
  | true => .congr (if_pos h) (.plain (p := .fail _) trivial)
  | false => .congr (update_eq h) <| .access fun found =>
    match ha : admits secret org expected found with
    | .error e => .congr (by rw [proceed, ha]) (.plain (p := .done (.error e)) trivial)
    | .ok () => .congr (by rw [proceed, ha]) (exposeWrite root secret changes org expected)

end Vault
end EnvelopeVault
