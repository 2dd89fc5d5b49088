import EnvelopeVault.Program

/-!
# What a program can do

`Ensures` bounds a program by looking at its tree alone: every access that it
may make satisfies one predicate and every end that it may come to satisfies
another, whatever the stores answer and whatever nonces are drawn. It composes
along `bind`, so the bound of an operation is put together from those of its
parts, and a run of any kind stays within it.
-/

namespace EnvelopeVault

-- ---------------------------------------------------------------------------
-- Chains of checks
-- ---------------------------------------------------------------------------

theorem bind_ok {x : Except ε α} {f : α → Except ε β} :
    x >>= f = .ok b ↔ ∃ a, x = .ok a ∧ f a = .ok b := by
  cases x <;> simp [bind, Except.bind]

theorem bind_error {x : Except ε α} {f : α → Except ε β} (h : x >>= f = .error e) :
    x = .error e ∨ ∃ a, x = .ok a ∧ f a = .error e := by
  cases x with
  | error e' =>
    cases h
    exact .inl rfl
  | ok a => exact .inr ⟨a, rfl, h⟩

namespace Program

-- ---------------------------------------------------------------------------
-- Trees of composed programs
-- ---------------------------------------------------------------------------

variable {α β : Type}

theorem pure_eq (a : α) : (pure a : Program α) = .done (.ok a) := rfl

theorem bind_eq (p : Program α) (f : α → Program β) : p >>= f = p.bind f := rfl

theorem done_bind (a : α) (f : α → Program β) : (done (.ok a)).bind f = f a := rfl

theorem call_bind (a : Access) (f : a.Answer → Program β) : (call a).bind f = .access a f := rfl

theorem log_bind (line : LogLine) (f : Unit → Program β) : (log line).bind f = .note line (f ()) :=
  rfl

theorem ofExcept_bind (r : Except Failure α) (f : α → Program β) :
    (ofExcept r).bind f =
      match r with
      | .ok a => f a
      | .error e => .done (.error e) := by
  cases r <;> rfl

theorem run_bind_ok {σ : Type} {b : Backend σ} {p : Program α} {f : α → Program β} {s : σ}
    (h : ((p.bind f).run b s).result = .ok c) :
    ∃ a, (p.run b s).result = .ok a ∧ ((f a).run b (p.run b s).state).result = .ok c := by
  rw [run_bind, Outcome.andThen] at h
  cases hp : (p.run b s).result with
  | error e =>
    rw [hp] at h
    cases h
  | ok a =>
    rw [hp] at h
    exact ⟨a, rfl, h⟩

theorem run_map {σ : Type} (b : Backend σ) (p : Program α) (f : α → β) (s : σ) :
    (p.bind fun a => .done (.ok (f a))).run b s =
      ⟨(p.run b s).result.map f, (p.run b s).log, (p.run b s).state⟩ := by
  rw [run_bind, Outcome.andThen]
  cases (p.run b s).result with
  | error e => rfl
  | ok a => simp [run, Except.map]

theorem run_map_ok {σ : Type} {b : Backend σ} {p : Program α} {f : α → β} {s : σ}
    (h : ((p.bind fun a => .done (.ok (f a))).run b s).result = .ok c) :
    ∃ a, (p.run b s).result = .ok a ∧
      ((p.bind fun a => .done (.ok (f a))).run b s).state = (p.run b s).state := by
  obtain ⟨a, ha, -⟩ := run_bind_ok h
  exact ⟨a, ha, congrArg (·.state) (run_map b p f s)⟩

-- ---------------------------------------------------------------------------
-- Bounds
-- ---------------------------------------------------------------------------

/-- Accesses satisfy `P` and ends satisfy `Q`, on every path. -/
def Ensures (P : Access → Prop) (Q : Except Failure α → Prop) : Program α → Prop
  | .done result => Q result
  | .note _ next => next.Ensures P Q
  | .draw next => ∀ nonce, (next nonce).Ensures P Q
  | .access a next => P a ∧ ∀ answer, (next answer).Ensures P Q

variable {P : Access → Prop} {Q : Except Failure α → Prop} {R : Except Failure β → Prop}

theorem Ensures.bind {p : Program α} {f : α → Program β} (hp : p.Ensures P Q)
    (he : ∀ e, Q (.error e) → R (.error e)) (hf : ∀ a, Q (.ok a) → (f a).Ensures P R) :
    (p.bind f).Ensures P R := by
  induction p with
  | done result =>
    cases result with
    | ok a => exact hf a hp
    | error e => exact he e hp
  | note line next ih => exact ih hp
  | draw next ih => exact fun nonce => ih nonce (hp nonce)
  | access a next ih => exact ⟨hp.1, fun answer => ih answer (hp.2 answer)⟩

theorem Ensures.bind_any {p : Program α} {f : α → Program β} (hp : p.Ensures P fun _ => True)
    (hf : ∀ a, (f a).Ensures P fun _ => True) : (p.bind f).Ensures P fun _ => True :=
  hp.bind (fun _ _ => trivial) fun a _ => hf a

theorem Ensures.ofExcept_bind {r : Except Failure α} {f : α → Program β}
    (hf : ∀ a, (f a).Ensures P fun _ => True) :
    (Program.ofExcept r >>= f).Ensures P fun _ => True :=
  Ensures.bind_any (p := .ofExcept r) trivial hf

theorem Ensures.mono {p : Program α} {P' : Access → Prop} {Q' : Except Failure α → Prop}
    (hp : p.Ensures P Q) (hP : ∀ a, P a → P' a) (hQ : ∀ r, Q r → Q' r) : p.Ensures P' Q' := by
  induction p with
  | done result => exact hQ result hp
  | note line next ih => exact ih hp
  | draw next ih => exact fun nonce => ih nonce (hp nonce)
  | access a next ih => exact ⟨hP a hp.1, fun answer => ih answer (hp.2 answer)⟩

end Program

def Access.IsLookup (a : Access) : Prop := ∃ org, a = .findKey org

namespace Program

variable {α β : Type} {D : Access → Prop}

-- ---------------------------------------------------------------------------
-- Programs with one decisive access
-- ---------------------------------------------------------------------------

/-- Key lookups and no more than one other access, which satisfies `D`. -/
def Brief (D : Access → Prop) : Program α → Prop
  | .done _ => True
  | .note _ next => next.Brief D
  | .draw next => ∀ nonce, (next nonce).Brief D
  | .access a next =>
    (a.IsLookup ∧ ∀ answer, (next answer).Brief D) ∨
      (D a ∧ ∀ answer, (next answer).Ensures Access.IsLookup fun _ => True)

theorem Brief.of_lookups {p : Program α} (h : p.Ensures Access.IsLookup Q) : p.Brief D := by
  induction p with
  | done result => trivial
  | note line next ih => exact ih h
  | draw next ih => exact fun nonce => ih nonce (h nonce)
  | access a next ih => exact .inl ⟨h.1, fun answer => ih answer (h.2 answer)⟩

theorem Brief.bind_lookups {p : Program α} {f : α → Program β} {Q : Except Failure α → Prop}
    (hp : p.Ensures Access.IsLookup Q) (hf : ∀ a, Q (.ok a) → (f a).Brief D) :
    (p.bind f).Brief D := by
  induction p with
  | done result =>
    cases result with
    | ok a => exact hf a hp
    | error e => trivial
  | note line next ih => exact ih hp
  | draw next ih => exact fun nonce => ih nonce (hp nonce)
  | access a next ih => exact .inl ⟨hp.1, fun answer => ih answer (hp.2 answer)⟩

theorem Brief.bind {p : Program α} {f : α → Program β} (hp : p.Brief D)
    (hf : ∀ a, (f a).Ensures Access.IsLookup fun _ => True) : (p.bind f).Brief D := by
  induction p with
  | done result =>
    cases result with
    | ok a => exact .of_lookups (hf a)
    | error e => trivial
  | note line next ih => exact ih hp
  | draw next ih => exact fun nonce => ih nonce (hp nonce)
  | access a next ih =>
    rcases hp with ⟨ha, hnext⟩ | ⟨ha, hnext⟩
    · exact .inl ⟨ha, fun answer => ih answer (hnext answer)⟩
    · exact .inr ⟨ha, fun answer => (hnext answer).bind_any hf⟩

theorem Brief.ofExcept_bind {r : Except Failure α} {f : α → Program β}
    (hf : ∀ a, (f a).Brief D) : (Program.ofExcept r >>= f).Brief D := by
  cases r with
  | ok a => exact hf a
  | error e => trivial

theorem Brief.mono {p : Program α} {D' : Access → Prop} (hp : p.Brief D) (h : ∀ a, D a → D' a) :
    p.Brief D' := by
  induction p with
  | done result => trivial
  | note line next ih => exact ih hp
  | draw next ih => exact fun nonce => ih nonce (hp nonce)
  | access a next ih =>
    rcases hp with ⟨ha, hnext⟩ | ⟨ha, hnext⟩
    · exact .inl ⟨ha, fun answer => ih answer (hnext answer)⟩
    · exact .inr ⟨h a ha, hnext⟩

theorem Brief.call_bind {a : Access} {f : a.Answer → Program β} (ha : D a)
    (hf : ∀ answer, (f answer).Ensures Access.IsLookup fun _ => True) :
    (call a >>= f).Brief D :=
  .inr ⟨ha, hf⟩

theorem Brief.ensures {p : Program α} {P : Access → Prop} (hp : p.Brief D)
    (hl : ∀ a, a.IsLookup → P a) (hd : ∀ a, D a → P a) : p.Ensures P fun _ => True := by
  induction p with
  | done result => trivial
  | note line next ih => exact ih hp
  | draw next ih => exact fun nonce => ih nonce (hp nonce)
  | access a next ih =>
    rcases hp with ⟨ha, hnext⟩ | ⟨ha, hnext⟩
    · exact ⟨hl a ha, fun answer => ih answer (hnext answer)⟩
    · exact ⟨hd a ha, fun answer => (hnext answer).mono hl fun _ _ => trivial⟩

-- ---------------------------------------------------------------------------
-- Programs that access nothing
-- ---------------------------------------------------------------------------

def saying (lines : List LogLine) (result : Except Failure α) : Program α :=
  lines.foldr .note (.done result)

theorem ensures_saying {P : Access → Prop} {Q : Except Failure α → Prop} (lines : List LogLine)
    {result : Except Failure α} (h : Q result) : (saying lines result).Ensures P Q := by
  induction lines with
  | nil => exact h
  | cons line lines ih => exact ih

theorem saying_ok_bind (a : α) (f : α → Program β) :
    (saying [] (.ok a)).bind f = f a := rfl

theorem saying_error_bind (lines : List LogLine) (e : Failure) (f : α → Program β) :
    (saying lines (.error e)).bind f = saying lines (.error e) := by
  induction lines with
  | nil => rfl
  | cons line lines ih => exact congrArg (Program.note line) ih

theorem saying_inj {lines lines' : List LogLine} {result result' : Except Failure α}
    (h : saying lines result = saying lines' result') : lines = lines' ∧ result = result' := by
  induction lines generalizing lines' with
  | nil =>
    cases lines' with
    | nil => exact ⟨rfl, Program.done.inj h⟩
    | cons line lines' => cases h
  | cons line lines ih =>
    cases lines' with
    | nil => cases h
    | cons line' lines' =>
      obtain ⟨rfl, hrest⟩ := Program.note.inj h
      obtain ⟨rfl, rfl⟩ := ih hrest
      exact ⟨rfl, rfl⟩

@[simp] theorem run_saying {σ : Type} (b : Backend σ) (lines : List LogLine)
    (result : Except Failure α) (s : σ) : (saying lines result).run b s = ⟨result, lines, s⟩ := by
  induction lines with
  | nil => rfl
  | cons line lines ih =>
    change Program.run b (.note line (saying lines result)) s = _
    rw [run, ih]

end Program
end EnvelopeVault
