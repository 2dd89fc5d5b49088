import EnvelopeVault.Proofs.Interleaving
import EnvelopeVault.Proofs.Request

/-!
# Versions count updates

`versions_count_updates`: along every interleaving the version of a row says how
often the row was updated, and an update that expects a version is applied at
that version or not at all. The version of a row only grows, and an id that lost
its row stays without one, so a version that was overwritten never comes back;
therefore two updates that expect the same version cannot both be applied.
-/

namespace EnvelopeVault

open Layout

variable {n : Nat} {id : Text}

-- ---------------------------------------------------------------------------
-- Counting
-- ---------------------------------------------------------------------------

def Event.isWriteOf (id : Text) (e : Event n) : Bool := e.access.writes e.before.memory id

def writeCount (id : Text) (events : List (Event n)) : Nat := events.countP (·.isWriteOf id)

/-- The version that a row begins with: the one that it has, or that of a new row. -/
def Memory.firstVersion (m : Memory) (id : Text) : Int :=
  match (m.rows.get? id).bind (Assoc.get? · "version") with
  | some (.int v) => v
  | _ => 1

theorem Memory.firstVersion_eq {m : Memory} (h : m.rows.get? id = some row)
    (hv : Holds row "version" (· = .int v)) : m.firstVersion id = v := by
  obtain ⟨_, hg, rfl⟩ := hv
  simp [firstVersion, h, hg]

theorem Memory.firstVersion_absent {m : Memory} (h : m.rows.get? id = none) :
    m.firstVersion id = 1 := by
  simp [firstVersion, h]

section Run

variable {start crowd : Crowd n} {events : List (Event n)}
  (hs : start.world.Sound)
  (hp : ∀ i, (start.callers i).program.Ensures Access.IsOrderly fun _ => True)
include hs hp

theorem Run.writeCount_eq_zero (h : Run start events crowd) (hid : id ∉ crowd.world.used) :
    writeCount id events = 0 := by
  rw [writeCount, List.countP_eq_zero]
  intro e he hw
  obtain ⟨hsound, -, -, hafter⟩ := (h.traced hs hp).met e he
  obtain ⟨_, _, _, row, _, -, -, -, hrow, -⟩ :=
    World.of_writes hsound ((h.ensures hp).2 e he) hw
  have hin : id ∈ e.before.used := hsound.used _ (Assoc.mem_names_of_get? hrow)
  exact hid (hafter.used _ (List.mem_append_right _ hin))

/-- As long as a row exists its version is the first one and the number of its updates. -/
theorem Run.version_eq (h : Run start events crowd)
    (hrow : crowd.world.memory.rows.get? id = some row) :
    Holds row "version" (· = .int (start.world.memory.firstVersion id + writeCount id events)) := by
  induction h generalizing row with
  | nil =>
    obtain ⟨v, hv⟩ := hs.versions id row hrow
    rw [Memory.firstVersion_eq hrow hv]
    simpa [writeCount] using hv
  | @snoc events crowd i a p nonces hrun hstep hfresh ih =>
    have hsound := (hrun.traced hs hp).sound
    have ha := ((hrun.ensures hp).1 i |>.step hstep).1
    rw [writeCount, List.countP_append, List.countP_singleton, Event.isWriteOf]
    cases hw : a.writes crowd.world.memory id with
    | true =>
      obtain ⟨_, fields, _, row', v, -, -, hn, hrow', hv, -, hafter⟩ :=
        World.of_writes hsound ha hw
      rw [Crowd.move_world, hafter, Assoc.get?_put, if_pos rfl] at hrow
      cases hrow
      have hv' := ih hrow'
      cases hv.unique hv'
      rw [writeCount, Int.add_assoc]
      exact overlay_version row' _
    | false =>
      rcases World.of_not_writes hsound ha hw hrow with hsame | ⟨cells, rfl, rfl, hv⟩
      · simpa [writeCount] using ih hsame
      · have hused := hrun.writeCount_eq_zero hs hp hfresh
        have habsent : start.world.memory.rows.get? crowd.world.memory.nextId.toText = none := by
          cases hg : start.world.memory.rows.get? crowd.world.memory.nextId.toText with
          | none => rfl
          | some first =>
            have hin := (hrun.traced hs hp).evolves.used _
              (hs.used _ (Assoc.mem_names_of_get? hg))
            exact absurd hin hfresh
        rw [writeCount] at hused
        rw [Memory.firstVersion_absent habsent, hused]
        exact hv

end Run

-- ---------------------------------------------------------------------------
-- What a program says it wrote
-- ---------------------------------------------------------------------------

/-- Where a program ends, `Q` holds of its result and of whether an update of it was taken. -/
def Program.Accounts {α : Type} (Q : Bool → Except Failure α → Prop) : Bool → Program α → Prop
  | taken, .done result => Q taken result
  | taken, .note _ next => next.Accounts Q taken
  | taken, .draw next => ∀ nonce, (next nonce).Accounts Q taken
  | taken, .access a next => ∀ answer, (next answer).Accounts Q (taken || a.isTaken answer)

namespace Program

variable {α β : Type} {Q : Bool → Except Failure α → Prop} {R : Bool → Except Failure β → Prop}
  {taken : Bool}

theorem Accounts.bind_lookups {p : Program α} {f : α → Program β} {S : Except Failure α → Prop}
    (hp : p.Ensures Access.IsLookup S) (he : ∀ e, S (.error e) → R taken (.error e))
    (hf : ∀ a, S (.ok a) → (f a).Accounts R taken) : (p.bind f).Accounts R taken := by
  induction p with
  | done result =>
    cases result with
    | ok a => exact hf a hp
    | error e => exact he e hp
  | note line next ih => exact ih hp
  | draw next ih => exact fun nonce => ih nonce (hp nonce)
  | access a next ih =>
    obtain ⟨⟨org, rfl⟩, hnext⟩ := hp
    intro answer
    rw [show (taken || Access.isTaken _ answer) = taken from Bool.or_false taken]
    exact ih answer (hnext answer)

theorem Accounts.map {p : Program α} {f : α → β} (hp : p.Accounts Q taken)
    (h : ∀ taken r, Q taken r → R taken (r.map f)) :
    (p.bind fun a => .done (.ok (f a))).Accounts R taken := by
  induction p generalizing taken with
  | done result => cases result <;> exact h _ _ hp
  | note line next ih => exact ih hp
  | draw next ih => exact fun nonce => ih nonce (hp nonce)
  | access a next ih => exact fun answer => ih answer (hp answer)

theorem Accounts.step {p : Program α} (hp : p.Accounts Q taken)
    (hstore : ∀ taken e, e.IsNeutral → Q taken (.error e))
    (hstep : p.step? m nonces = some (a, p', nonces')) : p'.Accounts Q (taken || a.took m) := by
  induction p generalizing nonces with
  | done result => cases hstep
  | note line next ih => exact ih hp hstep
  | draw next ih => exact ih _ (hp _) hstep
  | access b next ih =>
    rw [step?] at hstep
    cases ha : (Memory.answer b m).1 with
    | error e =>
      rw [ha] at hstep
      cases hstep
      exact hstore _ e ((Memory.answer_neutral _ m).error ha)
    | ok answer =>
      rw [ha] at hstep
      cases hstep
      rw [Access.took, ha]
      exact hp answer

theorem Accounts.result {p : Program α} (hp : p.Accounts Q taken)
    (h : p.result? nonces = some r) : Q taken r := by
  induction p generalizing nonces with
  | done result =>
    cases h
    exact hp
  | note line next ih => exact ih hp h
  | draw next ih => exact ih _ (hp _) h
  | access a next ih => cases h

end Program

/-- An update that gives an id was taken; one that fails over its secret was not. -/
def Honest (taken : Bool) (r : Except Failure α) : Prop :=
  match r with
  | .ok _ => taken = true
  | .error e => ¬ e.IsNeutral → taken = false

theorem Vault.update_honest {changes : Changes} (h : changes.provided.isEmpty = false)
    (root : Bytes) (secret org : Value) (expected : Option Value) :
    (Vault.update root secret changes org expected).Accounts Honest false := by
  rw [Vault.update_eq h]
  intro found
  change (Vault.proceed ..).Accounts Honest false
  unfold Vault.proceed
  split
  · exact fun _ => rfl
  rw [Vault.writeChanges_eq]
  refine .bind_lookups (Vault.sealChanges_ensures root changes ⟨org, rfl⟩) (fun _ _ _ => rfl) ?_
  intro fields _ answer
  cases answer with
  | none =>
    change (Vault.refused ..).Accounts Honest false
    rw [Vault.refused_eq]
    exact fun found _ => rfl
  | some row =>
    change Honest true ((cellOf row "id").map _)
    cases hid : cellOf row "id" with
    | ok id => rfl
    | error e => exact fun hn => absurd ((cellOf_neutral ..).error hid) hn

theorem Request.update_honest (root : Bytes) (secret given org : Value)
    (expected : Option Value) :
    ((Request.update secret given org expected).program root).Accounts Honest false := by
  rcases update_program root secret given org expected with
    ⟨e, hprogram, -⟩ | ⟨changes, hp, hprogram⟩
  · rw [hprogram]
    exact fun _ => rfl
  · rw [hprogram]
    refine (Vault.update_honest hp root secret org expected).map ?_
    rintro taken (e | t) h
    · exact h
    · exact h

def wasTaken (i : Fin n) (events : List (Event n)) : Bool :=
  events.any fun e => e.caller == i && e.access.took e.before.memory

/-- Along a run a caller's program accounts for what was taken of it so far. -/
theorem Run.accounts {start crowd : Crowd n} {Q : Bool → Except Failure Reply → Prop}
    (h : Run start events crowd) (hq : (start.callers j).program.Accounts Q false)
    (hstore : ∀ taken e, e.IsNeutral → Q taken (.error e)) :
    (crowd.callers j).program.Accounts Q (wasTaken j events) := by
  induction h with
  | nil => exact hq
  | @snoc events crowd i a p nonces _ hstep _ ih =>
    rw [wasTaken, List.any_append, List.any_cons, List.any_nil, Bool.or_false]
    by_cases hj : i = j
    · subst hj
      rw [Crowd.move_self, BEq.rfl, Bool.true_and]
      exact ih.step hstore hstep
    · rw [crowd.move_of_ne _ _ (Ne.symm hj), beq_false_of_ne hj, Bool.false_and, Bool.or_false]
      exact ih

-- ---------------------------------------------------------------------------
-- Updates that expect a version
-- ---------------------------------------------------------------------------

structure WrittenAt (e : Event n) (id : Text) (expected : Option Value) (v : Int) : Prop where
  expects : expected.all (·.isNumber v) = true
  before : ∃ row, e.before.memory.rows.get? id = some row ∧ Holds row "version" (· = .int v)
  after : ∃ row, e.after.memory.rows.get? id = some row ∧ Holds row "version" (· = .int (v + 1))

theorem writtenAt_of_writes {e : Event n} {r : Request} (hs : e.before.Sound)
    (ha : r.MayAccess e.access) (hw : e.isWriteOf id = true) :
    ∃ secret given org expected v, r = .update secret given org expected ∧
      secret.toText = id ∧ WrittenAt e id expected v := by
  obtain ⟨secret, fields, expected, row, v, heq, hid, hn, hrow, hv, hexp, hafter⟩ :=
    World.of_writes hs ha.isOrderly hw
  rw [heq] at ha
  obtain ⟨⟨given, org, rfl⟩, -⟩ := ha
  refine ⟨secret, given, org, expected, v, rfl, hid, hexp, ⟨row, hrow, hv⟩,
    overlay row fields (v + 1), ?_, overlay_version row _⟩
  rw [Event.after, hafter, Assoc.get?_put, if_pos rfl]

theorem WrittenAt.lt {e e' : Event n} (h : WrittenAt e id expected v)
    (h' : WrittenAt e' id expected' v') (he : e.after.Evolves e'.before) : v < v' := by
  obtain ⟨row, hrow, hv⟩ := h.after
  obtain ⟨row', hrow', hv'⟩ := h'.before
  have hid : id ∈ e.after.used :=
    List.mem_append_left _ (Assoc.mem_names_of_get? hrow)
  obtain ⟨_, hsame, hsucc⟩ := he.rows id hid row' hrow'
  cases hrow.symm.trans hsame
  have := hsucc.version_le hv hv'
  omega

section Requests

variable {crowd : Crowd n} {events : List (Event n)} {root : Bytes} {requests : Fin n → Request}
  {nonces : Fin n → Nonces} {m : Memory} (hm : m.HasIntegerVersions)
  (hrun : Run (Crowd.requesting root requests nonces m) events crowd)
include hm hrun

theorem requests_traced : Traced (Crowd.requesting root requests nonces m) events crowd :=
  hrun.traced (.start hm) fun i =>
    (Request.ensures root (requests i)).mono (fun _ => Request.MayAccess.isOrderly) fun _ h => h

omit hm in
theorem requests_access : ∀ e ∈ events, (requests e.caller).MayAccess e.access :=
  (hrun.ensures fun i => Request.ensures root (requests i)).2

theorem row_of_not_write (he : e ∈ events) (hw : e.isWriteOf id = false)
    (hrow : e.before.memory.rows.get? id = some row)
    (hrow' : e.after.memory.rows.get? id = some row') : row' = row := by
  obtain ⟨hsound, hfresh, -⟩ := (requests_traced hm hrun).met e he
  have ha := (requests_access hrun e he).isOrderly
  rcases World.of_not_writes hsound ha hw hrow' with hsame | ⟨cells, heq, rfl, -⟩
  · exact Option.some.inj (hsame.symm.trans hrow)
  · rw [heq] at hfresh
    exact absurd (hsound.used _ (Assoc.mem_names_of_get? hrow)) hfresh

omit hm in
theorem update_accounts (hi : requests i = .update secret given org expected)
    (hr : (crowd.callers i).result? = some r) : Honest (wasTaken i events) r := by
  have hstart : ((requests i).program root).Accounts Honest false := by
    rw [hi]
    exact Request.update_honest root secret given org expected
  exact (hrun.accounts hstart fun _ _ he hn => absurd he hn).result hr

theorem exists_write (hi : requests i = .update secret given org expected)
    (hr : (crowd.callers i).result? = some (.ok reply)) :
    ∃ e ∈ events, e.caller = i ∧ ∃ v, WrittenAt e secret.toText expected v := by
  have htaken : wasTaken i events = true := update_accounts hrun hi hr
  obtain ⟨e, he, htook⟩ := List.any_eq_true.mp htaken
  rw [Bool.and_eq_true, beq_iff_eq] at htook
  obtain ⟨hcaller, htook⟩ := htook
  obtain ⟨_, columns, _, heq, hw⟩ := Access.writes_of_took htook
  have ha := requests_access hrun e he
  rw [hcaller, hi] at ha
  have hsecret := ha
  rw [heq] at hsecret
  obtain ⟨⟨_, _, hsame⟩, -⟩ := hsecret
  cases hsame
  obtain ⟨_, _, _, _, v, hsame, -, hwritten⟩ :=
    writtenAt_of_writes ((requests_traced hm hrun).met e he).1 ha hw
  cases hsame
  exact ⟨e, he, hcaller, v, hwritten⟩

/-- Of updates of one secret that expect the same version one gives an id. -/
theorem winner_unique (hi : requests i = .update secret given org (some x))
    (hj : requests j = .update secret' given' org' (some y))
    (hsecret : secret.toText = secret'.toText) (hx : x.isNumber v = true)
    (hy : y.isNumber v = true) (hri : (crowd.callers i).result? = some (.ok reply))
    (hrj : (crowd.callers j).result? = some (.ok reply')) : i = j := by
  obtain ⟨e, he, rfl, u, hwritten⟩ := exists_write hm hrun hi hri
  obtain ⟨e', he', rfl, u', hwritten'⟩ := exists_write hm hrun hj hrj
  rw [← hsecret] at hwritten'
  cases Value.isNumber_unique hx hwritten.expects
  cases Value.isNumber_unique hy hwritten'.expects
  have hordered := List.pairwise_iff_getElem.mp (requests_traced hm hrun).ordered
  obtain ⟨k, hk, rfl⟩ := List.getElem_of_mem he
  obtain ⟨l, hl, rfl⟩ := List.getElem_of_mem he'
  rcases Nat.lt_trichotomy k l with hlt | rfl | hlt
  · exact absurd (hwritten.lt hwritten' (hordered k l hk hl hlt)) (Int.lt_irrefl v)
  · rfl
  · exact absurd (hwritten'.lt hwritten (hordered l k hl hk hlt)) (Int.lt_irrefl v)

theorem contents_of_failure {e : Event n} {failure : Failure}
    (hi : requests i = .update secret given org expected)
    (hr : (crowd.callers i).result? = some (.error failure)) (hn : ¬ failure.IsNeutral)
    (he : e ∈ events) (hcaller : e.caller = i) :
    e.after.memory.contents = e.before.memory.contents := by
  have htaken : wasTaken i events = false := update_accounts hrun hi hr hn
  have htook : e.access.took e.before.memory = false := by
    have h := List.any_eq_false.mp htaken e he
    rw [Bool.and_eq_true, not_and, beq_iff_eq] at h
    exact Bool.eq_false_iff.mpr (h hcaller)
  obtain ⟨hsound, -⟩ := (requests_traced hm hrun).met e he
  have ha := requests_access hrun e he
  rw [hcaller, hi] at ha
  rw [Event.after]
  generalize e.access = a at ha htook
  cases a with
  | insert row =>
    obtain ⟨⟨_, _, _, h⟩, -⟩ := ha
    cases h
  | update secret columns expected => exact World.contents_of_refused hsound ha.isOrderly htook
  | delete secret => cases ha
  | _ => rfl

end Requests

/-- Along every run of requests, however their accesses are ordered: a row's version is the one
that it began with and the number of its updates; nothing but an update changes a row that stays;
an update is applied at the version that it expects, seen at the moment of its write, and leaves
the next one; of the updates of a secret that expect the same version one succeeds; and an update
that ends in a conflict, or without finding its secret, has changed nothing. -/
theorem versions_count_updates {crowd : Crowd n} {events : List (Event n)} (root : Bytes)
    (requests : Fin n → Request) (nonces : Fin n → Nonces) (m : Memory)
    (hm : m.HasIntegerVersions)
    (hrun : Run (Crowd.requesting root requests nonces m) events crowd) :
    (∀ id row, crowd.world.memory.rows.get? id = some row →
      Holds row "version" (· = .int (m.firstVersion id + writeCount id events))) ∧
    (∀ e ∈ events, ∀ id row row', e.isWriteOf id = false →
      e.before.memory.rows.get? id = some row → e.after.memory.rows.get? id = some row' →
      row' = row) ∧
    (∀ e ∈ events, ∀ id, e.isWriteOf id = true →
      ∃ secret given org expected v, requests e.caller = .update secret given org expected ∧
        secret.toText = id ∧ WrittenAt e id expected v) ∧
    (∀ i j secret given org x secret' given' org' y v reply reply',
      requests i = .update secret given org (some x) →
      requests j = .update secret' given' org' (some y) →
      secret.toText = secret'.toText → x.isNumber v = true → y.isNumber v = true →
      (crowd.callers i).result? = some (.ok reply) →
      (crowd.callers j).result? = some (.ok reply') → i = j) ∧
    ∀ i secret given org expected failure, requests i = .update secret given org expected →
      (crowd.callers i).result? = some (.error failure) → ¬ failure.IsNeutral →
      ∀ e ∈ events, e.caller = i → e.after.memory.contents = e.before.memory.contents := by
  refine ⟨fun id row hrow => ?_, ?_, ?_, ?_, ?_⟩
  · exact hrun.version_eq (.start hm) (fun i => (Request.ensures root (requests i)).mono
      (fun _ => Request.MayAccess.isOrderly) fun _ h => h) hrow
  · exact fun e he id row row' => row_of_not_write hm hrun he
  · exact fun e he id => writtenAt_of_writes ((requests_traced hm hrun).met e he).1
      (requests_access hrun e he)
  · exact fun i j secret given org x secret' given' org' y v reply reply' =>
      winner_unique hm hrun
  · exact fun i secret given org expected failure hi hr hn e he hcaller =>
      contents_of_failure hm hrun hi hr hn he hcaller

/-- The hypotheses hold of a race, in which an update ends in a conflict. -/
theorem race_versions : ∃ events crowd, Run Race.start events crowd ∧
    ∀ e ∈ events, e.caller = 2 → e.after.memory.contents = e.before.memory.contents := by
  obtain ⟨events, crowd, result, hrun, hend, -, -, hconflict⟩ := Race.exists_run
  exact ⟨events, crowd, hrun,
    (versions_count_updates _ _ _ _ Race.store_versions hrun).2.2.2.2 2 _ _ _ _ _ rfl
      (hconflict ▸ hend 2) fun hn => hn.2 (Vault.conflict_isConflict ..)⟩

end EnvelopeVault
