import EnvelopeVault.Proofs.Atomic

/-!
# Concurrent requests are linearizable

`requests_linearizable`: whatever the order of their accesses, requests that
have all ended come to the results, and leave the rows, that they come to when
they run whole, one after the other, in the order of one moment of each.

The invariant of a run is `Linearized`. It splits the callers into those that
have taken effect, whose order is already fixed and whose ends key records
settle, and those that have not, whose programs are `Atomic`. A step either
moves its caller to the end of the order or leaves the contents of the store
alone (`Linearized.step`).
-/

namespace EnvelopeVault

-- ---------------------------------------------------------------------------
-- One after the other
-- ---------------------------------------------------------------------------

variable {n : Nat}

def inTurn (callers : Fin n → Caller) :
    List (Fin n) → Memory → List (Fin n × Except Failure Reply) × Memory
  | [], m => ([], m)
  | i :: rest, m =>
    let c := callers i
    let o := c.program.run Memory.backend { m with nonces := c.nonces }
    let (results, final) := inTurn callers rest o.state
    ((i, o.result) :: results, final)

theorem inTurn_append (callers : Fin n → Caller) (first rest : List (Fin n)) (m : Memory) :
    inTurn callers (first ++ rest) m =
      ((inTurn callers first m).1 ++ (inTurn callers rest (inTurn callers first m).2).1,
        (inTurn callers rest (inTurn callers first m).2).2) := by
  induction first generalizing m with
  | nil => rfl
  | cons i first ih => simp only [List.cons_append, inTurn, ih]

theorem inTurn_snoc {callers : Fin n → Caller} {m final : Memory}
    (hc : (inTurn callers order m).2.contents = final.contents) (i : Fin n) :
    (inTurn callers (order ++ [i]) m).1 =
      (inTurn callers order m).1 ++ [(i, ((callers i).effect final).1)] ∧
    (inTurn callers (order ++ [i]) m).2.contents = ((callers i).effect final).2 := by
  have he : (callers i).effect (inTurn callers order m).2 = (callers i).effect final :=
    Program.effect_congr _ _ hc
  rw [inTurn_append, ← he]
  exact ⟨rfl, rfl⟩

-- ---------------------------------------------------------------------------
-- Runs that are linearized so far
-- ---------------------------------------------------------------------------

/-- The callers that have taken effect, in the order of their moments, come to their results one
after the other, and to the contents that the store has now. The others are still to take effect,
or have no access to make. -/
structure Linearized (start : Crowd n) (events : List (Event n)) (crowd : Crowd n)
    (order : List (Fin n)) (moment : Fin n → Nat) (result : Fin n → Except Failure Reply) :
    Prop where
  nodup : order.Nodup
  sorted : order.Pairwise fun i j => moment i < moment j
  own : ∀ i ∈ order, ∃ e, events[moment i]? = some e ∧ e.caller = i ∧
    ((start.callers i).effect e.before.memory).1 = result i
  results : (inTurn start.callers order start.world.memory).1 = order.map fun i => (i, result i)
  contents : (inTurn start.callers order start.world.memory).2.contents =
    crowd.world.memory.contents
  settled : ∀ i ∈ order, ∃ left, (crowd.callers i).program.settle crowd.world.memory.keys
    (crowd.callers i).nonces = some (result i, left)
  waiting : ∀ i ∉ order,
    ((∃ r, (start.callers i).result? = some r) ∧ crowd.callers i = start.callers i ∧
      ∀ e ∈ events, e.caller ≠ i) ∨
    (crowd.callers i).program.Atomic (start.callers i).effect (crowd.callers i).nonces crowd.world

theorem Linearized.start (start : Crowd n)
    (h : ∀ i, (∃ r, (start.callers i).result? = some r) ∨
      (start.callers i).program.Atomic (start.callers i).effect (start.callers i).nonces
        start.world) (moment : Fin n → Nat) (result : Fin n → Except Failure Reply) :
    Linearized start [] start [] moment result where
  nodup := .nil
  sorted := .nil
  own _ hi := nomatch hi
  results := rfl
  contents := rfl
  settled _ hi := nomatch hi
  waiting i _ := (h i).imp_left fun hr => ⟨hr, rfl, fun _ he => nomatch he⟩

section Step

variable {start crowd : Crowd n} {events : List (Event n)} {order : List (Fin n)}
  {moment : Fin n → Nat} {result : Fin n → Except Failure Reply} {i : Fin n} {a : Access}
  {p : Program Reply} {nonces : Nonces}
  (h : Linearized start events crowd order moment result)
include h

theorem Linearized.own_append (e : Event n) : ∀ j ∈ order, ∃ e', (events ++ [e])[moment j]? =
    some e' ∧ e'.caller = j ∧ ((start.callers j).effect e'.before.memory).1 = result j := by
  intro j hj
  obtain ⟨e', hget, hown⟩ := h.own j hj
  exact ⟨e', by rw [List.getElem?_append_left (List.getElem?_eq_some_iff.mp hget).1, hget], hown⟩

variable (he : crowd.world.Evolves (crowd.world.after a))
include he

theorem Linearized.settled_move (next : Caller) : ∀ j ∈ order, j ≠ i →
    ∃ left, ((crowd.move i a next).callers j).program.settle (crowd.world.after a).memory.keys
      ((crowd.move i a next).callers j).nonces = some (result j, left) := by
  intro j hj hne
  rw [crowd.move_of_ne _ _ hne, he.keys]
  exact h.settled j hj

theorem Linearized.waiting_move (next : Caller) : ∀ j ∉ order, j ≠ i →
    ((∃ r, (start.callers j).result? = some r) ∧
      (crowd.move i a next).callers j = start.callers j ∧
      ∀ e ∈ events ++ [⟨i, a, crowd.world⟩], e.caller ≠ j) ∨
    ((crowd.move i a next).callers j).program.Atomic (start.callers j).effect
      ((crowd.move i a next).callers j).nonces (crowd.world.after a) := by
  intro j hj hne
  rw [crowd.move_of_ne _ _ hne]
  rcases h.waiting j hj with ⟨hr, hsame, hevents⟩ | hatomic
  · refine .inl ⟨hr, hsame, fun e hmem => ?_⟩
    rcases List.mem_append.mp hmem with hmem | hmem
    · exact hevents e hmem
    · rw [List.mem_singleton.mp hmem]
      exact Ne.symm hne
  · exact .inr (hatomic.evolve he)

theorem Linearized.pass
    (hc : (crowd.world.after a).memory.contents = crowd.world.memory.contents)
    (hin : i ∈ order → ∃ left, p.settle crowd.world.memory.keys nonces = some (result i, left))
    (hout : i ∉ order → p.Atomic (start.callers i).effect nonces crowd.world) :
    Linearized start (events ++ [⟨i, a, crowd.world⟩]) (crowd.move i a ⟨p, nonces⟩) order moment
      result where
  nodup := h.nodup
  sorted := h.sorted
  own := h.own_append _
  results := h.results
  contents := h.contents.trans hc.symm
  settled j hj := by
    by_cases hne : j = i
    · subst hne
      rw [crowd.move_self, crowd.move_world, he.keys]
      exact hin hj
    · exact h.settled_move he _ j hj hne
  waiting j hj := by
    by_cases hne : j = i
    · subst hne
      rw [crowd.move_self]
      exact .inr ((hout hj).evolve he)
    · exact h.waiting_move he _ j hj hne

theorem Linearized.effect (hi : i ∉ order)
    (hsettle : ∃ left, p.settle crowd.world.memory.keys nonces = some (r, left))
    (hr : (start.callers i).effect crowd.world.memory =
      (r, (crowd.world.after a).memory.contents)) :
    Linearized start (events ++ [⟨i, a, crowd.world⟩]) (crowd.move i a ⟨p, nonces⟩) (order ++ [i])
      (Function.update moment i events.length) (Function.update result i r) := by
  have hne : ∀ j ∈ order, j ≠ i := fun j hj => by
    rintro rfl
    exact hi hj
  have hmoment : ∀ j ∈ order, Function.update moment i events.length j = moment j :=
    fun j hj => Function.update_of_ne (hne j hj) ..
  have hresult : ∀ j ∈ order, Function.update result i r j = result j :=
    fun j hj => Function.update_of_ne (hne j hj) ..
  obtain ⟨hresults, hcontents⟩ := inTurn_snoc h.contents i
  constructor
  · refine List.nodup_append.mpr ⟨h.nodup, List.pairwise_singleton .., ?_⟩
    intro j hj k hk
    rw [List.mem_singleton.mp hk]
    exact hne j hj
  · refine List.pairwise_append.mpr ⟨h.sorted.imp_of_mem ?_, List.pairwise_singleton .., ?_⟩
    · intro j k hj hk hlt
      rwa [hmoment j hj, hmoment k hk]
    · intro j hj k hk
      rw [List.mem_singleton.mp hk, hmoment j hj, Function.update_self]
      obtain ⟨e, hget, -⟩ := h.own j hj
      exact (List.getElem?_eq_some_iff.mp hget).1
  · intro j hj
    rcases List.mem_append.mp hj with hj | hj
    · rw [hmoment j hj, hresult j hj]
      exact h.own_append _ j hj
    · rw [List.mem_singleton.mp hj, Function.update_self, Function.update_self]
      exact ⟨_, List.getElem?_concat_length, rfl, congrArg Prod.fst hr⟩
  · rw [hresults, h.results, List.map_append, hr]
    congr 1
    · exact List.map_congr_left fun j hj => by rw [hresult j hj]
    · simp
  · rw [hcontents, hr]
    rfl
  · intro j hj
    rcases List.mem_append.mp hj with hj | hj
    · rw [hresult j hj]
      exact h.settled_move he _ j hj (hne j hj)
    · rw [List.mem_singleton.mp hj, crowd.move_self, crowd.move_world, he.keys,
        Function.update_self]
      exact hsettle
  · intro j hj
    rw [List.mem_append, List.mem_singleton, not_or] at hj
    exact h.waiting_move he _ j hj.1 hj.2

end Step

theorem Linearized.step {start crowd : Crowd n}
    (h : Linearized start events crowd order moment result) (hs : crowd.world.Sound)
    (he : crowd.world.Evolves (crowd.world.after a))
    (hstep : (crowd.callers i).program.step? crowd.world.memory (crowd.callers i).nonces =
      some (a, p, nonces)) :
    ∃ order moment result, Linearized start (events ++ [⟨i, a, crowd.world⟩])
      (crowd.move i a ⟨p, nonces⟩) order moment result := by
  by_cases hi : i ∈ order
  · obtain ⟨left, hsettle⟩ := h.settled i hi
    obtain ⟨⟨org, rfl⟩, hsettle'⟩ := Program.settle_step hsettle hstep
    exact ⟨order, moment, result, h.pass he rfl (fun _ => ⟨left, hsettle'⟩) fun hn => absurd hi hn⟩
  · rcases h.waiting i hi with ⟨⟨r, hr⟩, hsame, -⟩ | hatomic
    · rw [hsame, Program.step?_of_result hr] at hstep
      cases hstep
    · rcases hatomic.step hs hstep with ⟨r, left, hsettle, hr⟩ | ⟨hc, hnext⟩
      · rw [he.keys] at hsettle
        exact ⟨_, _, _, h.effect he hi ⟨left, hsettle⟩ hr⟩
      · exact ⟨order, moment, result, h.pass he hc (fun hin => absurd hin hi) fun _ => hnext⟩

theorem Run.linearized {start crowd : Crowd n} (h : Run start events crowd)
    (hs : start.world.Sound)
    (hp : ∀ i, (start.callers i).program.Ensures Access.IsOrderly fun _ => True)
    (ha : ∀ i, (∃ r, (start.callers i).result? = some r) ∨
      (start.callers i).program.Atomic (start.callers i).effect (start.callers i).nonces
        start.world) :
    ∃ order moment result, Linearized start events crowd order moment result := by
  induction h with
  | nil => exact ⟨[], fun _ => 0, fun i => .error .fieldKeySize, .start start ha _ _⟩
  | snoc hrun hstep hfresh ih =>
    obtain ⟨order, moment, result, hlin⟩ := ih
    have hsound := (hrun.traced hs hp).sound
    have horderly := ((hrun.ensures hp).1 _ |>.step hstep).1
    exact hlin.step hsound (World.after_evolves hsound horderly hfresh) hstep

-- ---------------------------------------------------------------------------
-- Runs that have ended
-- ---------------------------------------------------------------------------

/-- An order of all callers, each at a moment at which it made an access, in which they come to
their results one after the other and to the rows that there are in the end. -/
structure Explains (start : Crowd n) (events : List (Event n)) (crowd : Crowd n)
    (result : Fin n → Except Failure Reply) (order : List (Fin n)) (moment : Fin n → Nat) :
    Prop where
  complete : order.Perm (List.finRange n)
  sorted : order.Pairwise fun i j => moment i ≤ moment j
  own : ∀ i, (∃ e ∈ events, e.caller = i) → ∃ e, events[moment i]? = some e ∧ e.caller = i ∧
    ((start.callers i).effect e.before.memory).1 = result i
  results : (inTurn start.callers order start.world.memory).1 = order.map fun i => (i, result i)
  rows : (inTurn start.callers order start.world.memory).2.rows = crowd.world.memory.rows

theorem inTurn_idle {callers : Fin n → Caller} {result : Fin n → Except Failure Reply}
    {rest : List (Fin n)} (h : ∀ i ∈ rest, (callers i).result? = some (result i)) (m : Memory) :
    (inTurn callers rest m).1 = rest.map (fun i => (i, result i)) ∧
      (inTurn callers rest m).2.contents = m.contents := by
  induction rest generalizing m with
  | nil => exact ⟨rfl, rfl⟩
  | cons i rest ih =>
    obtain ⟨left, hsettle⟩ := Program.settle_of_result (h i List.mem_cons_self) m.keys
    have heffect : (callers i).effect m = (result i, m.contents) :=
      Program.effect_settled hsettle
    have hstate := congrArg Prod.snd heffect
    obtain ⟨hresults, hcontents⟩ := ih (fun j hj => h j (List.mem_cons_of_mem _ hj))
      ((callers i).program.run Memory.backend { m with nonces := (callers i).nonces }).state
    exact ⟨congr (congrArg _ (congrArg (i, ·) (congrArg Prod.fst heffect))) hresults,
      hcontents.trans hstate⟩

theorem Linearized.explains {start crowd : Crowd n}
    (h : Linearized start events crowd order moment answer)
    (hend : ∀ i, (crowd.callers i).result? = some (result i)) :
    ∃ order moment, Explains start events crowd result order moment := by
  have hin : ∀ i ∈ order, answer i = result i := by
    intro i hi
    obtain ⟨left, hsettle⟩ := h.settled i hi
    obtain ⟨left', hsettle'⟩ :=
      Program.settle_of_result (hend i) crowd.world.memory.keys
    exact congrArg Prod.fst (Option.some.inj (hsettle.symm.trans hsettle'))
  have hout : ∀ i ∉ order, (start.callers i).result? = some (result i) ∧
      ∀ e ∈ events, e.caller ≠ i := by
    intro i hi
    rcases h.waiting i hi with ⟨-, hsame, hevents⟩ | hatomic
    · exact ⟨hsame ▸ hend i, hevents⟩
    · exact absurd (hatomic.result?.symm.trans (hend i)) nofun
  let rest := (List.finRange n).filter (· ∉ order)
  have hrest : ∀ i ∈ rest, i ∉ order := fun i hi => by simpa [rest] using hi
  obtain ⟨hresults, hcontents⟩ := inTurn_idle (fun i hi => (hout i (hrest i hi)).1)
    (inTurn start.callers order start.world.memory).2
  refine ⟨order ++ rest, fun i => if i ∈ order then moment i else events.length, ?_⟩
  constructor
  · refine (List.perm_ext_iff_of_nodup ?_ (List.nodup_finRange n)).mpr fun i => ?_
    · refine List.nodup_append.mpr ⟨h.nodup, (List.nodup_finRange n).filter _, ?_⟩
      rintro i hi _ hj rfl
      exact hrest i hj hi
    · by_cases hi : i ∈ order <;> simp [rest, hi, List.mem_finRange]
  · refine List.pairwise_append.mpr ⟨?_, ?_, ?_⟩
    · refine h.sorted.imp_of_mem fun hi hj hlt => ?_
      rw [if_pos hi, if_pos hj]
      exact Nat.le_of_lt hlt
    · refine List.Pairwise.imp_of_mem (fun hi hj _ => ?_) (List.nodup_finRange n |>.filter _)
      exact Nat.le_of_eq (by rw [if_neg (hrest _ hi), if_neg (hrest _ hj)])
    · intro i hi j hj
      rw [if_pos hi, if_neg (hrest j hj)]
      obtain ⟨e, hget, -⟩ := h.own i hi
      exact Nat.le_of_lt (List.getElem?_eq_some_iff.mp hget).1
  · rintro i ⟨e, he, hcaller⟩
    by_cases hi : i ∈ order
    · rw [if_pos hi, ← hin i hi]
      exact h.own i hi
    · exact absurd hcaller ((hout i hi).2 e he)
  · rw [inTurn_append, h.results, hresults, List.map_append]
    have hsame : order.map (fun i => (i, answer i)) = order.map fun i => (i, result i) :=
      List.map_congr_left fun i hi => by rw [hin i hi]
    exact congrArg (· ++ _) hsame
  · rw [inTurn_append]
    exact Memory.rows_congr (hcontents.trans h.contents)

-- ---------------------------------------------------------------------------
-- Requests
-- ---------------------------------------------------------------------------

/-- Requests that run concurrently come to what they come to one after the other, each at a
moment of its own. An update that ends in a conflict, or without finding its secret, met a store
of which that is true. -/
theorem requests_linearizable {crowd : Crowd n} {result : Fin n → Except Failure Reply}
    (root : Bytes) (requests : Fin n → Request) (nonces : Fin n → Nonces) (m : Memory)
    (hm : m.HasIntegerVersions)
    (hrun : Run (Crowd.requesting root requests nonces m) events crowd)
    (hend : ∀ i, (crowd.callers i).result? = some (result i)) :
    (∃ order moment,
      Explains (Crowd.requesting root requests nonces m) events crowd result order moment) ∧
    ∀ i secret given org expected e, requests i = .update secret given org expected →
      result i = .error e → ¬ e.IsNeutral →
      ∃ event ∈ events, event.caller = i ∧
        Vault.Justified secret org expected event.before.memory e := by
  have hs : (Crowd.requesting root requests nonces m).world.Sound := .start hm
  have hp (i : Fin n) : ((requests i).program root).Ensures Access.IsOrderly fun _ => True :=
    (Request.ensures root (requests i)).mono (fun _ => Request.MayAccess.isOrderly) fun _ h => h
  obtain ⟨_, _, _, hlin⟩ := hrun.linearized hs hp fun i => (requests i).atomic root (nonces i) _
  obtain ⟨order, moment, hexplains⟩ := hlin.explains hend
  refine ⟨⟨order, moment, hexplains⟩, ?_⟩
  intro i secret given org expected e hi hr hneutral
  by_cases hown : ∃ event ∈ events, event.caller = i
  · obtain ⟨event, hget, hcaller, heffect⟩ := hexplains.own i hown
    have hmem := List.mem_of_getElem? hget
    have heffect : (((Request.update secret given org expected).program root).effect (nonces i)
        event.before.memory).1 = .error e := by
      rw [← hi, ← hr, ← heffect]
      rfl
    exact ⟨event, hmem, hcaller,
      Request.justified_of_effect ((hrun.traced hs hp).met event hmem).1.versions heffect⟩
  · have hidle := hrun.idle fun event he hcaller => hown ⟨event, he, hcaller⟩
    have hres : ((requests i).program root).result? (nonces i) = some (.error e) := by
      rw [← hr, ← hend i, hidle]
      rfl
    rw [hi] at hres
    exact absurd (Request.neutral_of_result hres) hneutral

/-- The hypotheses hold of a race, in which a deletion comes between two accesses of an update. -/
theorem race_linearizable : ∃ events crowd, ∃ result : Fin 3 → Except Failure Reply,
    events.map (·.caller) = [0, 2, 1, 0] ∧
      ∃ order moment, Explains Race.start events crowd result order moment := by
  obtain ⟨events, crowd, result, hrun, hend, hcallers, -⟩ := Race.exists_run
  exact ⟨events, crowd, result, hcallers,
    (requests_linearizable _ _ _ _ Race.store_versions hrun hend).1⟩

end EnvelopeVault
