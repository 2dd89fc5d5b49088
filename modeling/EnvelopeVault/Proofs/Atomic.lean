import EnvelopeVault.Proofs.Interleaving
import EnvelopeVault.Proofs.Request

/-!
# Programs that take effect at one access

`Program.Atomic whole p` says of a program `p` that is under way: at one of the
accesses that it still makes it will have come to what `whole` comes to on the
store of that moment, and its other accesses leave the store as it is. What
others do between its accesses is anything that `World.Evolves` allows.

An update takes effect at its first read if it fails there or because of its
key or its texts, at its write if the store takes it, and at its last read if
the store refuses it (`update_atomic`).
-/

namespace EnvelopeVault
namespace Program

variable {α β : Type} {whole : Memory → Except Failure α × Memory} {w w' : World}

/-- A program that will take effect at one of its next accesses. After that access key records
settle how it ends; every access before leaves the contents alone. -/
def Atomic (whole : Memory → Except Failure α × Memory) : Program α → Nonces → World → Prop
  | .done _, _, _ => False
  | .note _ next, nonces, w => next.Atomic whole nonces w
  | .draw next, nonces, w => (next nonces.next.1).Atomic whole nonces.next.2 w
  | .access a next, nonces, w => ∀ w', w.Evolves w' → w'.Sound →
    match Memory.answer a w'.memory with
    | (.error e, m) => whole w'.memory = (.error e, m.contents)
    | (.ok answer, m) =>
      (∃ r left, (next answer).settle m.keys nonces = some (r, left) ∧
        whole w'.memory = (r, m.contents)) ∨
      (m.contents = w'.memory.contents ∧ (next answer).Atomic whole nonces w')

theorem Atomic.result? {p : Program α} (h : p.Atomic whole nonces w) :
    p.result? nonces = none := by
  induction p generalizing nonces with
  | done result => cases h
  | note line next ih => exact ih h
  | draw next ih => exact ih _ h
  | access a next ih => rfl

theorem Atomic.evolve {p : Program α} (h : p.Atomic whole nonces w) (he : w.Evolves w') :
    p.Atomic whole nonces w' := by
  induction p generalizing nonces with
  | done result => cases h
  | note line next ih => exact ih h
  | draw next ih => exact ih _ h
  | access a next ih => exact fun w'' he' => h w'' (he.trans he')

theorem Atomic.step {p : Program α} (h : p.Atomic whole nonces w) (hs : w.Sound)
    (hstep : p.step? w.memory nonces = some (a, p', nonces')) :
    (∃ r left, p'.settle (w.after a).memory.keys nonces' = some (r, left) ∧
      whole w.memory = (r, (w.after a).memory.contents)) ∨
    ((w.after a).memory.contents = w.memory.contents ∧ p'.Atomic whole nonces' w) := by
  induction p generalizing nonces with
  | done result => cases h
  | note line next ih => exact ih h hstep
  | draw next ih => exact ih _ h hstep
  | access b next ih =>
    have hb := h w (.refl hs) hs
    rw [step?] at hstep
    cases ha : Memory.answer b w.memory with
    | mk result m =>
      rw [ha] at hb hstep
      cases result with
      | error e =>
        cases hstep
        refine .inl ⟨.error e, _, rfl, ?_⟩
        rw [World.after, ha]
        exact hb
      | ok answer =>
        cases hstep
        simp only [World.after, ha]
        exact hb

theorem Atomic.map {p : Program α} (h : p.Atomic whole nonces w) (f : α → β) :
    (p.bind fun a => .done (.ok (f a))).Atomic
      (fun m => ((whole m).1.map f, (whole m).2)) nonces w := by
  induction p generalizing nonces w with
  | done result => cases h
  | note line next ih => exact ih h
  | draw next ih => exact ih _ h
  | access a next ih =>
    intro w' he hs
    have hw := h w' he hs
    cases ha : Memory.answer a w'.memory with
    | mk result m =>
      rw [ha] at hw
      cases result with
      | error e =>
        change ((whole w'.memory).1.map f, (whole w'.memory).2) = _
        rw [show whole w'.memory = _ from hw]
        rfl
      | ok answer =>
        rcases hw with ⟨r, left, hsettle, hr⟩ | ⟨hc, hnext⟩
        · refine .inl ⟨r.map f, left, ?_, ?_⟩
          · cases r with
            | ok a => exact settle_bind_ok hsettle
            | error e => exact settle_bind_error hsettle
          · simp only [hr]
        · exact .inr ⟨hc, ih answer hnext⟩

theorem Atomic.bind_settled {p : Program β} {f : β → Program α}
    (hp : p.settle w.memory.keys nonces = some (.ok b, left))
    (hf : ∀ w', w.Evolves w' → w'.Sound → (f b).Atomic whole left w') (hs : w.Sound) :
    (p.bind f).Atomic whole nonces w := by
  induction p generalizing nonces w with
  | done result =>
    cases hp
    exact hf w (.refl hs) hs
  | note line next ih => exact ih hp hf hs
  | draw next ih => exact ih _ hp hf hs
  | access a next ih =>
    cases a with
    | findKey org =>
      intro w' he hs'
      refine .inr ⟨rfl, ih _ ?_ (fun w'' he' => hf w'' (he.trans he')) hs'⟩
      rw [he.keys]
      exact hp
    | _ => cases hp

/-- A program with one decisive access takes effect there, unless it ends before. -/
theorem Atomic.of_brief {p : Program α} (hp : p.Brief D) (hr : p.result? nonces = none)
    (hwhole : ∀ w', w.Evolves w' → w'.Sound → whole w'.memory = p.effect nonces w'.memory) :
    p.Atomic whole nonces w := by
  induction p generalizing nonces w with
  | done result => cases hr
  | note line next ih => exact ih hp hr hwhole
  | draw next ih => exact ih _ (hp _) hr hwhole
  | access a next ih =>
    intro w' he hs
    have hw := hwhole w' he hs
    rw [effect_access] at hw
    cases ha : Memory.answer a w'.memory with
    | mk result m =>
      rw [ha] at hw
      cases result with
      | error e => exact hw
      | ok answer =>
        rcases hp with ⟨⟨org, rfl⟩, hnext⟩ | ⟨-, hnext⟩
        · cases hres : (next answer).result? nonces with
          | some r =>
            obtain ⟨left, hsettle⟩ := settle_of_result hres m.keys
            exact .inl ⟨r, left, hsettle, hw.trans (effect_settled hsettle)⟩
          | none =>
            cases ha
            refine .inr ⟨rfl, ih _ (hnext _) hres fun w'' he' hs' => ?_⟩
            rw [hwhole w'' (he.trans he') hs', effect_findKey, he'.keys]
        · obtain ⟨r, left, hsettle, -⟩ := exists_settle (hnext answer) m.keys nonces
          exact .inl ⟨r, left, hsettle, hw.trans (effect_settled hsettle)⟩

end Program

-- ---------------------------------------------------------------------------
-- Updates
-- ---------------------------------------------------------------------------

namespace Vault

open Layout

variable {root : Bytes} {secret org : Value} {changes : Changes} {expected : Option Value}
  {m : Memory} {nonces left : Nonces}

theorem effect_update (h : changes.provided.isEmpty = false) :
    (update root secret changes org expected).effect nonces m =
      match admits secret org expected ((m.rows.get? secret.toText).map .map) with
      | .error e => (.error e, m.contents)
      | .ok () => (writeChanges root secret changes org expected).effect nonces m := by
  rw [update_eq h, Program.effect_answer rfl, proceed]
  cases admits secret org expected ((m.rows.get? secret.toText).map .map) <;> rfl

theorem effect_writeChanges
    (hs : (sealChanges root changes org).settle m.keys nonces = some (.ok fields, left)) :
    (writeChanges root secret changes org expected).effect nonces m =
      (Program.access (.update secret (columnsOf fields) expected)
        (conclude secret org expected fields)).effect left m := by
  rw [writeChanges_eq, Program.effect_bind_settled hs]

theorem effect_writeChanges_error
    (hs : (sealChanges root changes org).settle m.keys nonces = some (.error e, left)) :
    (writeChanges root secret changes org expected).effect nonces m = (.error e, m.contents) := by
  rw [writeChanges_eq, Program.effect_settled (Program.settle_bind_error hs)]

theorem admits_of_version {row : Row} (hr : Reads row r) (ho : r.orgId = org.toText)
    (hv : Holds row "version" (· = .int v)) :
    admits secret org expected (some (.map row)) =
      if expected.all (·.isNumber v) then .ok ()
      else .error (conflict secret org (expected.getD .null)) := by
  rw [admits_of_reads hr ho, hr.version_eq hv]

theorem effect_update_error (h : changes.provided.isEmpty = false)
    (ha : admits secret org expected ((m.rows.get? secret.toText).map .map) = .error e) :
    (update root secret changes org expected).effect nonces m = (.error e, m.contents) := by
  rw [effect_update h, ha]

/-- A failure of an update is true of a store: a secret that is not found is absent or foreign,
and one in conflict exists at another version. -/
def Justified (secret org : Value) (expected : Option Value) (m : Memory) (e : Failure) : Prop :=
  (e.kind? = some .secretNotFound → ∀ row, m.rows.get? secret.toText = some row →
    Holds row "orgId" fun owner => owner.toText ≠ org.toText) ∧
  (e.IsConflict → ∃ version row v, expected = some version ∧
    m.rows.get? secret.toText = some row ∧ Holds row "version" (· = .int v) ∧
    version.isNumber v = false)

theorem justified_of_neutral (h : e.IsNeutral) : Justified secret org expected m e :=
  ⟨fun hk => absurd hk h.1, fun hk => absurd hk h.2⟩

theorem justified_of_admits (hm : m.HasIntegerVersions)
    (ha : admits secret org expected ((m.rows.get? secret.toText).map .map) = .error e) :
    Justified secret org expected m e := by
  rcases admits_error ha with hn | ⟨rfl, hforeign⟩ | ⟨row, r, version, hrow, hr, rfl, hne, rfl⟩
  · exact justified_of_neutral hn
  · exact ⟨fun _ => hforeign, fun hc => (notFound_not_isConflict _ _ _ hc).elim⟩
  · obtain ⟨v, hv⟩ := hm _ row hrow
    rw [hr.version_eq hv] at hne
    refine ⟨fun hk => ?_, fun _ => ⟨version, row, v, rfl, hrow, hv, hne⟩⟩
    cases (conflict_isConflict secret org version).kind_eq hk

theorem row_of_admits (hm : m.HasIntegerVersions)
    (ha : admits secret org expected ((m.rows.get? secret.toText).map .map) = .ok ()) :
    ∃ row r v, m.rows.get? secret.toText = some row ∧ Reads row r ∧ r.orgId = org.toText ∧
      Holds row "version" (· = .int v) ∧ expected.all (·.isNumber v) = true := by
  cases hrow : m.rows.get? secret.toText with
  | none =>
    rw [hrow] at ha
    cases ha
  | some row =>
    rw [hrow, Option.map_some] at ha
    obtain ⟨r, hr, ho⟩ := reads_of_admits ha
    obtain ⟨v, hv⟩ := hm _ row hrow
    refine ⟨row, r, v, rfl, hr, ho, hv, ?_⟩
    rw [admits_of_version hr ho hv] at ha
    cases he : expected.all (·.isNumber v) with
    | true => rfl
    | false =>
      rw [he] at ha
      cases ha

theorem justified_of_effect (h : changes.provided.isEmpty = false) (hm : m.HasIntegerVersions)
    (he : ((update root secret changes org expected).effect nonces m).1 = .error e) :
    Justified secret org expected m e := by
  rw [effect_update h] at he
  cases ha : admits secret org expected ((m.rows.get? secret.toText).map .map) with
  | error e' =>
    rw [ha] at he
    cases he
    exact justified_of_admits hm ha
  | ok _ =>
    rw [ha] at he
    change ((writeChanges root secret changes org expected).effect nonces m).1 = _ at he
    obtain ⟨r, left, hseal, hneutral⟩ :=
      Program.exists_settle (sealChanges_ensures root changes ⟨org, rfl⟩) m.keys nonces
    cases r with
    | error e' =>
      rw [effect_writeChanges_error hseal] at he
      cases he
      exact justified_of_neutral hneutral
    | ok fields =>
      obtain ⟨row, r, v, hrow, -, -, hv, hexp⟩ := row_of_admits hm ha
      rw [effect_writeChanges hseal,
        Program.effect_answer (Memory.answer_update_written hrow hv hneutral hexp)] at he
      change (cellOf (.map (overlay row fields (v + 1))) "id").map (·.toText) = .error e at he
      cases hid : cellOf (.map (overlay row fields (v + 1))) "id" with
      | ok id =>
        rw [hid] at he
        cases he
      | error e' =>
        rw [hid] at he
        cases he
        exact justified_of_neutral ((cellOf_neutral ..).error hid)

/-- After a refused write an update fails as it would have failed at once on the store that it
finds then. -/
theorem refused_atomic (h : changes.provided.isEmpty = false) {w : World}
    (hr : ∀ w', w.Evolves w' → w'.Sound →
      admits secret org expected ((w'.memory.rows.get? secret.toText).map .map) =
        .error (refusal secret org expected ((w'.memory.rows.get? secret.toText).map .map))) :
    (refused secret org expected).Atomic ((update root secret changes org expected).effect nonces)
      left w := by
  rw [refused_eq]
  intro w' he hs
  exact .inl ⟨_, _, rfl, effect_update_error h (hr w' he hs)⟩

/-- The version that was read never comes back: a row at another one later stays in conflict with
what is expected, or goes. -/
theorem admits_past {w₁ w₂ : World} {row row₁ : Row} (hr : Reads row r) (ho : r.orgId = org.toText)
    (hv : Holds row "version" (· = .int v)) (hv₁ : Holds row₁ "version" (· = .int v₁))
    (he : expected.all (·.isNumber v) = true) (he₁ : expected.all (·.isNumber v₁) = false)
    (hsucc₁ : Succeeds row row₁) (hid : secret.toText ∈ w₁.used)
    (hrow₁ : w₁.memory.rows.get? secret.toText = some row₁) (hw₂ : w₁.Evolves w₂)
    (hs₂ : w₂.Sound) :
    admits secret org expected ((w₂.memory.rows.get? secret.toText).map .map) =
      .error (refusal secret org expected ((w₂.memory.rows.get? secret.toText).map .map)) := by
  obtain _ | version := expected
  · cases he₁
  simp only [Option.all_some] at he he₁
  cases hrow₂ : w₂.memory.rows.get? secret.toText with
  | none => rfl
  | some row₂ =>
    obtain ⟨v₂, hv₂⟩ := hs₂.versions _ row₂ hrow₂
    obtain ⟨_, hsame, hsucc₂⟩ := hw₂.rows _ hid row₂ hrow₂
    cases hrow₁.symm.trans hsame
    have hle₁ := hsucc₁.version_le hv hv₁
    have hle₂ := hsucc₂.version_le hv₁ hv₂
    have hne : v ≠ v₁ := by
      rintro rfl
      rw [he] at he₁
      cases he₁
    have hpast : version.isNumber v₂ = false := by
      cases hn : version.isNumber v₂ with
      | false => rfl
      | true =>
        have := Value.isNumber_unique he hn
        omega
    obtain ⟨r₂, hr₂, ho₂⟩ := (hsucc₁.trans hsucc₂).reads hr
    rw [Option.map_some, admits_of_version hr₂ (ho₂.trans ho) hv₂]
    simp [hpast, refusal]

/-- The write of an update whose checks went well takes effect, or the last read does. -/
theorem write_atomic (h : changes.provided.isEmpty = false) {w : World} {row : Row}
    (hs : w.Sound) (hrow : w.memory.rows.get? secret.toText = some row) (hr : Reads row r)
    (ho : r.orgId = org.toText) (hv : Holds row "version" (· = .int v))
    (he : expected.all (·.isNumber v) = true) (hf : (Assoc.names fields).Nodup)
    (hseal : (sealChanges root changes org).settle w.memory.keys nonces =
      some (.ok fields, left)) :
    (Program.access (.update secret (columnsOf fields) expected)
      (conclude secret org expected fields)).Atomic
        ((update root secret changes org expected).effect nonces) left w := by
  have hid : secret.toText ∈ w.used := hs.used _ (Assoc.mem_names_of_get? hrow)
  intro w₁ hw₁ hs₁
  cases hrow₁ : w₁.memory.rows.get? secret.toText with
  | none =>
    rw [Memory.answer_update_absent hrow₁]
    refine .inr ⟨rfl, refused_atomic h fun w₂ hw₂ _ => ?_⟩
    rw [hw₂.absent (hw₁.used _ hid) hrow₁]
    cases expected <;> rfl
  | some row₁ =>
    obtain ⟨v₁, hv₁⟩ := hs₁.versions _ row₁ hrow₁
    obtain ⟨_, hsame, hsucc₁⟩ := hw₁.rows _ hid row₁ hrow₁
    cases hrow.symm.trans hsame
    cases he₁ : expected.all (·.isNumber v₁) with
    | false =>
      rw [Memory.answer_update_refused hrow₁ hv₁ he₁]
      exact .inr ⟨rfl, refused_atomic h fun w₂ hw₂ hs₂ =>
        admits_past hr ho hv hv₁ he he₁ hsucc₁ (hw₁.used _ hid) hrow₁ hw₂ hs₂⟩
    | true =>
      obtain ⟨r₁, hr₁, ho₁⟩ := hsucc₁.reads hr
      have hseal₁ := hseal
      rw [← hw₁.keys] at hseal₁
      have hwrite := Memory.answer_update_written hrow₁ hv₁ hf he₁
      rw [hwrite]
      refine .inl ⟨_, _, rfl, ?_⟩
      rw [effect_update h, hrow₁, Option.map_some, admits_of_version hr₁ (ho₁.trans ho) hv₁,
        he₁, if_pos rfl]
      change (writeChanges root secret changes org expected).effect nonces w₁.memory = _
      rw [effect_writeChanges hseal₁, Program.effect_answer hwrite]
      rfl

theorem update_atomic (h : changes.provided.isEmpty = false) (w : World) :
    (update root secret changes org expected).Atomic
      ((update root secret changes org expected).effect nonces) nonces w := by
  rw [update_eq h]
  intro w₁ _ hs₁
  rw [← update_eq h]
  change (∃ r left, (proceed ..).settle _ _ = _ ∧ _) ∨ _ ∧ (proceed ..).Atomic _ _ _
  rw [proceed]
  cases hadmits : admits secret org expected
      ((w₁.memory.rows.get? secret.toText).map .map) with
  | error e => exact .inl ⟨.error e, nonces, rfl, effect_update_error h hadmits⟩
  | ok _ =>
    rw [writeChanges_eq]
    obtain ⟨r, left, hseal, hneutral⟩ :=
      Program.exists_settle (sealChanges_ensures root changes ⟨org, rfl⟩) w₁.memory.keys nonces
    cases r with
    | error e =>
      refine .inl ⟨.error e, left, Program.settle_bind_error hseal, ?_⟩
      rw [effect_update h, hadmits]
      exact effect_writeChanges_error hseal
    | ok fields =>
      refine .inr ⟨rfl, .bind_settled hseal (fun w₂ hw₂ _ => .evolve ?_ hw₂) hs₁⟩
      obtain ⟨row, r, v, hrow, hr, ho, hv, he⟩ := row_of_admits hs₁.versions hadmits
      exact write_atomic h hs₁ hrow hr ho hv he hneutral hseal

end Vault

-- ---------------------------------------------------------------------------
-- Requests
-- ---------------------------------------------------------------------------

namespace Request

theorem atomic (root : Bytes) (r : Request) (nonces : Nonces) (w : World) :
    (∃ result, (r.program root).result? nonces = some result) ∨
      (r.program root).Atomic ((r.program root).effect nonces) nonces w := by
  cases hres : (r.program root).result? nonces with
  | some result => exact .inl ⟨result, rfl⟩
  | none =>
    refine .inr ?_
    by_cases h : r.IsUpdate
    · obtain ⟨secret, given, org, expected, rfl⟩ := h
      rcases update_program root secret given org expected with
        ⟨e, hprogram, -⟩ | ⟨changes, hp, hprogram⟩
      · rw [hprogram] at hres
        cases hres
      · have hupdate : (Vault.update root secret changes org expected).Atomic
            ((Vault.update root secret changes org expected).effect nonces) nonces w :=
          Vault.update_atomic hp w
        have hmap := hupdate.map Reply.id
        rw [← funext (Program.effect_map _ Reply.id nonces)] at hmap
        rwa [hprogram]
    · exact .of_brief (brief root h) hres fun _ _ _ => rfl

theorem neutral_of_result (h : ((Request.update secret given org expected).program root).result?
    nonces = some (.error e)) : e.IsNeutral := by
  rcases update_program root secret given org expected with
    ⟨e', hprogram, hneutral⟩ | ⟨changes, hp, hprogram⟩
  · rw [hprogram] at h
    cases h
    exact hneutral
  · rw [hprogram, Vault.update_eq hp] at h
    cases h

theorem justified_of_effect {m : Memory} {nonces : Nonces} (hm : m.HasIntegerVersions)
    (he : (((Request.update secret given org expected).program root).effect nonces m).1 =
      .error e) : Vault.Justified secret org expected m e := by
  rcases update_program root secret given org expected with
    ⟨e', hprogram, hneutral⟩ | ⟨changes, hp, hprogram⟩
  · rw [hprogram] at he
    cases he
    exact Vault.justified_of_neutral hneutral
  · rw [hprogram, Program.effect_map] at he
    cases hr : ((Vault.update root secret changes org expected).effect nonces m).1 with
    | ok t =>
      rw [hr] at he
      cases he
    | error e' =>
      rw [hr] at he
      cases he
      exact Vault.justified_of_effect hp hm hr

end Request
end EnvelopeVault
