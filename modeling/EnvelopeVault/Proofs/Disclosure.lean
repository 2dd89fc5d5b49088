import EnvelopeVault.Proofs.Readback
import EnvelopeVault.Proofs.RowAgreement

/-!
# What failures tell of secrets

`failures_tell_codec_reports_only`: run an operation on two secrets, all else
being the same. If both runs fail they fail alike, or one of the failures is the
report of a text codec on its own secret: on the first surrogates of a plaintext
that cannot be encoded, or on the first octets of a key that are no UTF-8. A
report quotes what it is about. What comes after sealing does not depend on what
was sealed (`Backend.IsOblivious`), in memory and in a database.
-/

namespace EnvelopeVault

open FieldCipher Layout Program

-- ---------------------------------------------------------------------------
-- Reports
-- ---------------------------------------------------------------------------

/-- The report on a text that cannot be encoded. -/
def Text.report? (t : Text) : Option Failure := (t.unencodableFrom 0).map .unencodable

def Sealing.report? (texts : Assoc Text) : Option Failure := texts.findSome? (·.2.report?)

/-- The report on the octets of a key that cannot be written as text. -/
def FieldCipher.keyReport? (encoding : KeyEncoding) (key : Bytes) : Option Failure :=
  match encoding, Utf8.decode key with
  | .utf8, .error octets => some (.undecodable octets)
  | _, _ => none

/-- Two ends tell two secrets apart by the reports on them only. -/
inductive EndsAlike {α β : Type} (report report' : Option Failure) :
    Except Failure α → Except Failure β → Prop
  | left {r' : Except Failure β} (h : report = some e) : EndsAlike report report' (.error e) r'
  | right {r : Except Failure α} (h : report' = some e) : EndsAlike report report' r (.error e)
  | failed (e : Failure) : EndsAlike report report' (.error e) (.error e)
  | returned (a : α) (b : β) : EndsAlike report report' (.ok a) (.ok b)

namespace EndsAlike

variable {α β γ δ σ : Type} {report report' more more' : Option Failure}

theorem refl (r : Except Failure α) : EndsAlike report report' r r := by
  cases r with
  | error e => exact .failed e
  | ok a => exact .returned a a

theorem mono {r : Except Failure α} {r' : Except Failure β} (h : EndsAlike report report' r r')
    (hl : ∀ e, report = some e → more = some e) (hr : ∀ e, report' = some e → more' = some e) :
    EndsAlike more more' r r' := by
  cases h with
  | left h => exact .left (hl _ h)
  | right h => exact .right (hr _ h)
  | failed e => exact .failed e
  | returned a b => exact .returned a b

theorem eq_of_unreported {r' : Except Failure β}
    (h : EndsAlike none none (.error e : Except Failure α) r') : r' = .error e := by
  cases h with
  | left h => cases h
  | right h => cases h
  | failed e => rfl

theorem bind {b : Backend σ} {s s' : σ} {p : Program α} {p' : Program β} {f : α → Program γ}
    {f' : β → Program δ} (h : EndsAlike report report' (p.run b s).result (p'.run b s').result)
    (hf : ∀ a a', (p.run b s).result = .ok a → (p'.run b s').result = .ok a' →
      EndsAlike report report' ((f a).run b (p.run b s).state).result
        ((f' a').run b (p'.run b s').state).result) :
    EndsAlike report report' ((p.bind f).run b s).result ((p'.bind f').run b s').result := by
  rw [run_bind, run_bind]
  generalize p.run b s = o at h hf
  generalize p'.run b s' = o' at h hf
  obtain ⟨r, log, t⟩ := o
  obtain ⟨r', log', t'⟩ := o'
  cases h with
  | left h => exact .left h
  | right h => exact .right h
  | failed e => exact .failed e
  | returned a a' => exact hf a a' rfl rfl

theorem bind_same {b : Backend σ} {s : σ} {p : Program α} {f f' : α → Program β}
    (hf : ∀ a, (p.run b s).result = .ok a → EndsAlike report report'
      ((f a).run b (p.run b s).state).result ((f' a).run b (p.run b s).state).result) :
    EndsAlike report report' ((p.bind f).run b s).result ((p.bind f').run b s).result := by
  refine .bind (.refl _) fun a a' ha ha' => ?_
  cases ha.symm.trans ha'
  exact hf a ha

end EndsAlike

-- ---------------------------------------------------------------------------
-- Sealing
-- ---------------------------------------------------------------------------

namespace Sealing

variable {σ : Type} {b : Backend σ} {key : Bytes} {t t' : Text} {texts texts' : Assoc Text} {s : σ}

theorem encryptWith_cases (key : Key) (nonce : Nonce) (t : Text) :
    (∃ e, t.report? = some e ∧ encryptWith key nonce t = .error e) ∨
      t.report? = none ∧ ∃ f, encryptWith key nonce t = .ok f := by
  rw [encryptWith, Utf8.encode, Text.report?]
  cases t.unencodableFrom 0 with
  | some run => exact .inl ⟨_, rfl, rfl⟩
  | none => exact .inr ⟨rfl, _, rfl⟩

theorem encrypt_alike (b : Backend σ) (key : Bytes) (t t' : Text) (s : σ) :
    EndsAlike t.report? t'.report? ((encrypt key t).run b s).result
      ((encrypt key t').run b s).result := by
  rw [encrypt, encrypt]
  cases Key.ofBytes? key with
  | none => exact .failed _
  | some key =>
    change EndsAlike _ _ (encryptWith key (b.nonce s).1 t) (encryptWith key (b.nonce s).1 t')
    obtain ⟨e, hreport, he⟩ | ⟨-, f, hf⟩ := encryptWith_cases key (b.nonce s).1 t
    · rw [he]
      exact .left hreport
    obtain ⟨e, hreport, he⟩ | ⟨-, f', hf'⟩ := encryptWith_cases key (b.nonce s).1 t'
    · rw [he]
      exact .right hreport
    · rw [hf, hf']
      exact .returned f f'

theorem encrypt_ok (h : ((encrypt key t).run b s).result = .ok f) :
    t.report? = none ∧ ((encrypt key t).run b s).state = (b.nonce s).2 := by
  rw [encrypt] at h ⊢
  cases hk : Key.ofBytes? key with
  | none =>
    rw [hk] at h
    cases h
  | some key =>
    rw [hk] at h
    obtain ⟨e, -, he⟩ | ⟨hreport, -⟩ := encryptWith_cases key (b.nonce s).1 t
    · cases he.symm.trans h
    · exact ⟨hreport, rfl⟩

theorem encryptAll_cons (key : Bytes) (name t : Text) (rest : Assoc Text) :
    encryptAll key ((name, t) :: rest) = (encrypt key t).bind fun field =>
      (encryptAll key rest).bind fun fields => .done (.ok ((name, field) :: fields)) := rfl

theorem report?_cons (name : Text) (h : t.report? = none) (rest : Assoc Text) :
    report? ((name, t) :: rest) = report? rest := by
  rw [report?, List.findSome?_cons, h]
  rfl

theorem report?_of_head (name : Text) (h : t.report? = some e) (rest : Assoc Text) :
    report? ((name, t) :: rest) = some e := by
  rw [report?, List.findSome?_cons, h]

theorem encryptAll_alike (b : Backend σ) (key : Bytes) (hnames : texts'.names = texts.names)
    (s : σ) :
    EndsAlike (report? texts) (report? texts') ((encryptAll key texts).run b s).result
      ((encryptAll key texts').run b s).result := by
  induction texts generalizing texts' s with
  | nil =>
    obtain rfl : texts' = [] := List.eq_nil_of_map_eq_nil hnames
    exact .returned [] []
  | cons pair rest ih =>
    obtain ⟨name, t⟩ := pair
    obtain _ | ⟨⟨name', t'⟩, rest'⟩ := texts'
    · cases hnames
    obtain ⟨rfl, hrest⟩ := List.cons.inj hnames
    rw [encryptAll_cons, encryptAll_cons]
    refine .bind ((encrypt_alike b key t t' s).mono (fun e he => report?_of_head _ he rest)
      fun e he => report?_of_head _ he rest') fun f f' hf hf' => ?_
    obtain ⟨hreport, hstate⟩ := encrypt_ok hf
    obtain ⟨hreport', hstate'⟩ := encrypt_ok hf'
    rw [report?_cons _ hreport, report?_cons _ hreport', hstate, hstate']
    exact .bind (ih hrest _) fun fields fields' _ _ => .returned _ _

theorem encryptAll_cons_ok {fields : Assoc Field} (name : Text) {rest : Assoc Text}
    (h : ((encryptAll key ((name, t) :: rest)).run b s).result = .ok fields) :
    ∃ later, ((encryptAll key rest).run b (b.nonce s).2).result = .ok later ∧
      ((encryptAll key ((name, t) :: rest)).run b s).state =
        ((encryptAll key rest).run b (b.nonce s).2).state := by
  rw [encryptAll_cons] at h ⊢
  obtain ⟨f, hf, hrest⟩ := run_bind_ok h
  obtain ⟨later, hlater, -⟩ := run_map_ok hrest
  rw [(encrypt_ok hf).2] at hlater
  refine ⟨later, hlater, ?_⟩
  rw [run_bind, Outcome.andThen, hf]
  simp only [run_map, (encrypt_ok hf).2]

/-- What sealing leaves of a store depends on the number of texts only. -/
theorem encryptAll_state {fields fields' : Assoc Field} (hnames : texts'.names = texts.names)
    (h : ((encryptAll key texts).run b s).result = .ok fields)
    (h' : ((encryptAll key texts').run b s).result = .ok fields') :
    ((encryptAll key texts').run b s).state = ((encryptAll key texts).run b s).state := by
  induction texts generalizing texts' s fields fields' with
  | nil =>
    obtain rfl : texts' = [] := List.eq_nil_of_map_eq_nil hnames
    rfl
  | cons pair rest ih =>
    obtain ⟨name, t⟩ := pair
    obtain _ | ⟨⟨name', t'⟩, rest'⟩ := texts'
    · cases hnames
    obtain ⟨later, hlater, hstate⟩ := encryptAll_cons_ok name h
    obtain ⟨later', hlater', hstate'⟩ := encryptAll_cons_ok name' h'
    rw [hstate, hstate']
    exact ih (List.cons.inj hnames).2 hlater hlater'

end Sealing

-- ---------------------------------------------------------------------------
-- Keys
-- ---------------------------------------------------------------------------

namespace OrgKey

variable {σ : Type}

theorem encodeKey_cases (encoding : KeyEncoding) (key : Bytes) :
    (∃ e, keyReport? encoding key = some e ∧ encodeKey key encoding = .error e) ∨
      ∃ t, encodeKey key encoding = .ok t ∧ t.report? = none := by
  have hencodable {t : Text} (h : encodeKey key encoding = .ok t) : t.report? = none := by
    have hencode := Utf8.encode_eq_ok_iff.mpr ⟨isSurrogate_encodeKey h, rfl⟩
    rw [Utf8.encode] at hencode
    rw [Text.report?]
    cases hu : t.unencodableFrom 0 with
    | none => rfl
    | some run =>
      rw [hu] at hencode
      cases hencode
  cases encoding with
  | base64 => exact .inr ⟨_, rfl, hencodable rfl⟩
  | utf8 =>
    cases hd : Utf8.decode key with
    | error octets =>
      exact .inl ⟨.undecodable octets, by simp only [keyReport?, hd], by simp only [encodeKey, hd]⟩
    | ok t =>
      have ht : encodeKey key .utf8 = .ok t := by rw [encodeKey, hd]
      exact .inr ⟨t, ht, hencodable ht⟩

theorem encodeKey_alike (encoding : KeyEncoding) (key key' : Bytes) :
    EndsAlike (keyReport? encoding key) (keyReport? encoding key') (encodeKey key encoding)
      (encodeKey key' encoding) := by
  obtain ⟨e, hreport, he⟩ | ⟨t, ht, -⟩ := encodeKey_cases encoding key
  · rw [he]
    exact .left hreport
  obtain ⟨e, hreport, he⟩ | ⟨t', ht', -⟩ := encodeKey_cases encoding key'
  · rw [he]
    exact .right hreport
  · rw [ht, ht']
    exact .returned t t'

theorem recordWith_alike (org encoding : Value) (f f' : Field) :
    EndsAlike report report' (Failure.ofChecked OrgKeyRecord.modelName (recordWith org f encoding))
      (Failure.ofChecked OrgKeyRecord.modelName (recordWith org f' encoding)) := by
  unfold recordWith
  cases (Checked.text org).under "org_id" <;>
    cases (Checked.member KeyEncoding.table encoding).under "key_encoding"
  · exact .returned _ _
  all_goals exact .failed _

theorem wrap_alike (b : Backend σ) (s : σ) (root : Bytes) (org encoding : Value)
    (key key' : Bytes) :
    EndsAlike (keyReport? (encodingOf encoding) key) (keyReport? (encodingOf encoding) key')
      ((wrap org (.bytes key) root encoding).run b s).result
      ((wrap org (.bytes key') root encoding).run b s).result := by
  -- the text of a key can always be encrypted
  have hquiet {key : Bytes} {t : Text} (h : encodeKey key (encodingOf encoding) = .ok t)
      (e : Failure) (he : t.report? = some e) : keyReport? (encodingOf encoding) key = some e := by
    obtain ⟨_, -, herror⟩ | ⟨t', ht', hnone⟩ := encodeKey_cases (encodingOf encoding) key
    · cases herror.symm.trans h
    · cases ht'.symm.trans h
      cases hnone.symm.trans he
  rw [wrap, wrap]
  refine .bind (encodeKey_alike ..) fun t t' ht ht' => ?_
  refine .bind ((Sealing.encrypt_alike b root t t' _).mono (hquiet ht) (hquiet ht'))
    fun f f' _ _ => ?_
  exact recordWith_alike org encoding f f'

end OrgKey

-- ---------------------------------------------------------------------------
-- Stores that do not look at what is sealed
-- ---------------------------------------------------------------------------

/-- An operation ends the same after a write, whatever was sealed for it. -/
structure Backend.IsOblivious {σ : Type} (b : Backend σ) : Prop where
  insert {fields fields' : Assoc Field} (org user : Value) (s : σ)
    (hn : fields.names.Nodup) (hn' : fields'.names.Nodup) :
    ((Program.access (.insert (Vault.newRow org user fields)) (Vault.announce org user)).run b
        s).result =
      ((Program.access (.insert (Vault.newRow org user fields')) (Vault.announce org user)).run b
        s).result
  update {fields fields' : Assoc Field} {changes : Changes} (secret org : Value)
    (expected : Option Value) (s : σ) (h : changes.provided.isEmpty = false)
    (hnames : fields.names = Assoc.names changes.provided)
    (hnames' : fields'.names = Assoc.names changes.provided) :
    ((Program.access (.update secret (columnsOf fields) expected)
        (Vault.conclude secret org expected fields)).run b s).result =
      ((Program.access (.update secret (columnsOf fields') expected)
        (Vault.conclude secret org expected fields')).run b s).result

theorem Vault.announce_result {σ : Type} (b : Backend σ) (org user created : Value) (s : σ) :
    ((Vault.announce org user created).run b s).result =
      (cellOf created "id").map (·.toText) := by
  rw [Vault.announce, Program.bind_eq, Program.ofExcept_bind]
  cases cellOf created "id" <;> rfl

namespace Memory

variable {fields : Assoc Field}

theorem run_insert_result (hn : fields.names.Nodup) (org user : Value) (m : Memory) :
    ((Program.access (.insert (Vault.newRow org user fields)) (Vault.announce org user)).run
      backend m).result = .ok m.nextId.toText := by
  have hid := Vault.get?_newRow_plain hn org user (show isPlain "id" by decide)
  simp only [Program.run, backend, answer_insert hid]
  rw [Vault.announce_result, cellOf, cell_eq_ok_iff.mpr (get?_insertedRow_id ..)]
  rfl

/-- The row is found by its id, judged by its version and named by its id. -/
theorem run_update_result (hn : fields.names.Nodup) (secret org : Value)
    (expected : Option Value) (m : Memory) :
    ((Program.access (.update secret (columnsOf fields) expected)
      (Vault.conclude secret org expected fields)).run backend m).result =
      match (m.rows.get? secret.toText).filter (isExpected · expected) with
      | none => ((Vault.refused secret org expected).run backend m.counted).result
      | some row =>
        ((cell row "version").bind nextVersion).bind fun _ => (cell row "id").map (·.toText) := by
  have hplain (row : Row) {name : Text} (h : isPlain name) :
      cell (row.putAll (columnsOf fields)) name = cell row name := by
    rw [cell, get?_putColumns_plain hn h, cell]
  have hrows : m.counted.rows = m.rows := rfl
  rw [Program.run]
  simp only [backend, answer, updateRow, hrows]
  cases m.rows.get? secret.toText with
  | none => rfl
  | some row =>
    cases he : isExpected row expected with
    | false =>
      simp only [Option.filter_some, he, Bool.false_eq_true, if_false]
      rfl
    | true =>
      simp only [Option.filter_some, he, if_true, hplain row (show isPlain "version" by decide)]
      cases (cell row "version").bind nextVersion with
      | error e => rfl
      | ok version =>
        have hid : cell ((row.putAll (columnsOf fields)).put "version" version) "id" =
            cell row "id" := by
          rw [← hplain row (show isPlain "id" by decide), cell, Assoc.get?_put, if_neg (by decide),
            cell]
        exact congrArg (·.map (·.toText)) hid

theorem isOblivious : backend.IsOblivious where
  insert org user m hn hn' := by rw [run_insert_result hn, run_insert_result hn']
  update := by
    intro fields fields' changes secret org expected m _ hnames hnames'
    rw [run_update_result (hnames ▸ changes.nodup_provided),
      run_update_result (hnames' ▸ changes.nodup_provided)]

end Memory

namespace Postgres

variable {fields : Assoc Field}

theorem run_insert_result (hn : fields.names.Nodup) (org user : Value) (p : Pool) :
    ((Program.access (.insert (Vault.newRow org user fields)) (Vault.announce org user)).run
      backend p).result =
      (p.item 0).fault?.elim ((cellOf (p.item 0).result "id").map (·.toText)) fun fault =>
        .error ((Access.insert [("orgId", org)]).failure fault) := by
  have hissued : (Access.insert (Vault.newRow org user fields)).IsIssued := ⟨_, rfl⟩
  have horg := Vault.get?_newRow_plain hn org user (show isPlain "orgId" by decide)
  have hanswer := answer_eq hissued p
  cases hf : (p.item 0).fault? with
  | none =>
    rw [run_access_ok hissued hf rfl]
    exact Vault.announce_result ..
  | some fault =>
    rw [hf] at hanswer
    simp only [Program.run, backend, hanswer, Option.elim_some, Access.failure, Access.orgId, horg]
    rfl

/-- The row is answered and named by its id; if none is, it is read again. -/
theorem run_update_result {secret : Value} {expected : Option Value}
    (hissued : (Access.update secret (columnsOf fields) expected).IsIssued) (org : Value)
    (p : Pool) :
    ((Program.access (.update secret (columnsOf fields) expected)
      (Vault.conclude secret org expected fields)).run backend p).result =
      (p.item 0).fault?.elim
        (match (p.item 0).result.present with
        | none => (p.item 1).fault?.elim
            (.error (Vault.refusal secret org expected (p.item 1).result.present)) fun fault =>
              .error ((Access.fetch secret).failure fault)
        | some row => (cellOf row "id").map (·.toText))
        fun fault => .error ((Access.update secret [] expected).failure fault) := by
  have hanswer := answer_eq hissued p
  cases hf : (p.item 0).fault? with
  | some fault =>
    rw [hf] at hanswer
    simp only [Program.run, backend, hanswer, Option.elim_some]
    rfl
  | none =>
    rw [run_access_ok hissued hf rfl, Option.elim_none]
    cases (p.item 0).result.present with
    | some row => rfl
    | none =>
      have hfetch : (Access.fetch secret).IsIssued := ⟨_, rfl⟩
      have hagain := answer_eq hfetch (p.saw ((Access.update secret (columnsOf fields)
        expected).events (p.item 0)))
      rw [Pool.item_saw] at hagain
      rw [Vault.conclude, Vault.refused_eq]
      simp only [Program.run, backend, hagain]
      cases (p.item 1).fault? <;> rfl

theorem run_update_gone {secret : Value} {expected : Option Value}
    (hissued : (Access.update secret (columnsOf fields) expected).IsIssued) (org : Value)
    {p : Pool} (hq : (p.item 0).fault? = none) (hgone : (p.item 0).result.present = none)
    (hagain : (p.item 1).fault? = none) :
    (Program.access (.update secret (columnsOf fields) expected)
      (Vault.conclude secret org expected fields)).run backend p =
      ⟨.error (Vault.refusal secret org expected (p.item 1).result.present), [],
        (p.saw ((Access.update secret (columnsOf fields) expected).events (p.item 0))).saw
          ((Access.fetch secret).events (p.item 1))⟩ := by
  have hmissed : (Access.update secret (columnsOf fields) expected).interpret (p.item 0).result =
      .ok none := congrArg Except.ok hgone
  have hfetch : (Access.fetch secret).IsIssued := ⟨_, rfl⟩
  rw [run_access_ok hissued hq hmissed, Vault.conclude, Vault.refused_eq,
    run_access_ok hfetch (by rwa [Pool.item_saw]) rfl, Pool.item_saw]
  rfl

theorem isOblivious : backend.IsOblivious where
  insert org user p hn hn' := by rw [run_insert_result hn, run_insert_result hn']
  update := by
    intro fields fields' changes secret org expected p h hnames hnames'
    rw [run_update_result (Vault.exists_update_statement h hnames secret expected),
      run_update_result (Vault.exists_update_statement h hnames' secret expected)]

end Postgres

-- ---------------------------------------------------------------------------
-- Operations of the vault
-- ---------------------------------------------------------------------------

namespace Vault

variable {σ : Type} {b : Backend σ}

theorem names_of_sealed {key : Bytes} {texts : Assoc Text} {fields : Assoc Field} {s : σ}
    (h : ((Sealing.encryptAll key texts).run b s).result = .ok fields) :
    fields.names = texts.names := by
  have hends := (Sealing.encryptAll_ends (P := fun _ => False) key texts).run_ends (b := b)
    (fun _ _ ha => ha.elim) s
  rw [h] at hends
  exact hends

theorem create_alike (hb : b.IsOblivious) (root : Bytes) (draft draft' : Draft) (org user : Value)
    (s : σ) :
    EndsAlike (Sealing.report? draft.texts.toList) (Sealing.report? draft'.texts.toList)
      ((create root draft org user).run b s).result
      ((create root draft' org user).run b s).result := by
  have hnames : Assoc.names draft'.texts.toList = Assoc.names draft.texts.toList := rfl
  have hn : (Assoc.names draft.texts.toList).Nodup :=
    show (Attribute.all.map (·.name)).Nodup by decide
  rw [create_eq, create_eq]
  refine .bind_same fun key _ => ?_
  refine .bind (Sealing.encryptAll_alike b key hnames _) fun fields fields' hf hf' => ?_
  rw [Sealing.encryptDraft, Sealing.encryptDraft, Sealing.encryptAll_state hnames hf hf',
    hb.insert org user _ (names_of_sealed hf ▸ hn) (names_of_sealed hf' ▸ hn)]
  exact .refl _

theorem names_provided_of_same {changes changes' : Changes}
    (h : ∀ a, (changes'.get a).isSome = (changes.get a).isSome) :
    Assoc.names changes'.provided = Assoc.names changes.provided := by
  refine (Changes.rel_provided (R := fun _ _ _ => True) fun a => ?_).names_eq
  have ha := h a
  cases ht : changes.get a <;> cases ht' : changes'.get a <;> rw [ht, ht'] at ha
  · exact .none
  · cases ha
  · cases ha
  · exact .some trivial

theorem update_alike (hb : b.IsOblivious) {changes changes' : Changes}
    (h : ∀ a, (changes'.get a).isSome = (changes.get a).isSome) (root : Bytes)
    (secret org : Value) (expected : Option Value) (s : σ) :
    EndsAlike (Sealing.report? changes.provided) (Sealing.report? changes'.provided)
      ((update root secret changes org expected).run b s).result
      ((update root secret changes' org expected).run b s).result := by
  have hnames := names_provided_of_same h
  have hempty : changes'.provided.isEmpty = changes.provided.isEmpty := by
    rw [← List.isEmpty_map (f := Prod.fst), ← List.isEmpty_map (f := Prod.fst)]
    exact congrArg List.isEmpty hnames
  cases hp : changes.provided.isEmpty with
  | true =>
    rw [update, update, if_pos hp, if_pos (hempty.trans hp)]
    exact .failed _
  | false =>
    rw [update_eq hp, update_eq (hempty.trans hp)]
    refine .bind_same (p := .call (.fetch secret)) fun found _ => ?_
    -- both go on with what was found, or neither does
    cases admits secret org expected found with
    | error e => exact .failed e
    | ok _ =>
      simp only [writeChanges_eq]
      rw [sealChanges, sealChanges, bind_assoc, bind_assoc]
      refine .bind_same fun key _ => ?_
      refine .bind (Sealing.encryptAll_alike b key hnames _) fun fields fields' hf hf' => ?_
      rw [Sealing.encryptChanges, Sealing.encryptChanges, Sealing.encryptAll_state hnames hf hf',
        hb.update secret org expected _ hp (names_of_sealed hf)
          ((names_of_sealed hf').trans hnames)]
      exact .refl _

end Vault

-- ---------------------------------------------------------------------------
-- Two secrets
-- ---------------------------------------------------------------------------

/-- Two programs end alike over every store in memory and over every pool. -/
def Discreet {α : Type} (report report' : Option Failure) (p p' : Program α) : Prop :=
  (∀ m : Memory, EndsAlike report report' (p.run Memory.backend m).result
    (p'.run Memory.backend m).result) ∧
  ∀ s : Pool, EndsAlike report report' (p.run Postgres.backend s).result
    (p'.run Postgres.backend s).result

/-- An operation on two secrets, all else being the same, ends alike but for the reports of the
text codecs: encrypting a text, writing a key as text, wrapping a key, creating a secret, and
updating the same attributes of one. So two failures are one and the same, or one of them is the
report on its own plaintexts or its own key; and where there is no report, nothing is told. -/
theorem failures_tell_codec_reports_only (root : Bytes) (org user secret encoding : Value)
    (expected : Option Value) :
    (∀ key t t', Discreet t.report? t'.report? (Sealing.encrypt key t) (Sealing.encrypt key t')) ∧
    (∀ key key', EndsAlike (keyReport? (encodingOf encoding) key)
      (keyReport? (encodingOf encoding) key') (encodeKeyValue (.bytes key) (encodingOf encoding))
      (encodeKeyValue (.bytes key') (encodingOf encoding))) ∧
    (∀ key key', Discreet (keyReport? (encodingOf encoding) key)
      (keyReport? (encodingOf encoding) key') (OrgKey.wrap org (.bytes key) root encoding)
      (OrgKey.wrap org (.bytes key') root encoding)) ∧
    (∀ draft draft', Discreet (Sealing.report? draft.texts.toList)
      (Sealing.report? draft'.texts.toList) (Vault.create root draft org user)
      (Vault.create root draft' org user)) ∧
    ∀ changes changes', (∀ a, (changes'.get a).isSome = (changes.get a).isSome) →
      Discreet (Sealing.report? changes.provided) (Sealing.report? changes'.provided)
        (Vault.update root secret changes org expected)
        (Vault.update root secret changes' org expected) := by
  refine ⟨fun key t t' => ⟨?_, ?_⟩, fun key key' => ?_, fun key key' => ⟨?_, ?_⟩,
    fun draft draft' => ⟨?_, ?_⟩, fun changes changes' h => ⟨?_, ?_⟩⟩
  · exact Sealing.encrypt_alike Memory.backend key t t'
  · exact Sealing.encrypt_alike Postgres.backend key t t'
  · exact OrgKey.encodeKey_alike (encodingOf encoding) key key'
  · exact fun m => OrgKey.wrap_alike Memory.backend m root org encoding key key'
  · exact fun s => OrgKey.wrap_alike Postgres.backend s root org encoding key key'
  · exact Vault.create_alike Memory.isOblivious root draft draft' org user
  · exact Vault.create_alike Postgres.isOblivious root draft draft' org user
  · exact Vault.update_alike Memory.isOblivious h root secret org expected
  · exact Vault.update_alike Postgres.isOblivious h root secret org expected

namespace Cabinet

variable {record : OrgKeyRecord}

/-- A pool that finds the row and the key, and no row any more at the write. -/
def vanishing (record : OrgKeyRecord) : Pool :=
  .start [⟨.map (row aes256Gcm), none, none, none⟩, ⟨.map (OrgKey.keyRow record), none, none, none⟩]
    (Nonces.counting 0)

def renamed (record : OrgKeyRecord) (title : Text) : Outcome Pool Text :=
  (Vault.update key.bytes (.text "s1") ⟨some title, none, none, none⟩ (.text "o1") none).run
    Postgres.backend (vanishing record)

/-- The title is sealed and written before the row is missed. -/
theorem renamed_fails (h : OrgKey.Wraps key key record) {title : Text} (ht : title.IsEncodable) :
    ∃ (field : Field) (q : Query), Seals key field title ∧
      Query.update (.text "s1") (columnsOf [("title", field)]) none = .ok q ∧
      (renamed record title).result =
        .error (Vault.notFound Vault.updateOperation (.text "s1") (.text "o1")) ∧
      .statement q ∈ (renamed record title).state.events := by
  let changes : Changes := ⟨some title, none, none, none⟩
  have hprovided : changes.provided.isEmpty = false := rfl
  have htexts : ∀ pair ∈ changes.provided, pair.2.IsEncodable := List.forall_mem_singleton.mpr ht
  let found := (vanishing record).saw [.acquire, .statement (.selectById (.text "s1")), .release]
  have hkey : ((OrgKey.resolve key.bytes (.text "o1")).run Postgres.backend found).result =
      .ok key.bytes := OrgKey.run_resolve_keyRow h (.text "o1") found rfl rfl
  have hrun : renamed record title =
      (Vault.writeChanges key.bytes (.text "s1") changes (.text "o1") none).run Postgres.backend
        found :=
    Vault.run_update_pool (p := vanishing record) hprovided rfl rfl ⟨_, rfl, rfl⟩ key.bytes
      (.text "s1") none
  obtain ⟨fields, s, hrel, -, hitem, hwrite⟩ := Vault.exists_sealed hkey htexts (.text "s1") none
  obtain ⟨q, hq⟩ := Vault.exists_update_statement hprovided hrel.names_eq (.text "s1") none
  obtain ⟨field, rfl, hseal⟩ :
      ∃ field, fields = ([("title", field)] : Assoc Field) ∧ Seals key field title := by
    cases hrel with
    | cons hseal hrest =>
      cases hrest
      exact ⟨_, rfl, hseal⟩
  have hend (k : Nat) : s.item k = ⟨.null, none, none, none⟩ := hitem k
  let written : Assoc Field := [("title", field)]
  have hupdate : (Access.update (.text "s1") (columnsOf written) none).statement = .ok q := hq
  have hrefused := Postgres.run_update_gone ⟨q, hupdate⟩ (.text "o1")
    (congrArg (·.fault?) (hend 0)) (congrArg (·.result.present) (hend 0))
    (congrArg (·.fault?) (hend 1))
  have hevents : (Access.update (.text "s1") (columnsOf written) none).events (s.item 0) =
      [.acquire, .statement q, .release] := by
    rw [Access.events_eq hupdate, hend]
    rfl
  rw [hrun, hwrite, hrefused, hevents]
  refine ⟨field, q, hseal, hq, rfl, ?_⟩
  simp [Pool.saw]

end Cabinet

/-- The hypothesis holds of two titles without a report: both are sealed, and the failures that
follow are the same. -/
theorem titles_told_alike : ∃ record, OrgKey.Wraps Cabinet.key Cabinet.key record ∧
    (∀ title ∈ (["rain", "sun"] : List Text), ∃ (field : Field) (q : Query),
      Seals Cabinet.key field title ∧
      Query.update (.text "s1") (columnsOf [("title", field)]) none = .ok q ∧
      .statement q ∈ (Cabinet.renamed record title).state.events) ∧
    ∃ e, (Cabinet.renamed record "rain").result = .error e ∧
      (Cabinet.renamed record "sun").result = .error e := by
  obtain ⟨record, hrecord⟩ := OrgKey.exists_wraps Cabinet.key Cabinet.key
  obtain ⟨-, -, -, -, hrain, -⟩ :=
    Cabinet.renamed_fails hrecord (show Text.IsEncodable "rain" by decide)
  have halike : EndsAlike none none (Cabinet.renamed record "rain").result
      (Cabinet.renamed record "sun").result :=
    ((failures_tell_codec_reports_only Cabinet.key.bytes (.text "o1") .null (.text "s1") .null
      none).2.2.2.2 ⟨some "rain", none, none, none⟩ ⟨some "sun", none, none, none⟩
      (by rintro (_ | _ | _ | _) <;> rfl)).2 (Cabinet.vanishing record)
  rw [hrain] at halike
  refine ⟨record, hrecord, fun title ht => ?_, _, hrain, halike.eq_of_unreported⟩
  have htitle : title.IsEncodable := by
    revert title
    decide
  obtain ⟨field, q, hseal, hq, -, hevent⟩ := Cabinet.renamed_fails hrecord htitle
  exact ⟨field, q, hseal, hq, hevent⟩

/-- Two keys of the right size, neither of which is UTF-8, are refused with an octet of each. -/
theorem key_reports_differ :
    let key (octet : UInt8) : Bytes := List.replicate keySize octet
    ∃ e e', encodeKeyValue (.bytes (key 0xFF)) (encodingOf (.text KeyEncoding.utf8.label)) =
        .error e ∧
      encodeKeyValue (.bytes (key 0xFE)) (encodingOf (.text KeyEncoding.utf8.label)) = .error e' ∧
      e.message ≠ e'.message := by
  refine ⟨.undecodable ⟨0, [0xFF], .badStart⟩, .undecodable ⟨0, [0xFE], .badStart⟩, rfl, rfl, ?_⟩
  decide

end EnvelopeVault
