import EnvelopeVault.Proofs.Refinement
import EnvelopeVault.Proofs.TwinStores

/-!
# Plaintexts do not show

`plaintexts_unobservable`: run calls twice, with other texts the second time.
All that can be seen of the two runs is the same: lines, failures, ids, counts,
and the stores but for the ciphertexts and tags that were written. The stores of
the two runs hold twin rows, and each call keeps them so.
-/

namespace EnvelopeVault

open FieldCipher Layout Program

variable {root : Bytes} {keys : Assoc OrgKeyRecord} {written : List (Text × Attribute)}
  {left right : Assoc Row} {row row' : Row} {org user secret id : Text}

-- ---------------------------------------------------------------------------
-- What a call writes
-- ---------------------------------------------------------------------------

section Writing

variable (h : TwinTables root keys written left right)
include h

theorem couples_insert {key : Key} {fields fields' : Assoc Field}
    (hnames : Assoc.names fields = Attribute.all.map (·.name))
    (hrel : SealedFields (fun _ => True) key fields fields') (hkey : IsKeyOf root keys org key)
    (user : Text) :
    Couples (Memory.Paired keys left right)
      (.call (.insert (Vault.newRow (.text org) (.text user) fields)))
      (.call (.insert (Vault.newRow (.text org) (.text user) fields')))
      (fun x y m m' => ∃ new : Value,
        (cellOf x "id" = .ok new ∧ cellOf y "id" = .ok new) ∧
        TwinStores root keys (Attribute.all.map (fun a => (new.toText, a)) ++ written) m m')
      (TwinStores root keys written) := by
  have hn : fields.names.Nodup := by
    rw [hnames]
    decide
  have hn' : fields'.names.Nodup := Assoc.Rel.names_eq hrel ▸ hn
  have hid := Vault.get?_newRow_plain hn (.text org) (.text user) (show isPlain "id" by decide)
  have hid' := Vault.get?_newRow_plain hn' (.text org) (.text user) (show isPlain "id" by decide)
  refine .call fun m m' hm => ⟨_, _, _, _, Memory.answer_insert hid, Memory.answer_insert hid', ?_⟩
  have hnext : m'.nextId = m.nextId := by
    rw [Memory.nextId, Memory.nextId, hm.plan, hm.planned]
  rw [hnext]
  refine ⟨m.nextId, ⟨?_, ?_⟩, _, _, ?_, { hm with
    rows := by rw [hm.rows]
    rows' := by rw [hm.rows']
    planned := congrArg (· + 1) hm.planned
    writes := congrArg (· + 1) hm.writes }⟩
  · exact cell_eq_ok_iff.mpr (Memory.get?_insertedRow_id ..)
  · exact cell_eq_ok_iff.mpr (Memory.get?_insertedRow_id ..)
  · refine (h.mono fun w hw => List.mem_append_right _ hw).put (v := 1) ?_ ?_
    · refine .inserted hrel hn (fun a _ => ?_) (fun a => ?_) hkey user m.nextId
      · exact List.mem_append_left _ (List.mem_map.mpr ⟨a, a.mem_all, rfl⟩)
      · rw [hnames]
        exact List.mem_map.mpr ⟨a, a.mem_all, rfl⟩
    · exact ⟨_, Vault.get?_inserted_plain hn _ _ m.nextId (by decide) (by decide), rfl⟩

theorem couples_create {draft draft' : Draft} (hd : ∀ a, (draft.texts.get a).IsEncodable)
    (hd' : ∀ a, (draft'.texts.get a).IsEncodable) (org user : Text) :
    Couples (Memory.Paired keys left right)
      (Vault.create root draft (.text org) (.text user))
      (Vault.create root draft' (.text org) (.text user))
      (fun new new' m m' => new' = new ∧
        TwinStores root keys (Attribute.all.map (fun a => (new, a)) ++ written) m m')
      (TwinStores root keys written) := by
  have htwins (m m' : Memory) : Memory.Paired keys left right m m' →
      TwinStores root keys written m m' := Memory.Paired.twins h
  have hdrafts : Assoc.Rel (fun name t t' => (∃ a, name = Attribute.name a ∧ True) ∧
      Text.IsEncodable t ∧ Text.IsEncodable t') draft.texts.toList draft'.texts.toList :=
    Attributes.rel_toList fun a => ⟨⟨a, rfl, trivial⟩, hd a, hd' a⟩
  rw [Vault.create, Vault.create]
  refine ((Memory.Paired.couples_resolve root org).mono_error htwins).bind fun k k' => .assume ?_
  rintro ⟨rfl, key, rfl, hkey⟩
  refine ((couples_encryptAll Memory.Paired.drawsAlike hdrafts).mono_error htwins).bind
    fun fields fields' => .assume ?_
  rintro ⟨hnames, hrel⟩
  refine (couples_insert h hnames hrel hkey user).bind fun x y => .any fun new => .assume ?_
  rintro ⟨hx, hy⟩
  simp only [hx, hy]
  exact .note (.done_ok fun _ _ hm => ⟨rfl, hm⟩) _

omit h in
theorem couples_sealChanges {changes changes' : Changes} {P : Attribute → Prop}
    (hprovided : Assoc.Rel (fun name t t' => (∃ a, name = Attribute.name a ∧ P a) ∧
      Text.IsEncodable t ∧ Text.IsEncodable t') changes.provided changes'.provided) (org : Text) :
    Couples (Memory.Paired keys left right) (Vault.sealChanges root changes (.text org))
      (Vault.sealChanges root changes' (.text org))
      (fun fields fields' m m' => (∃ key, IsKeyOf root keys org key ∧
        (Assoc.names fields).Nodup ∧ SealedFields P key fields fields') ∧
        Memory.Paired keys left right m m')
      (Memory.Paired keys left right) := by
  refine (Memory.Paired.couples_resolve root org).bind fun k k' => .assume ?_
  rintro ⟨rfl, key, rfl, hkey⟩
  refine (couples_encryptAll Memory.Paired.drawsAlike hprovided).mono (fun _ _ hm => hm) ?_
    fun _ _ hm => hm
  rintro fields fields' m m' ⟨⟨hnames, hrel⟩, hm⟩
  exact ⟨⟨key, hkey, hnames ▸ changes.nodup_provided, hrel⟩, hm⟩

theorem couples_updateRow {more : List (Text × Attribute)} {fields fields' : Assoc Field} {v : Int}
    {expected : Option Value} (hrow : left.get? secret = some row)
    (hrow' : right.get? secret = some row') (hn : fields.names.Nodup) (hn' : fields'.names.Nodup)
    (hv : Holds row "version" (· = .int v)) (hv' : Holds row' "version" (· = .int v))
    (he : expected.all (·.isNumber v) = true) (hmore : ∀ w ∈ written, w ∈ more)
    (hover : TwinRows root keys more secret (overlay row fields (v + 1))
      (overlay row' fields' (v + 1))) :
    Couples (Memory.Paired keys left right)
      (.call (.update (.text secret) (columnsOf fields) expected))
      (.call (.update (.text secret) (columnsOf fields') expected))
      (fun x y m m' => (x = some (.map (overlay row fields (v + 1))) ∧
        y = some (.map (overlay row' fields' (v + 1)))) ∧ TwinStores root keys more m m')
      (TwinStores root keys written) := by
  refine .call fun m m' hm => ⟨_, _, _, _,
    Memory.answer_update_written (hm.rows ▸ hrow) hv hn he,
    Memory.answer_update_written (hm.rows' ▸ hrow') hv' hn' he, ⟨rfl, rfl⟩, _, _,
    (h.mono hmore).put hover (overlay_version ..), { hm with
      rows := ?_
      rows' := ?_
      writes := congrArg (· + 1) hm.writes }⟩
  · rw [hm.rows, Value.toText]
  · rw [hm.rows', Value.toText]

theorem couples_writeChanges {changes changes' : Changes} {P : Attribute → Prop}
    {more : List (Text × Attribute)} {r : SecretRecord} {v : Int} {expected : Option Value}
    (hprovided : Assoc.Rel (fun name t t' => (∃ a, name = Attribute.name a ∧ P a) ∧
      Text.IsEncodable t ∧ Text.IsEncodable t') changes.provided changes'.provided)
    (hrow : left.get? secret = some row) (hr : Reads row r) (ho : r.orgId = org)
    (hv : Holds row "version" (· = .int v)) (he : expected.all (·.isNumber v) = true)
    (hP : ∀ a, P a → (secret, a) ∈ more) (hmore : ∀ w ∈ written, w ∈ more) :
    Couples (Memory.Paired keys left right)
      (Vault.writeChanges root (.text secret) changes (.text org) expected)
      (Vault.writeChanges root (.text secret) changes' (.text org) expected)
      (fun t t' m m' => t' = t ∧ TwinStores root keys more m m')
      (TwinStores root keys written) := by
  rw [Vault.writeChanges_eq, Vault.writeChanges_eq]
  refine ((couples_sealChanges hprovided org).mono_error fun _ _ => Memory.Paired.twins h).bind
    fun fields fields' => .assume ?_
  rintro ⟨key, hkey, hn, hrel⟩
  have hn' : (Assoc.names fields').Nodup := Assoc.Rel.names_eq hrel ▸ hn
  obtain ⟨row', hrow', htwins⟩ := h.of_get? hrow
  have hv' : Holds row' "version" (· = .int v) := hv.congr (htwins.plain (by decide))
  obtain ⟨owner, howner, hown⟩ := hr.org
  have hover : TwinRows root keys more secret (overlay row fields (v + 1))
      (overlay row' fields' (v + 1)) :=
    (htwins.mono hmore).overlay hrel hn hP howner (hown.trans ho ▸ hkey) (v + 1)
  refine (couples_updateRow h hrow hrow' hn hn' hv hv' he hmore hover).access
    fun x y => .assume ?_
  rintro ⟨rfl, rfl⟩
  obtain ⟨new, hnew, -⟩ := hr.id.congr (overlay_plain hn row (v + 1) "id" (by decide) (by decide))
  have hcell : cellOf (.map (overlay row fields (v + 1))) "id" = .ok new :=
    cell_eq_ok_iff.mpr hnew
  have hfields : fields'.map (·.1) = fields.map (·.1) := (Assoc.Rel.names_eq hrel).symm
  rw [Vault.conclude, Vault.conclude, hover.cellOf_plain (by decide), hcell, hfields]
  exact .note (.done_ok fun _ _ hm => ⟨rfl, hm⟩) _

omit h in
theorem rel_provided {changes changes' : Changes}
    (hsame : ∀ a, (changes'.get a).isSome = (changes.get a).isSome)
    (hc : ∀ a t, changes.get a = some t → t.IsEncodable)
    (hc' : ∀ a t, changes'.get a = some t → t.IsEncodable) :
    Assoc.Rel (fun name t t' => (∃ a, name = Attribute.name a ∧ (changes.get a).isSome = true) ∧
      Text.IsEncodable t ∧ Text.IsEncodable t') changes.provided changes'.provided := by
  refine Changes.rel_provided fun a => ?_
  have ha := hsame a
  cases ht : changes.get a with
  | none =>
    rw [ht, Option.isSome_none, Option.isSome_eq_false_iff, Option.isNone_iff_eq_none] at ha
    rw [ha]
    exact .none
  | some t =>
    rw [ht, Option.isSome_some, Option.isSome_iff_exists] at ha
    obtain ⟨t', ht'⟩ := ha
    rw [ht']
    exact .some ⟨⟨a, rfl, by rw [ht, Option.isSome_some]⟩, hc a t ht, hc' a t' ht'⟩

theorem couples_update {changes changes' : Changes}
    (hsame : ∀ a, (changes'.get a).isSome = (changes.get a).isSome)
    (hc : ∀ a t, changes.get a = some t → t.IsEncodable)
    (hc' : ∀ a t, changes'.get a = some t → t.IsEncodable) (secret org : Text)
    (expected : Option Value) :
    Couples (Memory.Paired keys left right)
      (Vault.update root (.text secret) changes (.text org) expected)
      (Vault.update root (.text secret) changes' (.text org) expected)
      (fun t t' m m' => t' = t ∧ TwinStores root keys
        ((Attribute.all.filter fun a => (changes.get a).isSome).map (fun a => (secret, a)) ++
          written) m m')
      (TwinStores root keys written) := by
  have hprovided := rel_provided hsame hc hc'
  have herror (m m' : Memory) : Memory.Paired keys left right m m' →
      TwinStores root keys written m m' := Memory.Paired.twins h
  have hempty : changes'.provided.isEmpty = changes.provided.isEmpty := by
    generalize changes.provided = texts at hprovided ⊢
    generalize changes'.provided = texts' at hprovided ⊢
    cases hprovided <;> rfl
  cases hp : changes.provided.isEmpty with
  | true =>
    rw [Vault.update, Vault.update, if_pos hp, if_pos (hempty.trans hp)]
    exact .done_error herror
  | false =>
    rw [Vault.update_eq hp, Vault.update_eq (hempty.trans hp)]
    refine ((Memory.Paired.couples_fetch secret).mono_error herror).access fun x y => .assume ?_
    rintro ⟨rfl, rfl⟩
    rw [Vault.proceed, Vault.proceed, admits_twins h]
    cases ha : Vault.admits (.text secret) (.text org) expected ((left.get? secret).map .map) with
    | error e => exact .done_error herror
    | ok _ =>
      -- of a store with these rows, whatever else is in it
      obtain ⟨row, r, v, hrow, hr, ho, hv, he⟩ := Vault.row_of_admits
        (m := { Memory.empty [] (Nonces.counting 0) with rows := left }) h.versions ha
      refine couples_writeChanges h hprovided hrow hr ho hv he (fun a ha => ?_) fun w hw => ?_
      · refine List.mem_append_left _ (List.mem_map.mpr ⟨a, ?_, rfl⟩)
        exact List.mem_filter.mpr ⟨a.mem_all, ha⟩
      · exact List.mem_append_right _ hw

theorem couples_delete (secret : Text) :
    Couples (Memory.Paired keys left right) (Vault.delete (.text secret))
      (Vault.delete (.text secret))
      (fun t t' m m' => t' = t ∧ TwinStores root keys written m m')
      (TwinStores root keys written) := by
  have hdelete : Couples (Memory.Paired keys left right) (.call (.delete (.text secret)))
      (.call (.delete (.text secret)))
      (fun x y m m' => (x = (left.get? secret).map .map ∧ y = (right.get? secret).map .map) ∧
        TwinStores root keys written m m')
      (TwinStores root keys written) := by
    refine .call fun m m' hm => ⟨_, _, _, _, rfl, rfl, ⟨?_, ?_⟩, _, _, h.erase secret, { hm with
      rows := ?_
      rows' := ?_
      writes := congrArg (· + 1) hm.writes }⟩
    · exact hm.rows ▸ rfl
    · exact hm.rows' ▸ rfl
    · exact hm.rows ▸ rfl
    · exact hm.rows' ▸ rfl
  rw [Vault.delete]
  refine hdelete.bind fun x y => .assume ?_
  rintro ⟨rfl, rfl⟩
  have hrow := h.get? secret
  generalize left.get? secret = row? at hrow ⊢
  generalize right.get? secret = row?' at hrow ⊢
  cases hrow with
  | none => exact .done_error fun _ _ hm => hm
  | some hrow =>
    simp only [Option.map_some, hrow.cellOf_plain (show isPlain "id" by decide),
      Program.bind_eq, Program.log_bind]
    refine .note ?_ _
    exact (Couples.ofExcept (.refl (R := fun t t' => t' = t) fun _ => rfl)).bind fun t t' =>
      .assume fun ht => .done_ok fun _ _ hm => ⟨congrArg Value.toText ht, hm⟩

end Writing

-- ---------------------------------------------------------------------------
-- Sequences of calls
-- ---------------------------------------------------------------------------

/-- The same call with other texts. What is changed is changed in both; a comment that is left out
of a draft counts as a text. -/
inductive Call.SameButTexts : Call → Call → Prop
  | create (draft draft' : Draft) (org user : Text) :
      SameButTexts (.create draft org user) (.create draft' org user)
  | get (secret org : Text) : SameButTexts (.get secret org) (.get secret org)
  | list (org user : Text) : SameButTexts (.list org user) (.list org user)
  | update (secret org : Text) (expected : Option Int) {changes changes' : Changes}
      (h : ∀ a, (changes'.get a).isSome = (changes.get a).isSome) :
      SameButTexts (.update secret changes org expected) (.update secret changes' org expected)
  | delete (secret : Text) : SameButTexts (.delete secret) (.delete secret)

inductive Reply.SameButTexts : Reply → Reply → Prop
  | id (t : Text) : SameButTexts (.id t) (.id t)
  | secret {s s' : Secret} (h : s.SameButTexts s') : SameButTexts (.secret s) (.secret s')
  | secrets {ss ss' : List Secret} (h : List.Forall₂ Secret.SameButTexts ss ss') :
      SameButTexts (.secrets ss) (.secrets ss')

/-- The fields that a call has written if it ended like this. -/
def Call.wrote : Call → Except Failure Reply → List (Text × Attribute)
  | .create .., .ok (.id new) => Attribute.all.map fun a => (new, a)
  | .update secret changes _ _, .ok _ =>
    (Attribute.all.filter fun a => (changes.get a).isSome).map fun a => (secret, a)
  | _, _ => []

/-- A call that has ended, with the fields that were written up to its end. -/
structure Call.Finished where
  outcome : Outcome Memory Reply
  written : List (Text × Attribute)

def Call.runMarked (root : Bytes) : List Call → List (Text × Attribute) → Memory → List Finished
  | [], _, _ => []
  | call :: calls, written, m =>
    let o := (call.program root).run Memory.backend m
    let written := call.wrote o.result ++ written
    ⟨o, written⟩ :: runMarked root calls written o.state

/-- All that can be seen of two ends is the same, but for texts: of the stores, the ciphertexts
and tags of fields that were written. -/
structure Call.Finished.SameButTexts (x x' : Finished) : Prop where
  result : Concurs Reply.SameButTexts x.outcome.result x'.outcome.result
  log : x'.outcome.log = x.outcome.log
  written : x'.written = x.written
  rows : Assoc.Rel (fun id => Assoc.Rel (Veils x.written id)) x.outcome.state.rows
    x'.outcome.state.rows
  keys : x'.outcome.state.keys = x.outcome.state.keys
  plan : x'.outcome.state.plan = x.outcome.state.plan
  planned : x'.outcome.state.planned = x.outcome.state.planned
  nonces : x'.outcome.state.nonces = x.outcome.state.nonces
  lookups : x'.outcome.state.lookups = x.outcome.state.lookups
  writes : x'.outcome.state.writes = x.outcome.state.writes

theorem Call.wrote_eq {call call' : Call} (h : call.SameButTexts call')
    (hr : Concurs Reply.SameButTexts result result') : call'.wrote result' = call.wrote result := by
  cases hr with
  | error e => cases h <;> rfl
  | ok hr =>
    cases h with
    | create => cases hr <;> rfl
    | update secret org expected h => simp only [wrote, h]
    | _ => rfl

theorem couples_call {call call' : Call} (h : TwinTables root keys written left right)
    (hs : call.SameButTexts call') (hc : call.IsEncodable) (hc' : call'.IsEncodable) :
    Couples (Memory.Paired keys left right) (call.program root) (call'.program root)
      (fun reply reply' m m' => reply.SameButTexts reply' ∧
        TwinStores root keys (call.wrote (.ok reply) ++ written) m m')
      (TwinStores root keys written) := by
  have htwins (m m' : Memory) : Memory.Paired keys left right m m' →
      TwinStores root keys written m m' := Memory.Paired.twins h
  cases hs with
  | create draft draft' org user =>
    refine (couples_create h hc hc' org user).map ?_
    rintro new _ m m' ⟨rfl, hm⟩
    exact ⟨.id _, hm⟩
  | get secret org =>
    refine ((couples_get h secret org).mono_error htwins).map ?_
    rintro s s' m m' ⟨hs, hm⟩
    exact ⟨.secret hs, htwins m m' hm⟩
  | list org user =>
    refine ((couples_list h org user).mono_error htwins).map ?_
    rintro ss ss' m m' ⟨hss, hm⟩
    exact ⟨.secrets hss, htwins m m' hm⟩
  | update secret org expected hsame =>
    refine (couples_update h hsame hc hc' secret org _).map ?_
    rintro new _ m m' ⟨rfl, hm⟩
    exact ⟨.id _, hm⟩
  | delete secret =>
    refine (couples_delete h secret).map ?_
    rintro new _ m m' ⟨rfl, hm⟩
    exact ⟨.id _, hm⟩

theorem TwinStores.finished {o o' : Outcome Memory Reply}
    (h : TwinStores root keys written o.state o'.state) (hlog : o'.log = o.log)
    (hr : Concurs Reply.SameButTexts o.result o'.result) :
    Call.Finished.SameButTexts ⟨o, written⟩ ⟨o', written⟩ := by
  obtain ⟨left, right, ht, hm⟩ := h
  refine ⟨hr, hlog, rfl, ?_, hm.records'.trans hm.records.symm, hm.plan, hm.planned, hm.nonces,
    hm.lookups, hm.writes⟩
  rw [hm.rows, hm.rows']
  exact ht.rows.mono fun _ _ _ hrow => hrow.cells

theorem TwinStores.run {calls calls' : List Call} (h : TwinStores root keys written m m')
    (hcalls : List.Forall₂ Call.SameButTexts calls calls')
    (hc : ∀ call ∈ calls, call.IsEncodable) (hc' : ∀ call ∈ calls', call.IsEncodable) :
    List.Forall₂ Call.Finished.SameButTexts (Call.runMarked root calls written m)
      (Call.runMarked root calls' written m') := by
  induction hcalls generalizing written m m' with
  | nil => exact .nil
  | @cons call call' calls calls' hs _ ih =>
    obtain ⟨hcall, hrest⟩ := List.forall_mem_cons.mp hc
    obtain ⟨hcall', hrest'⟩ := List.forall_mem_cons.mp hc'
    obtain ⟨left, right, ht, hm⟩ := h
    have hstep := couples_call ht hs hcall hcall' m m' hm
    rw [Call.runMarked, Call.runMarked]
    generalize (call.program root).run Memory.backend m = o at hstep ⊢
    generalize (call'.program root).run Memory.backend m' = o' at hstep ⊢
    cases hstep with
    | ok log h =>
      obtain ⟨hreply, hafter⟩ := h
      simp only [Call.wrote_eq hs (.ok hreply)]
      exact .cons (hafter.finished rfl (.ok hreply)) (ih hafter hrest hrest')
    | error e log hafter =>
      have hnone : call.wrote (.error e) = [] := by cases call <;> rfl
      simp only [Call.wrote_eq hs (.error e), hnone, List.nil_append]
      exact .cons (hafter.finished rfl (.error e)) (ih hafter hrest hrest')

/-- Take two sequences of calls that differ in the texts that are sealed only, and run both on one
store. Each call ends in both with the same failure, or in both with success, with the same ids and
owners; it logs the same, looks up as many keys, draws as many nonces and writes as often; and
after it the stores differ at most in the ciphertexts and tags of the fields that were written. -/
theorem plaintexts_unobservable (root : Bytes) (m : Memory) (hm : m.HasIntegerVersions)
    (calls calls' : List Call) (hcalls : List.Forall₂ Call.SameButTexts calls calls')
    (hc : ∀ call ∈ calls, call.IsEncodable) (hc' : ∀ call ∈ calls', call.IsEncodable) :
    List.Forall₂ Call.Finished.SameButTexts (Call.runMarked root calls [] m)
      (Call.runMarked root calls' [] m) := by
  have htables : TwinTables root m.keys [] m.rows m.rows :=
    ⟨.refl (fun _ row => TwinRows.refl row) _, hm⟩
  have hstores : TwinStores root m.keys [] m m :=
    ⟨_, _, htables, rfl, rfl, rfl, rfl, rfl, rfl, rfl, rfl, rfl⟩
  exact hstores.run hcalls hc hc'

namespace Shelf

def diary (entry : Text) : List Call :=
  [.create ⟨"diary", "note", entry, none⟩ "o" "u", .get "s1" "o", .get "s0" "o",
    .update "s0" ⟨some entry, none, none, none⟩ "o" (some 1), .list "o" "u", .delete "s1"]

theorem diary_sameButTexts (entry entry' : Text) :
    List.Forall₂ Call.SameButTexts (diary entry) (diary entry') := by
  refine .cons (.create ..) (.cons (.get ..) (.cons (.get ..) (.cons (.update _ _ _ ?_)
    (.cons (.list ..) (.cons (.delete _) .nil)))))
  rintro (_ | _ | _ | _) <;> rfl

theorem diary_isEncodable {entry : Text} (h : entry.IsEncodable) :
    ∀ call ∈ diary entry, call.IsEncodable := by
  have hdraft (a : Attribute) :
      (Attributes.get (Draft.texts ⟨"diary", "note", entry, none⟩) a).IsEncodable := by
    cases a with
    | title => exact (show Text.IsEncodable "diary" by decide)
    | type => exact (show Text.IsEncodable "note" by decide)
    | data => exact h
    | comment => exact (show Text.IsEncodable [] by decide)
  have hchanges (a : Attribute) (t : Text)
      (ht : (⟨some entry, none, none, none⟩ : Changes).get a = some t) : t.IsEncodable := by
    cases a <;> cases ht
    exact h
  simp only [diary, List.forall_mem_cons]
  exact ⟨hdraft, trivial, trivial, hchanges, trivial, trivial, List.forall_mem_nil _⟩

theorem store_versions (record : OrgKeyRecord) : (store record).HasIntegerVersions := by
  intro id row h
  obtain ⟨-, rfl⟩ := Prod.mk.inj (List.mem_singleton.mp (Assoc.mem_of_get? h))
  exact ⟨1, .int 1, rfl, rfl⟩

end Shelf

/-- The hypotheses hold of a store with a legacy row, and of two diary entries. -/
theorem diary_unobservable : ∃ record, OrgKey.Wraps Shelf.key Shelf.key record ∧
    List.Forall₂ Call.Finished.SameButTexts
      (Call.runMarked Shelf.key.bytes (Shelf.diary "rain") [] (Shelf.store record))
      (Call.runMarked Shelf.key.bytes (Shelf.diary "sun") [] (Shelf.store record)) := by
  obtain ⟨record, hrecord⟩ := OrgKey.exists_wraps Shelf.key Shelf.key
  exact ⟨record, hrecord, plaintexts_unobservable Shelf.key.bytes (Shelf.store record)
    (Shelf.store_versions record) _ _ (Shelf.diary_sameButTexts "rain" "sun")
    (Shelf.diary_isEncodable (by decide)) (Shelf.diary_isEncodable (by decide))⟩

end EnvelopeVault
