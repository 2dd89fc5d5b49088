import EnvelopeVault.Proofs.Attribution

/-!
# Listing agrees with reading one by one

Listing resolves the key before it looks at rows, reading looks at its row first;
yet `listing_agrees_with_reading`: with a key that resolves, the secrets that are
listed are those that reading gives for the listed rows one after another, and
listing fails as reading fails on the first of them that cannot be read. Rows go
by the ids under which they lie in the store.
-/

namespace EnvelopeVault

open Layout

-- ---------------------------------------------------------------------------
-- Rows that are listed
-- ---------------------------------------------------------------------------

namespace Memory

variable {org user : Text} {row : Row}

def isListed (org user : Text) (row : Row) : Bool :=
  (row.get? "orgId").any (·.toText = org) && (row.get? "userId").any (·.toText = user) &&
    (row.get? (column Attribute.data.name .ciphertext)).any (!·.isNull)

/-- The rows that are listed, under their ids, in the order of the store. -/
def listed (m : Memory) (org user : Text) : Assoc Row :=
  m.rows.filter fun entry => isListed org user entry.2

/-- The column `name` is missing, and whether the row is listed cannot be told without it. -/
inductive Lacks (org user : Text) (row : Row) : Text → Prop
  | org (h : row.get? "orgId" = none) : Lacks org user row "orgId"
  | user (ho : Holds row "orgId" fun owner => owner.toText = org)
    (h : row.get? "userId" = none) : Lacks org user row "userId"
  | data (ho : Holds row "orgId" fun owner => owner.toText = org)
    (hu : Holds row "userId" fun member => member.toText = user)
    (h : row.get? (column Attribute.data.name .ciphertext) = none) :
    Lacks org user row (column Attribute.data.name .ciphertext)

theorem holds_owner (h : isListed org user row = true) :
    Holds row "orgId" fun owner => owner.toText = org := by
  rw [isListed, Bool.and_eq_true, Bool.and_eq_true, Option.any_eq_true] at h
  obtain ⟨owner, howner, hown⟩ := h.1.1
  exact ⟨owner, howner, of_decide_eq_true hown⟩

theorem not_lacks (ho : row.has "orgId") (hu : row.has "userId")
    (hd : row.has (column Attribute.data.name .ciphertext)) : ¬ Lacks org user row name := by
  have absent {name : Text} (h : row.has name) : row.get? name ≠ none :=
    Option.isSome_iff_ne_none.mp h
  rintro (h | ⟨-, h⟩ | ⟨-, -, h⟩)
  · exact absent ho h
  · exact absent hu h
  · exact absent hd h

theorem isSelected_of_lacks (h : Lacks org user row name) :
    isSelected org user true row = .error (.missingColumn name) := by
  have found {name : Text} {P : Value → Prop} (h : Holds row name P) :
      ∃ v, cell row name = .ok v ∧ P v := h.imp fun _ => And.imp_left cell_eq_ok_iff.mpr
  have absent {name : Text} (h : row.get? name = none) :
      cell row name = .error (.missingColumn name) := by rw [cell, h]
  unfold isSelected isOwnedBy hasData
  cases h with
  | org h => simp [absent h, bind, Except.bind]
  | user ho h =>
    obtain ⟨owner, howner, hown⟩ := found ho
    simp [howner, hown, absent h, bind, Except.bind]
  | data ho hu h =>
    obtain ⟨owner, howner, hown⟩ := found ho
    obtain ⟨member, hmember, huser⟩ := found hu
    simp [howner, hown, hmember, huser, absent h, bind, Except.bind, pure, Except.pure]

theorem isSelected_cases (org user : Text) (row : Row) :
    (∃ name, Lacks org user row name) ∨
      isSelected org user true row = .ok (isListed org user row) := by
  simp only [isSelected, isOwnedBy, hasData, cell, isListed]
  cases ho : row.get? "orgId" with
  | none => exact .inl ⟨_, .org ho⟩
  | some owner =>
    by_cases hown : owner.toText = org
    case neg => exact .inr (by simp [hown, bind, Except.bind, pure, Except.pure])
    cases hu : row.get? "userId" with
    | none => exact .inl ⟨_, .user ⟨owner, ho, hown⟩ hu⟩
    | some member =>
      by_cases huser : member.toText = user
      case neg => exact .inr (by simp [hown, huser, bind, Except.bind, pure, Except.pure])
      cases hd : row.get? (column Attribute.data.name .ciphertext) with
      | none => exact .inl ⟨_, .data ⟨owner, ho, hown⟩ ⟨member, hu, huser⟩ hd⟩
      | some data => exact .inr (by simp [hown, huser, bind, Except.bind, pure, Except.pure])

theorem select_eq_filter {rows : List Row}
    (h : ∀ row ∈ rows, ∀ name, ¬ Lacks org user row name) :
    select org user true rows = .ok (rows.filter (isListed org user)) := by
  induction rows with
  | nil => rfl
  | cons row rows ih =>
    obtain ⟨hrow, hrows⟩ := List.forall_mem_cons.mp h
    obtain ⟨name, hlacks⟩ | hselected := isSelected_cases org user row
    · exact absurd hlacks (hrow name)
    · rw [select, hselected, ih hrows]
      cases hl : isListed org user row <;>
        simp [hl, bind, Except.bind, pure, Except.pure]

theorem select_lacking {rows : List Row} (hm : row ∈ rows) (h : Lacks org user row name) :
    ∃ row ∈ rows, ∃ name, Lacks org user row name ∧
      select org user true rows = .error (.missingColumn name) := by
  induction rows with
  | nil => cases hm
  | cons first rows ih =>
    obtain ⟨missing, hlacks⟩ | hselected := isSelected_cases org user first
    · refine ⟨first, List.mem_cons_self, missing, hlacks, ?_⟩
      rw [select, isSelected_of_lacks hlacks]
      rfl
    · obtain rfl | hm := List.mem_cons.mp hm
      · rw [isSelected_of_lacks h] at hselected
        cases hselected
      · obtain ⟨later, hlater, missing, hlacks, hselect⟩ := ih hm
        refine ⟨later, List.mem_cons_of_mem _ hlater, missing, hlacks, ?_⟩
        rw [select, hselected, hselect]
        rfl

end Memory

-- ---------------------------------------------------------------------------
-- Keys
-- ---------------------------------------------------------------------------

theorem OrgKey.exists_run_resolve (root : Bytes) (org : Value) (m : Memory) :
    ∃ r log, (resolve root org).run Memory.backend m =
        ⟨r, log, { m with lookups := m.lookups + 1 }⟩ ∧
      ∀ octets, r = .ok octets → log = [] ∧ ∃ key : Key, key.bytes = octets := by
  rw [resolve_eq, Program.run_answer (Memory.answer_key ..)]
  cases m.keys.get? org.toText with
  | none => exact ⟨_, [], rfl, nofun⟩
  | some record =>
    obtain ⟨log, r, hsaying, hopens⟩ := exists_saying root org record
    refine ⟨r, log, by rw [ofFound, hsaying, Program.run_saying], fun octets hr => ?_⟩
    obtain ⟨hlog, -, -, hlength⟩ := hopens octets hr
    exact ⟨hlog, ⟨octets, hlength⟩, rfl⟩

namespace Vault

variable {m : Memory} {root : Bytes} {org user : Value} {key : Key}

-- ---------------------------------------------------------------------------
-- Rows, opened one by one
-- ---------------------------------------------------------------------------

def openRow (key : Bytes) (row : Value) : Program Secret :=
  (Program.ofExcept (recordOf row)).bind (Sealing.decryptRecord key)

theorem openRow_cases (key : Key) (row : Value) :
    (∃ s, openRow key.bytes row = .saying [] (.ok s)) ∨
      ∃ e log, openRow key.bytes row = .saying log (.error e) := by
  rw [openRow, Program.ofExcept_bind]
  cases hr : recordOf row with
  | error e => exact .inr ⟨e, [], rfl⟩
  | ok r =>
    obtain hs | ⟨e, log, -, hs⟩ := decryptRecord_opens key hr
    · exact .inl hs
    · exact .inr ⟨e, log, hs⟩

theorem openRows_cons (key : Bytes) (row : Value) (rows : List Value) :
    openRows key (row :: rows) = (openRow key row).bind fun secret =>
      (openRows key rows).bind fun secrets => .done (.ok (secret :: secrets)) := by
  rw [openRow, Program.bind_assoc]
  rfl

-- ---------------------------------------------------------------------------
-- Runs
-- ---------------------------------------------------------------------------

/-- How the secret under an id is read. -/
def readAt (root : Bytes) (org : Value) (m : Memory) (id : Text) : Outcome Memory Secret :=
  (get root (.text id) org).run Memory.backend m

theorem readAt_eq {id : Text} {row : Row} {log : List LogLine} {r : Except Failure Secret}
    (hkey : ((OrgKey.resolve root org).run Memory.backend m).result = .ok key.bytes)
    (hrow : m.rows.get? id = some row)
    (hown : Holds row "orgId" fun owner => owner.toText = org.toText)
    (hopen : openRow key.bytes (.map row) = .saying log r) :
    (readAt root org m id).result = r ∧ (readAt root org m id).log = log := by
  obtain ⟨owner, howner, hown⟩ := hown
  have howned : ownedRecord "FindConsumerSecretById" (.text id) org (some (.map row)) =
      recordOf (.map row) := by
    have hcell : cellOf (.map row) "orgId" = .ok owner := cell_eq_ok_iff.mpr howner
    simp [ownedRecord, hcell, hown, bind, Except.bind]
  have hrow : m.rows.get? (Value.text id).toText = some row := hrow
  have hrun (m : Memory) :
      (openRow key.bytes (.map row)).run Memory.backend m = ⟨r, log, m⟩ := by
    rw [hopen, Program.run_saying]
  rw [readAt, get, fetchOwned_eq, Program.bind_eq, Program.bind, run_fetch, hrow, Option.map_some,
    howned]
  rw [openRow, Program.ofExcept_bind] at hrun
  cases hr : recordOf (.map row) with
  | error e =>
    rw [hr] at hrun
    obtain ⟨rfl, rfl, -⟩ := Outcome.mk.inj (hrun m)
    exact ⟨rfl, rfl⟩
  | ok record =>
    rw [hr] at hrun
    obtain ⟨m', hresolve, -⟩ := OrgKey.run_resolve_ok hkey
    rw [Program.done_bind, Program.bind_eq, Program.run_bind, hresolve, Outcome.andThen]
    simp only [hrun, List.nil_append, and_self]

/-- Rows are opened one after another, each as reading opens it, up to the first that fails. -/
theorem openRows_reads (rows : Assoc Row)
    (hkey : ((OrgKey.resolve root org).run Memory.backend m).result = .ok key.bytes)
    (hrows : ∀ entry ∈ rows, m.rows.get? entry.1 = some entry.2 ∧
      Holds entry.2 "orgId" fun owner => owner.toText = org.toText) :
    (∃ secrets : List Secret,
      openRows key.bytes (rows.map fun entry => .map entry.2) = .saying [] (.ok secrets) ∧
      rows.names.map (fun id => (readAt root org m id).result) = secrets.map .ok) ∨
    ∃ before id after e, rows.names = before ++ id :: after ∧
      (∀ earlier ∈ before, ∃ s, (readAt root org m earlier).result = .ok s) ∧
      (readAt root org m id).result = .error e ∧
      openRows key.bytes (rows.map fun entry => .map entry.2) =
        .saying (readAt root org m id).log (.error e) := by
  induction rows with
  | nil => exact .inl ⟨[], rfl, rfl⟩
  | cons entry rows ih =>
    obtain ⟨id, row⟩ := entry
    obtain ⟨⟨hfound, hown⟩, hrest⟩ := List.forall_mem_cons.mp hrows
    rw [List.map_cons, openRows_cons, Assoc.names_cons]
    obtain ⟨s, hs⟩ | ⟨e, log, he⟩ := openRow_cases key (.map row)
    case inr =>
      obtain ⟨hresult, hlog⟩ := readAt_eq hkey hfound hown he
      refine .inr ⟨[], id, Assoc.names rows, e, rfl, by simp, hresult, ?_⟩
      rw [he, hlog, Program.saying_error_bind]
    have hread := (readAt_eq hkey hfound hown hs).1
    rw [hs, Program.saying_ok_bind]
    obtain ⟨secrets, hopen, heach⟩ | ⟨before, later, after, e, hnames, hb, hlater, hopen⟩ :=
      ih hrest
    · refine .inl ⟨s :: secrets, by rw [hopen]; rfl, ?_⟩
      rw [List.map_cons, hread, heach, List.map_cons]
    · refine .inr ⟨id :: before, later, after, e, by rw [hnames, List.cons_append],
        List.forall_mem_cons.mpr ⟨⟨s, hread⟩, hb⟩, hlater, ?_⟩
      rw [hopen, Program.saying_error_bind]

theorem run_list (hkey : ((OrgKey.resolve root org).run Memory.backend m).result = .ok key.bytes)
    (user : Value) :
    (list root org user).run Memory.backend m =
      match Memory.select org.toText user.toText true (m.rows.map (·.2)) with
      | .error e => ⟨.error e, [], { m with lookups := m.lookups + 1 }⟩
      | .ok rows =>
        ((openRows key.bytes (rows.map .map)).bind fun secrets =>
          .saying [.secretsListed secrets.length org.toText user.toText] (.ok secrets)).run
            Memory.backend { m with lookups := m.lookups + 1 } := by
  obtain ⟨r, log, hrun, hok⟩ := OrgKey.exists_run_resolve root org m
  rw [hrun] at hkey
  obtain ⟨rfl, -⟩ := hok _ hkey
  rw [list_eq, Program.run_bind, hrun, show r = _ from hkey, Outcome.andThen]
  simp only [Program.run, Memory.backend, Memory.answer, List.nil_append]
  cases Memory.select org.toText user.toText true (m.rows.map (·.2)) <;> rfl

theorem list_unresolved (h : ((OrgKey.resolve root org).run Memory.backend m).result = .error e)
    (user : Value) :
    (list root org user).run Memory.backend m =
      ⟨.error e, ((OrgKey.resolve root org).run Memory.backend m).log,
        { m with lookups := m.lookups + 1 }⟩ := by
  obtain ⟨r, log, hrun, -⟩ := OrgKey.exists_run_resolve root org m
  rw [hrun] at h
  rw [list_eq, Program.run_bind, hrun, show r = _ from h, Outcome.andThen]

theorem list_state (root : Bytes) (org user : Value) (m : Memory) :
    ((list root org user).run Memory.backend m).state = { m with lookups := m.lookups + 1 } := by
  obtain ⟨r, log, hrun, hok⟩ := OrgKey.exists_run_resolve root org m
  have hresult : ((OrgKey.resolve root org).run Memory.backend m).result = r := by rw [hrun]
  cases r with
  | error e => rw [list_unresolved hresult]
  | ok octets =>
    obtain ⟨-, key, rfl⟩ := hok octets rfl
    rw [run_list hresult]
    cases Memory.select org.toText user.toText true (m.rows.map (·.2)) with
    | error e => rfl
    | ok rows =>
      obtain ⟨secrets, hopen⟩ | ⟨_, -, e, lines, -, hopen⟩ := openRows_cases key (rows.map .map)
      · simp only [hopen]
        rfl
      · simp only [hopen, Program.saying_error_bind, Program.run_saying]

theorem list_lacking
    (hkey : ((OrgKey.resolve root org).run Memory.backend m).result = .ok key.bytes)
    {row : Row} (hrow : row ∈ m.rows.map (·.2))
    (h : Memory.Lacks org.toText user.toText row name) :
    ∃ row ∈ m.rows.map (·.2), ∃ name, Memory.Lacks org.toText user.toText row name ∧
      (list root org user).run Memory.backend m =
        ⟨.error (.missingColumn name), [], { m with lookups := m.lookups + 1 }⟩ := by
  obtain ⟨first, hfirst, missing, hlacks, hselect⟩ := Memory.select_lacking hrow h
  exact ⟨first, hfirst, missing, hlacks, by rw [run_list hkey, hselect]⟩

/-- Listing gives what reading gives for the listed rows, or fails as reading the first of them
fails that cannot be read. -/
theorem list_reads (hkey : ((OrgKey.resolve root org).run Memory.backend m).result = .ok key.bytes)
    (hm : m.rows.names.Nodup)
    (h : ∀ row ∈ m.rows.map (·.2), ∀ name, ¬ Memory.Lacks org.toText user.toText row name) :
    let ids := Assoc.names (m.listed org.toText user.toText)
    (∃ secrets : List Secret, (list root org user).run Memory.backend m =
        ⟨.ok secrets, [.secretsListed secrets.length org.toText user.toText],
          { m with lookups := m.lookups + 1 }⟩ ∧
      ids.map (fun id => (readAt root org m id).result) = secrets.map .ok) ∨
    ∃ before id after e, ids = before ++ id :: after ∧
      (∀ earlier ∈ before, ∃ s, (readAt root org m earlier).result = .ok s) ∧
      (readAt root org m id).result = .error e ∧
      (list root org user).run Memory.backend m =
        ⟨.error e, (readAt root org m id).log, { m with lookups := m.lookups + 1 }⟩ := by
  intro ids
  have hselect : Memory.select org.toText user.toText true (m.rows.map (·.2)) =
      .ok ((m.listed org.toText user.toText).map (·.2)) := by
    rw [Memory.select_eq_filter h, Memory.listed, List.filter_map]
    rfl
  have hlisted : ∀ entry ∈ m.listed org.toText user.toText,
      m.rows.get? entry.1 = some entry.2 ∧
        Holds entry.2 "orgId" fun owner => owner.toText = org.toText := by
    intro entry he
    obtain ⟨hstored, hl⟩ := List.mem_filter.mp he
    exact ⟨Assoc.get?_of_mem hm hstored, Memory.holds_owner hl⟩
  simp only [run_list hkey, hselect, List.map_map]
  obtain ⟨secrets, hopen, heach⟩ | ⟨before, id, after, e, hids, hb, hid, hopen⟩ :=
    openRows_reads (m.listed org.toText user.toText) hkey hlisted
  · exact .inl ⟨secrets, by rw [Function.comp_def, hopen]; rfl, heach⟩
  · refine .inr ⟨before, id, after, e, hids, hb, hid, ?_⟩
    rw [Function.comp_def, hopen, Program.saying_error_bind, Program.run_saying]

/-- On a store whose rows lie under different ids, whatever is in them. Listing looks the key up
once, and fails as resolving does if the organization has none. With a key that resolves, and if
every row has the columns that tell whether it is listed, listing gives secrets exactly if they are
what reading gives for the listed rows, in order; and if it fails, reading some listed row fails in
the same way, with the same lines, and reading any row before that succeeds. A row that lacks such
a column is the only other failure. -/
theorem listing_agrees_with_reading (root : Bytes) (org user : Value) (m : Memory)
    (hm : m.rows.names.Nodup) :
    let resolved := (OrgKey.resolve root org).run Memory.backend m
    let o := (list root org user).run Memory.backend m
    let rows := m.listed org.toText user.toText
    let read (id : Text) := (get root (.text id) org).run Memory.backend m
    o.state = { m with lookups := m.lookups + 1 } ∧
    (∀ e, resolved.result = .error e → o.result = .error e ∧ o.log = resolved.log) ∧
    ∀ octets, resolved.result = .ok octets →
      ((∀ row ∈ m.rows.map (·.2), ∀ name, ¬ Memory.Lacks org.toText user.toText row name) →
        (∀ secrets, o.result = .ok secrets ↔
          rows.names.map (fun id => (read id).result) = secrets.map .ok) ∧
        ∀ e, o.result = .error e → ∃ before id after, rows.names = before ++ id :: after ∧
          (∀ earlier ∈ before, ∃ s, (read earlier).result = .ok s) ∧
          (read id).result = .error e ∧ o.log = (read id).log) ∧
      ∀ row ∈ m.rows.map (·.2), ∀ name, Memory.Lacks org.toText user.toText row name →
        ∃ row ∈ m.rows.map (·.2), ∃ name, Memory.Lacks org.toText user.toText row name ∧
          o.result = .error (.missingColumn name) := by
  intro resolved o rows read
  refine ⟨list_state root org user m, fun e h => ?_, fun octets h => ?_⟩
  · rw [show o = _ from list_unresolved h user]
    exact ⟨rfl, rfl⟩
  have hkey : ∃ key : Key, resolved.result = .ok key.bytes := by
    obtain ⟨r, log, hrun, hok⟩ := OrgKey.exists_run_resolve root org m
    obtain ⟨-, key, rfl⟩ := hok octets ((congrArg (·.result) hrun).symm.trans h)
    exact ⟨key, h⟩
  obtain ⟨key, hkey⟩ := hkey
  refine ⟨fun h => ?_, fun row hrow name h => ?_⟩
  · obtain ⟨found, ho, heach⟩ | ⟨before, id, after, e, hids, hb, hid, ho⟩ := list_reads hkey hm h
    · have heach : rows.names.map (fun id => (read id).result) = found.map .ok := heach
      rw [show o = _ from ho]
      refine ⟨fun secrets => ?_, nofun⟩
      rw [heach, Except.ok.injEq]
      refine ⟨congrArg _, fun h => ?_⟩
      exact (List.map_inj_right fun _ _ => Except.ok.inj).mp h
    · rw [show o = _ from ho]
      refine ⟨fun secrets => ⟨nofun, fun heach => ?_⟩, ?_⟩
      · -- the row that cannot be read would have a secret
        have hread : (read id).result ∈ secrets.map Except.ok := by
          rw [← heach, show Assoc.names rows = _ from hids]
          exact List.mem_map.mpr ⟨id, by simp, rfl⟩
        obtain ⟨s, -, hs⟩ := List.mem_map.mp hread
        cases hs.trans hid
      · rintro _ ⟨⟩
        exact ⟨before, id, after, hids, hb, hid, rfl⟩
  · obtain ⟨first, hfirst, missing, hl, ho⟩ := list_lacking hkey hrow h
    exact ⟨first, hfirst, missing, hl, congrArg (·.result) ho⟩

end Vault

namespace Cabinet

def damaged (record : OrgKeyRecord) : Memory :=
  { store record aes256Gcm with
    rows :=
      [("s1", (row aes256Gcm).put "dataCiphertext" (.text "AA==")),
        ("s2", (row "aes-128-cbc").putAll
          [("id", .text "s2"), ("titleTag", .text ""), ("dataCiphertext", .text "")])] }

end Cabinet

/-- The hypotheses hold of two damaged rows, and the failure is that of the first. -/
theorem first_damaged_row_ends_listing : ∃ record, OrgKey.Wraps Cabinet.key Cabinet.key record ∧
    let m := Cabinet.damaged record
    let o := (Vault.list Cabinet.key.bytes (.text "o1") (.text "u1")).run Memory.backend m
    Assoc.names (m.listed "o1" "u1") = (["s1", "s2"] : List Text) ∧ o.log = [] ∧
      o.result = .error (.vault
        { cause := .incompleteField, secretId := .text "s1", field := .text "data" }) := by
  obtain ⟨record, hrecord⟩ := OrgKey.exists_wraps Cabinet.key Cabinet.key
  refine ⟨record, hrecord, ?_⟩
  intro m o
  have hids : Assoc.names (m.listed "o1" "u1") = (["s1", "s2"] : List Text) := rfl
  obtain ⟨-, -, hlisting⟩ := Vault.listing_agrees_with_reading Cabinet.key.bytes (.text "o1")
    (.text "u1") m (show (["s1", "s2"] : List Text).Nodup by decide)
  have hwhole : ∀ row ∈ m.rows.map (·.2), ∀ name, ¬ Memory.Lacks "o1" "u1" row name := by
    simp only [m, Cabinet.damaged, List.map_cons, List.map_nil, List.forall_mem_cons]
    exact ⟨fun _ => Memory.not_lacks rfl rfl rfl, fun _ => Memory.not_lacks rfl rfl rfl, nofun⟩
  obtain ⟨hok, herror⟩ := (hlisting _ (Cabinet.resolves hrecord rfl)).1 hwhole
  have hfirst : ((Vault.get Cabinet.key.bytes (.text "s1") (.text "o1")).run Memory.backend m) =
      ⟨.error (.vault
        { cause := .incompleteField, secretId := .text "s1", field := .text "data" }), [], m⟩ := rfl
  have hresult := congrArg (·.result) hfirst
  cases ho : o.result with
  | ok secrets =>
    have heach := (hok secrets).mp ho
    simp only [Value.toText, hids] at heach
    cases secrets with
    | nil => cases heach
    | cons s rest => cases hresult.symm.trans (List.cons.inj heach).1
  | error e =>
    obtain ⟨before, id, after, hsplit, hb, hid, hlog⟩ := herror e ho
    simp only [Value.toText, hids] at hsplit
    cases before with
    | nil =>
      obtain ⟨rfl, -⟩ := List.cons.inj hsplit
      cases hid.symm.trans hresult
      exact ⟨hids, hlog.trans (congrArg (·.log) hfirst), rfl⟩
    | cons earlier before =>
      obtain ⟨rfl, -⟩ := List.cons.inj hsplit
      obtain ⟨s, hs⟩ := hb _ List.mem_cons_self
      cases hresult.symm.trans hs

end EnvelopeVault
