import EnvelopeVault.Assoc

/-!
# Laws of ordered association lists

What is found under a name after each way of building a list, and which ways
may change places. Lists may hold a name twice unless a law asks that they do
not; the first one counts.
-/

namespace EnvelopeVault.Assoc

variable {α : Type} {m pairs : Assoc α} {name other : Text} {value : α}

-- ---------------------------------------------------------------------------
-- Names and members
-- ---------------------------------------------------------------------------

@[simp] theorem names_nil : names ([] : Assoc α) = [] := rfl

@[simp] theorem names_cons (pair : Text × α) (m : Assoc α) :
    names (pair :: m) = pair.1 :: names m := rfl

theorem get?_eq_none_iff : m.get? name = none ↔ name ∉ m.names := by
  induction m with
  | nil => simp [get?]
  | cons pair rest ih =>
    obtain ⟨n, v⟩ := pair
    by_cases hn : n = name
    · simp [get?, hn]
    · simp [get?, hn, Ne.symm hn, ih]

theorem mem_names_of_get? (h : m.get? name = some value) : name ∈ m.names := by
  by_cases hm : name ∈ m.names
  · exact hm
  · rw [get?_eq_none_iff.mpr hm] at h
    cases h

theorem mem_of_get? (h : m.get? name = some value) : (name, value) ∈ m := by
  induction m with
  | nil => cases h
  | cons pair rest ih =>
    obtain ⟨n, v⟩ := pair
    by_cases hn : n = name
    · simp_all [get?]
    · rw [get?, if_neg hn] at h
      exact List.mem_cons_of_mem _ (ih h)

theorem get?_of_mem (h : m.names.Nodup) (hm : (name, value) ∈ m) : m.get? name = some value := by
  induction m with
  | nil => cases hm
  | cons pair rest ih =>
    obtain ⟨n, v⟩ := pair
    obtain ⟨hn, hr⟩ := List.nodup_cons.mp h
    obtain he | hm := List.mem_cons.mp hm
    · cases he
      rw [get?, if_pos rfl]
    · have hne : n ≠ name := by
        rintro rfl
        exact hn (List.mem_map.mpr ⟨_, hm, rfl⟩)
      rw [get?, if_neg hne, ih hr hm]

-- ---------------------------------------------------------------------------
-- Appending and removing
-- ---------------------------------------------------------------------------

theorem get?_append (m rest : Assoc α) (name : Text) :
    get? (m ++ rest) name = (m.get? name).or (rest.get? name) := by
  induction m with
  | nil => rfl
  | cons pair m ih =>
    obtain ⟨n, v⟩ := pair
    by_cases hn : n = name
    · simp [get?, hn]
    · simp [get?, hn, ih]

theorem get?_erase (m : Assoc α) (name other : Text) :
    (m.erase name).get? other = if name = other then none else m.get? other := by
  induction m with
  | nil => simp [erase, get?]
  | cons pair rest ih =>
    obtain ⟨n, v⟩ := pair
    rw [erase] at ih
    by_cases hn : n = name
    · subst hn
      by_cases ho : n = other <;> simp_all [erase, get?]
    · by_cases ho : n = other
      · subst ho
        simp [erase, get?, hn, Ne.symm hn]
      · simp [erase, get?, hn, ho, ih]

theorem erase_of_not_mem (h : name ∉ m.names) : m.erase name = m := by
  refine List.filter_eq_self.mpr fun pair hp => bne_iff_ne.mpr ?_
  rintro rfl
  exact h (List.mem_map.mpr ⟨pair, hp, rfl⟩)

-- ---------------------------------------------------------------------------
-- Putting
-- ---------------------------------------------------------------------------

theorem put_eq_append (h : name ∉ m.names) : m.put name value = m ++ [(name, value)] := by
  induction m with
  | nil => rfl
  | cons pair rest ih =>
    obtain ⟨n, v⟩ := pair
    rw [names_cons, List.mem_cons, not_or] at h
    rw [put, if_neg (Ne.symm h.1), ih h.2, List.cons_append]

theorem putAll_cons (m : Assoc α) (pair : Text × α) (pairs : Assoc α) :
    m.putAll (pair :: pairs) = (m.put pair.1 pair.2).putAll pairs := rfl

theorem get?_putAll_of_not_mem (h : name ∉ pairs.names) :
    (m.putAll pairs).get? name = m.get? name := by
  induction pairs generalizing m with
  | nil => rfl
  | cons pair rest ih =>
    rw [names_cons, List.mem_cons, not_or] at h
    rw [putAll_cons, ih h.2, get?_put, if_neg (Ne.symm h.1)]

theorem get?_putAll (h : pairs.names.Nodup) :
    (m.putAll pairs).get? name = (pairs.get? name).or (m.get? name) := by
  induction pairs generalizing m with
  | nil => rfl
  | cons pair rest ih =>
    obtain ⟨n, v⟩ := pair
    obtain ⟨hn, hr⟩ := List.nodup_cons.mp h
    rw [putAll_cons, ih hr, get?_put]
    by_cases ho : n = name
    · subst ho
      simp [get?, get?_eq_none_iff.mpr hn]
    · simp [get?, ho]

/-- Of several values under a name the last one is kept. -/
theorem get?_putAll_reverse (m pairs : Assoc α) :
    (m.putAll pairs).get? name = (get? pairs.reverse name).or (m.get? name) := by
  induction pairs generalizing m with
  | nil => rfl
  | cons pair rest ih =>
    rw [putAll_cons, ih, List.reverse_cons, get?_append, get?_put, Option.or_assoc]
    by_cases hn : pair.1 = name <;> simp [get?, hn]

theorem putAll_eq_append (h : (names (m ++ pairs)).Nodup) : m.putAll pairs = m ++ pairs := by
  induction pairs generalizing m with
  | nil => simp [putAll]
  | cons pair rest ih =>
    have hsplit : m ++ pair :: rest = (m ++ [pair]) ++ rest := by simp
    have hn : pair.1 ∉ m.names := by
      intro hm
      rw [names, List.map_append, List.nodup_append] at h
      exact h.2.2 _ hm _ List.mem_cons_self rfl
    rw [putAll_cons, put_eq_append hn, ih (hsplit ▸ h), hsplit]

theorem putAll_append (m first second : Assoc α) :
    m.putAll (first ++ second) = (m.putAll first).putAll second :=
  List.foldl_append

theorem names_put (h : name ∈ m.names) (value : α) : (m.put name value).names = m.names := by
  induction m with
  | nil => cases h
  | cons pair rest ih =>
    obtain ⟨n, v⟩ := pair
    by_cases hn : n = name
    · simp [put, hn]
    · rw [names_cons, List.mem_cons] at h
      rw [put, if_neg hn, names_cons, names_cons, ih (h.resolve_left (Ne.symm hn))]

theorem nodup_put (h : m.names.Nodup) : (m.put name value).names.Nodup := by
  by_cases hn : name ∈ m.names
  · rwa [names_put hn]
  · rw [put_eq_append hn, names, List.map_append]
    exact List.nodup_append.mpr ⟨h, by simp, by
      rintro _ ha _ hb rfl
      simp only [List.map_cons, List.map_nil, List.mem_singleton] at hb
      exact hn (hb ▸ ha)⟩

theorem nodup_putAll (h : m.names.Nodup) (pairs : Assoc α) : (m.putAll pairs).names.Nodup := by
  induction pairs generalizing m with
  | nil => exact h
  | cons pair rest ih => exact ih (nodup_put h)

theorem isSome_get?_putAll (h : (m.get? name).isSome) (pairs : Assoc α) :
    ((m.putAll pairs).get? name).isSome := by
  induction pairs generalizing m with
  | nil => exact h
  | cons pair rest ih =>
    refine ih ?_
    rw [get?_put]
    split
    · rfl
    · exact h

theorem put_get? (h : m.get? name = some value) : m.put name value = m := by
  induction m with
  | nil => cases h
  | cons pair rest ih =>
    obtain ⟨n, v⟩ := pair
    by_cases hn : n = name
    · simp_all [get?, put]
    · rw [get?, if_neg hn] at h
      rw [put, if_neg hn, ih h]

theorem exists_put_split (h : m.get? name = some value) :
    ∃ before after, name ∉ names before ∧ m = before ++ (name, value) :: after ∧
      ∀ new, m.put name new = before ++ (name, new) :: after := by
  induction m with
  | nil => cases h
  | cons pair rest ih =>
    obtain ⟨n, v⟩ := pair
    by_cases hn : n = name
    · subst hn
      rw [get?, if_pos rfl] at h
      cases h
      exact ⟨[], rest, List.not_mem_nil, rfl, fun new => by rw [put, if_pos rfl, List.nil_append]⟩
    · rw [get?, if_neg hn] at h
      obtain ⟨before, after, hb, hm, hput⟩ := ih h
      refine ⟨(n, v) :: before, after, ?_, by rw [hm, List.cons_append], fun new => ?_⟩
      · rw [names_cons, List.mem_cons, not_or]
        exact ⟨Ne.symm hn, hb⟩
      · rw [put, if_neg hn, hput, List.cons_append]

-- ---------------------------------------------------------------------------
-- Putting in either order
-- ---------------------------------------------------------------------------

theorem mem_names_put (h : name ∈ m.names) (other : Text) (value : α) :
    name ∈ (m.put other value).names := by
  by_cases ho : other ∈ m.names
  · rwa [names_put ho]
  · rw [put_eq_append ho, names, List.map_append]
    exact List.mem_append_left _ h

theorem mem_names_putAll (h : name ∈ m.names) (pairs : Assoc α) :
    name ∈ (m.putAll pairs).names := by
  induction pairs generalizing m with
  | nil => exact h
  | cons pair rest ih => exact ih (mem_names_put h ..)

theorem put_put (m : Assoc α) (name : Text) (value value' : α) :
    (m.put name value).put name value' = m.put name value' := by
  induction m with
  | nil => simp [put]
  | cons pair rest ih => by_cases hn : pair.1 = name <;> simp [put, hn, ih]

/-- A name that is there keeps its place, so it can be put before another one or after it. -/
theorem put_comm (h : name ∈ m.names) (hne : name ≠ other) (value value' : α) :
    (m.put name value).put other value' = (m.put other value').put name value := by
  induction m with
  | nil => cases h
  | cons pair rest ih =>
    obtain ⟨n, v⟩ := pair
    by_cases hn : n = name
    · subst hn
      simp [put, hne]
    · have hrest : name ∈ names rest := (List.mem_cons.mp h).resolve_left (Ne.symm hn)
      by_cases ho : n = other
      · subst ho
        simp [put, hn]
      · simp [put, hn, ho, ih hrest]

theorem put_putAll_comm (h : name ∈ m.names) (hn : name ∉ pairs.names) (value : α) :
    (m.put name value).putAll pairs = (m.putAll pairs).put name value := by
  induction pairs generalizing m with
  | nil => rfl
  | cons pair rest ih =>
    rw [names_cons, List.mem_cons, not_or] at hn
    rw [putAll_cons, putAll_cons, put_comm h hn.1, ih (mem_names_put h ..) hn.2]

theorem putAll_comm {others : Assoc α} (h : ∀ name ∈ pairs.names, name ∈ m.names)
    (hn : ∀ name ∈ pairs.names, name ∉ others.names) :
    (m.putAll pairs).putAll others = (m.putAll others).putAll pairs := by
  induction pairs generalizing m with
  | nil => rfl
  | cons pair rest ih =>
    obtain ⟨hpair, hrest⟩ := List.forall_mem_cons.mp h
    obtain ⟨hpair', hrest'⟩ := List.forall_mem_cons.mp hn
    rw [putAll_cons, putAll_cons, ih (fun name hm => mem_names_put (hrest name hm) ..) hrest',
      put_putAll_comm hpair hpair']

def adjust (m : Assoc α) (name : Text) (f : α → α) : Assoc α :=
  match m.get? name with
  | some value => m.put name (f value)
  | none => m

theorem adjust_of_get? (h : m.get? name = some value) (f : α → α) :
    m.adjust name f = m.put name (f value) := by
  rw [adjust, h]

theorem adjust_of_none (h : m.get? name = none) (f : α → α) : m.adjust name f = m := by
  rw [adjust, h]

theorem adjust_eq_self {f : α → α} (h : ∀ value, m.get? name = some value → f value = value) :
    m.adjust name f = m := by
  cases hm : m.get? name with
  | none => exact adjust_of_none hm f
  | some value => rw [adjust_of_get? hm, h value hm, put_get? hm]

theorem get?_adjust (m : Assoc α) (name other : Text) (f : α → α) :
    (m.adjust name f).get? other =
      if name = other then (m.get? other).map f else m.get? other := by
  cases hm : m.get? name with
  | none =>
    rw [adjust_of_none hm]
    split
    · subst other
      rw [hm, Option.map_none]
    · rfl
  | some value =>
    rw [adjust_of_get? hm, get?_put]
    split
    · subst other
      rw [hm, Option.map_some]
    · rfl

/-- Two values are replaced in either order, and so is one value if what becomes of it is the
same in either order. -/
theorem adjust_comm {f g : α → α}
    (h : name = other → ∀ value, m.get? name = some value → g (f value) = f (g value)) :
    (m.adjust name f).adjust other g = (m.adjust other g).adjust name f := by
  by_cases hne : name = other
  · subst hne
    cases hm : m.get? name with
    | none => simp [adjust, hm]
    | some value => simp [adjust, hm, get?_put, put_put, h rfl value hm]
  · cases hm : m.get? name with
    | none =>
      have hm' : (m.adjust other g).get? name = none := by
        rw [get?_adjust, if_neg (Ne.symm hne), hm]
      rw [adjust_of_none hm, adjust_of_none hm']
    | some value =>
      cases ho : m.get? other with
      | none => simp [adjust, hm, ho, get?_put, hne]
      | some value' =>
        simp [adjust, hm, ho, get?_put, hne, Ne.symm hne,
          put_comm (mem_names_of_get? hm) hne]

-- ---------------------------------------------------------------------------
-- Selecting by value
-- ---------------------------------------------------------------------------

section Filter

variable {p : α → Bool}

theorem get?_filter (h : m.names.Nodup) :
    get? (m.filter fun pair => p pair.2) name = (m.get? name).filter p := by
  induction m with
  | nil => rfl
  | cons pair rest ih =>
    obtain ⟨n, v⟩ := pair
    obtain ⟨hn, hr⟩ := List.nodup_cons.mp h
    by_cases he : n = name
    · subst he
      have hrest : get? rest n = none := get?_eq_none_iff.mpr hn
      cases hp : p v <;> simp [get?, Option.filter, hp, ih hr, hrest]
    · cases hp : p v <;> simp [get?, hp, he, ih hr]

theorem filter_put (h : ∀ v, m.get? name = some v → p v = true) (hv : p value = true) :
    (m.put name value).filter (fun pair => p pair.2) =
      put (m.filter fun pair => p pair.2) name value := by
  induction m with
  | nil => simp [put, hv]
  | cons pair rest ih =>
    obtain ⟨n, v⟩ := pair
    by_cases hn : n = name
    · have hp : p v = true := h v (by simp [get?, hn])
      simp [put, hn, hp, hv]
    · rw [get?, if_neg hn] at h
      cases hp : p v <;> simp [put, hn, hp, ih h]

theorem filter_put_of_not (h : ∀ v, m.get? name = some v → p v = false) (hv : p value = false) :
    (m.put name value).filter (fun pair => p pair.2) = m.filter fun pair => p pair.2 := by
  induction m with
  | nil => simp [put, hv]
  | cons pair rest ih =>
    obtain ⟨n, v⟩ := pair
    by_cases hn : n = name
    · have hp : p v = false := h v (by simp [get?, hn])
      simp [put, hn, hp, hv]
    · rw [get?, if_neg hn] at h
      cases hp : p v <;> simp [put, hn, hp, ih h]

end Filter

-- ---------------------------------------------------------------------------
-- Values that are present
-- ---------------------------------------------------------------------------

def present (m : Assoc (Option α)) : Assoc α :=
  m.filterMap fun pair => pair.2.map fun value => (pair.1, value)

theorem names_present (m : Assoc (Option α)) : (present m).names.Sublist m.names := by
  induction m with
  | nil => exact .slnil
  | cons pair rest ih =>
    obtain ⟨name, value?⟩ := pair
    cases value? with
    | none => exact .cons _ ih
    | some value => exact ih.cons_cons _

theorem get?_present {m : Assoc (Option α)} (h : m.names.Nodup) :
    (present m).get? name = (m.get? name).join := by
  induction m with
  | nil => rfl
  | cons pair rest ih =>
    obtain ⟨other, value?⟩ := pair
    obtain ⟨hn, hr⟩ := List.nodup_cons.mp h
    have ih := ih hr
    rw [present] at ih ⊢
    by_cases he : other = name
    · have hrest : get? rest name = none := get?_eq_none_iff.mpr (he ▸ hn)
      cases value? <;> simp [get?, he, ih, hrest]
    · cases value? <;> simp [get?, he, ih]

-- ---------------------------------------------------------------------------
-- Related lists
-- ---------------------------------------------------------------------------

/-- The same names in the same order, with related values. -/
inductive Rel {α β : Type} (R : Text → α → β → Prop) : Assoc α → Assoc β → Prop
  | nil : Rel R [] []
  | cons {n : Text} {a : α} {b : β} {left : Assoc α} {right : Assoc β} (head : R n a b)
      (tail : Rel R left right) : Rel R ((n, a) :: left) ((n, b) :: right)

namespace Rel

variable {β : Type} {R : Text → α → β → Prop} {n : Assoc β}

theorem names_eq (h : Rel R m n) : m.names = n.names := by
  induction h with
  | nil => rfl
  | cons _ _ ih => rw [names_cons, names_cons, ih]

theorem get? (h : Rel R m n) (name : Text) : (m.get? name).Rel (R name) (n.get? name) := by
  induction h with
  | nil => exact .none
  | @cons other a b m n head _ ih =>
    by_cases hn : other = name
    · subst hn
      simpa [Assoc.get?] using Option.Rel.some head
    · simpa [Assoc.get?, hn] using ih

theorem put (h : Rel R m n) {b : β} (hb : R name value b) :
    Rel R (m.put name value) (n.put name b) := by
  induction h with
  | nil => exact .cons hb .nil
  | @cons other a b' m n head tail ih =>
    by_cases hn : other = name
    · simpa [Assoc.put, hn] using Rel.cons hb tail
    · simpa [Assoc.put, hn] using Rel.cons head ih

theorem erase (h : Rel R m n) (name : Text) : Rel R (m.erase name) (n.erase name) := by
  induction h with
  | nil => exact .nil
  | @cons other a b m n head tail ih =>
    by_cases hn : other = name
    · simpa [Assoc.erase, hn] using ih
    · simpa [Assoc.erase, hn] using Rel.cons head ih

theorem mono {S : Text → α → β → Prop} (h : Rel R m n) (hRS : ∀ name a b, R name a b → S name a b) :
    Rel S m n := by
  induction h with
  | nil => exact .nil
  | cons head _ ih => exact .cons (hRS _ _ _ head) ih

theorem refl {R : Text → α → α → Prop} (hR : ∀ name a, R name a a) (m : Assoc α) : Rel R m m := by
  induction m with
  | nil => exact .nil
  | cons pair m ih => exact .cons (hR pair.1 pair.2) ih

theorem append {m' : Assoc α} {n' : Assoc β} (h : Rel R m n) (h' : Rel R m' n') :
    Rel R (m ++ m') (n ++ n') := by
  induction h with
  | nil => exact h'
  | cons head _ ih => exact .cons head ih

theorem putAll {pairs : Assoc α} {pairs' : Assoc β} (h : Rel R m n) (hp : Rel R pairs pairs') :
    Rel R (m.putAll pairs) (n.putAll pairs') := by
  induction hp generalizing m n with
  | nil => exact h
  | cons head _ ih => exact ih (h.put head)

end Rel

-- ---------------------------------------------------------------------------
-- Lists that differ under some names
-- ---------------------------------------------------------------------------

/-- The same names in the same order, and the same values but for those under written names. -/
def SameBut (written : Text → Prop) (m n : Assoc α) : Prop :=
  Rel (fun name old new => written name ∨ new = old) m n

namespace SameBut

variable {written : Text → Prop} {n : Assoc α}

theorem refl (m : Assoc α) : SameBut written m m := Rel.refl (fun _ _ => .inr rfl) m

theorem put (h : SameBut written m n) (hw : written name) (hm : name ∈ m.names) (value : α) :
    SameBut written m (n.put name value) := by
  induction h with
  | nil => cases hm
  | @cons other old new m n head tail ih =>
    by_cases hn : other = name
    · simpa [SameBut, Assoc.put, hn] using Rel.cons (.inl hw) tail
    · have hm : name ∈ m.names := (List.mem_cons.mp hm).resolve_left (Ne.symm hn)
      simpa [SameBut, Assoc.put, hn] using Rel.cons head (ih hm)

theorem putAll (h : SameBut written m n)
    (hp : ∀ name ∈ pairs.names, written name ∧ name ∈ m.names) :
    SameBut written m (n.putAll pairs) := by
  induction pairs generalizing n with
  | nil => exact h
  | cons pair rest ih =>
    obtain ⟨hw, hm⟩ := hp pair.1 List.mem_cons_self
    exact ih (h.put hw hm pair.2) fun name hname => hp name (List.mem_cons_of_mem _ hname)

end SameBut
end EnvelopeVault.Assoc
