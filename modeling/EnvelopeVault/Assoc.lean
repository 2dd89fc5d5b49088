import EnvelopeVault.Text

/-!
# Ordered association lists

Names with values, in the order in which the names first came. Putting a value
under a name that is there replaces it in its place.
-/

namespace EnvelopeVault

abbrev Assoc (α : Type) := List (Text × α)

namespace Assoc

variable {α : Type}

def get? : Assoc α → Text → Option α
  | [], _ => none
  | (n, v) :: rest, name => if n = name then some v else get? rest name

def has (m : Assoc α) (name : Text) : Bool := (m.get? name).isSome

def put : Assoc α → Text → α → Assoc α
  | [], name, value => [(name, value)]
  | (n, v) :: rest, name, value =>
    if n = name then (name, value) :: rest else (n, v) :: put rest name value

def erase (m : Assoc α) (name : Text) : Assoc α := m.filter (·.1 != name)

def putAll (m : Assoc α) (pairs : Assoc α) : Assoc α :=
  pairs.foldl (fun m pair => m.put pair.1 pair.2) m

def names (m : Assoc α) : List Text := m.map (·.1)

theorem get?_put (m : Assoc α) (name other : Text) (value : α) :
    (m.put name value).get? other = if name = other then some value else m.get? other := by
  induction m with
  | nil => rfl
  | cons pair rest ih =>
    obtain ⟨n, v⟩ := pair
    by_cases hn : n = name
    · subst hn
      by_cases ho : n = other <;> simp [put, get?, ho]
    · by_cases ho : n = other
      · subst ho
        simp [put, get?, hn, Ne.symm hn]
      · simp [put, get?, hn, ho, ih]

end Assoc
end EnvelopeVault
