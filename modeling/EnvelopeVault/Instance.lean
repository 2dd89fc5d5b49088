import EnvelopeVault.Schema

/-!
# Instances

A document of a schema whose fields can be assigned without further checks,
unless the kind is frozen. Names that begin with an underscore are private: no
field has one, and they are assigned on frozen instances too. A few of them
stand for parts that every instance has; the others are kept among the members.
A member hides what the kind has under its name, so that an instance can be
left without what assigns its fields or writes them out.
-/

namespace EnvelopeVault

/-- `given` is what was put in the place of the record of assigned names; a record that was
not replaced takes every name. -/
structure Instance where
  schema : Schema
  declared : List Text
  members : Assoc Value
  given : Option Value := none

inductive AttributeRole where
  | kind
  | members
  | references
  | given
  /-- Computed, under a private or a public name. -/
  | privateView
  | view
  | aside
  | field
deriving DecidableEq, Repr

namespace AttributeRole

def isPrivate (name : Text) : Bool := name.head? == some 0x5F

def ofName (name : Text) : AttributeRole :=
  if name = "__class__" then .kind
  else if name = "__dict__" then .members
  else if name = "__weakref__" then .references
  else if name = "__fields__" ∨ name = "__fields_set__" then .privateView
  else if name = "__pydantic_fields_set__" then .given
  else if isPrivate name then .aside
  else if name = "model_fields_set" ∨ name = "model_extra" then .view
  else .field

end AttributeRole

namespace Instance

def read (schema : Schema) (v : Value) : Except Failure Instance := do
  let document ← schema.instantiate v
  return { schema, declared := document.names, members := document }

def callFault? (i : Instance) (name : Text) : Option Failure :=
  (i.members.get? name).map .notCallable

def writerFault? (i : Instance) : Option Failure :=
  (i.members.get? "__pydantic_serializer__").map fun v => .lacking (Failure.shape v) "to_python"

def document (i : Instance) : Except Failure (Assoc Value) :=
  match i.callFault? "model_dump" <|> i.writerFault? with
  | some e => .error e
  | none => .ok (i.members.filter fun (name, _) => i.declared.contains name)

def provided (i : Instance) : Except Failure (Assoc Value) :=
  match i.callFault? "provided_fields" with
  | some e => .error e
  | none => (i.document).map fun document => document.filter fun (_, v) => !v.isNull

def noSetter (i : Instance) (name : Text) : Failure := .noSetter i.schema.name name

/-- A field is put before the record of assigned names is looked at. -/
def assignField (i : Instance) (name : Text) (v : Value) : Except Failure Instance :=
  if i.declared.contains name then
    match i.given with
    | none => .ok { i with members := i.members.put name v }
    | some given => .error (.lacking (Failure.shape given) "add")
  else .error (.noSuchAttribute i.schema.name name)

/-- An assignment to a public name is refused by frozen kinds. -/
def unlessFrozen (i : Instance) (name : Text) (assigned : Except Failure Instance) :
    Except Failure Instance :=
  if i.schema.isFrozen then .error (.invalid i.schema.name [⟨.frozen, [name]⟩]) else assigned

def assignMembers (i : Instance) : Value → Except Failure Instance
  | .map members => .ok { i with members }
  | v => .error (.notADictionary v)

def assignName (i : Instance) (name : Text) (v : Value) : Except Failure Instance :=
  match AttributeRole.ofName name with
  | .kind => .error (.notAClass v)
  | .members => i.assignMembers v
  | .references => .error (.notWritable i.schema.name name)
  | .given => .ok { i with given := some v }
  | .privateView => .error (i.noSetter name)
  | .view => i.unlessFrozen name (.error (i.noSetter name))
  | .aside => .ok { i with members := i.members.put name v }
  | .field => i.unlessFrozen name (i.assignField name v)

/-- The complaint about a member that hides the assigners of the names. Of names for which
it holds nothing the kind's own assigners take care. -/
def assignerFault? (i : Instance) (name : Text) : Option Failure :=
  match i.members.get? "__pydantic_setattr_handlers__" with
  | none => none
  | some (.map assigners) =>
    match Assoc.get? assigners name with
    | none => none
    | some .null => none
    | some assigner => some (.notCallable assigner)
  | some other => some (.lacking (Failure.shape other) "get")

def assign (i : Instance) (name v : Value) : Except Failure Instance :=
  match name with
  | .text name =>
    match i.assignerFault? name with
    | some e => .error e
    | none => i.assignName name v
  | other => .error (.notAName other)

def assignAll (i : Instance) : List (Value × Value) → Except Failure Instance
  | [] => .ok i
  | (name, v) :: rest => do (← i.assign name v).assignAll rest

end Instance
end EnvelopeVault
