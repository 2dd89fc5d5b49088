import EnvelopeVault.Json.Value
import EnvelopeVault.Label

/-!
# Payloads

The data of a secret whose kind is known: a small JSON document. Packing writes
its fields under their outer names in a fixed order; unpacking accepts any
document that has them, each a text within its limit.
-/

namespace EnvelopeVault

inductive Payload where
  | webLogin (username password : Text)
  | creditCard (cardNumber expiryDate cvv : Text)
  | secureNote (note : Text)
deriving DecidableEq, Repr

namespace Payload

def kind : Payload → SecretKind
  | .webLogin .. => .webLogin
  | .creditCard .. => .creditCard
  | .secureNote _ => .secureNote

def modelName : SecretKind → Text
  | .webLogin => "WebLoginPayload"
  | .creditCard => "CreditCardPayload"
  | .secureNote => "SecureNotePayload"

def outerName (name : Text) : Text :=
  if name = "card_number" then "cardNumber"
  else if name = "expiry_date" then "expiryDate"
  else name

/-- A field under its outer name, or under its own if the outer one does not occur. -/
def requiredField (name : Text) (read : Value → Checked Text) (doc : Assoc Value) :
    Checked Text :=
  if doc.has (outerName name) || !doc.has name then Checked.required (outerName name) read doc
  else Checked.required name read doc

def read (kind : SecretKind) : Value → Checked Payload :=
  Checked.document (modelName kind) fun doc =>
    match kind with
    | .webLogin =>
      .webLogin <$> requiredField "username" (Checked.textUpTo 255) doc
        <*> requiredField "password" (Checked.textUpTo 255) doc
    | .creditCard =>
      .creditCard <$> requiredField "card_number" (Checked.textUpTo 16) doc
        <*> requiredField "expiry_date" Checked.text doc
        <*> requiredField "cvv" (Checked.textUpTo 4) doc
    | .secureNote => .secureNote <$> requiredField "note" (Checked.textUpTo 10000) doc

def fields : Payload → List (Text × Text)
  | .webLogin username password => [("username", username), ("password", password)]
  | .creditCard cardNumber expiryDate cvv =>
    [("card_number", cardNumber), ("expiry_date", expiryDate), ("cvv", cvv)]
  | .secureNote note => [("note", note)]

def document (p : Payload) : Assoc Value := p.fields.map fun (name, text) => (name, .text text)

def packDocument (doc : Assoc Value) : Except Failure Text :=
  Json.printValue (.map (doc.map fun (name, v) => (outerName name, v)))

def pack (p : Payload) : Except Failure Text := packDocument p.document

def kindOf (label : Value) : Except Failure SecretKind :=
  match label with
  | .text t =>
    match SecretKind.table.get? t with
    | some kind => .ok kind
    | none => .error (.unknownSecretType label)
  | _ => .error (.unknownSecretType label)

def parse : Value → Option Json
  | .text t => Json.read t
  | .bytes b =>
    match Utf8.decode b with
    | .ok t => Json.read t
    | .error _ => none
  | _ => none

def unpack (label data : Value) : Except Failure Payload := do
  let kind ← kindOf label
  match parse data with
  | none => .error .notAPayload
  | some j => Failure.ofChecked (modelName kind) (read kind j.toValue)

end Payload
end EnvelopeVault
