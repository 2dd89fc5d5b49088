import EnvelopeVault.Json.Token

/-!
# Reading JSON documents

A machine takes one token after another. Its state says what may come next, and
holds the containers that are open, the innermost first. Containers nest up to
a fixed depth.
-/

namespace EnvelopeVault.Json

/-- An open container with a place for a value; what it holds already is in reverse. -/
inductive Frame where
  | item (reversed : List Json)
  | member (reversed : List (Text × Json)) (name : Text)

inductive State where
  | value (stack : List Frame)
  /-- After the start of an array: a value or its end. -/
  | firstItem (stack : List Frame)
  /-- After an item: a comma or the end of the array. -/
  | afterItem (reversed : List Json) (stack : List Frame)
  /-- After the start of an object: a name or its end. -/
  | firstName (stack : List Frame)
  | nextName (reversed : List (Text × Json)) (stack : List Frame)
  | colon (reversed : List (Text × Json)) (name : Text) (stack : List Frame)
  /-- After a member: a comma or the end of the object. -/
  | afterMember (reversed : List (Text × Json)) (stack : List Frame)
  | finished (j : Json)

namespace State

def maxDepth : Nat := 1024

def deliver (j : Json) : List Frame → State
  | [] => .finished j
  | .item reversed :: stack => .afterItem (j :: reversed) stack
  | .member reversed name :: stack => .afterMember ((name, j) :: reversed) stack

def beginValue (stack : List Frame) : Token → Option State
  | .scalar s => some (deliver (.scalar s) stack)
  | .openArray => if stack.length < maxDepth then some (.firstItem stack) else none
  | .openObject => if stack.length < maxDepth then some (.firstName stack) else none
  | _ => none

def step : State → Token → Option State
  | .value stack, token => beginValue stack token
  | .firstItem stack, .closeArray => some (deliver (.array []) stack)
  | .firstItem stack, token => beginValue (.item [] :: stack) token
  | .afterItem reversed stack, .comma => some (.value (.item reversed :: stack))
  | .afterItem reversed stack, .closeArray => some (deliver (.array reversed.reverse) stack)
  | .firstName stack, .closeObject => some (deliver (.object []) stack)
  | .firstName stack, .scalar (.text t) => some (.colon [] t stack)
  | .nextName reversed stack, .scalar (.text t) => some (.colon reversed t stack)
  | .colon reversed t stack, .colon => some (.value (.member reversed t :: stack))
  | .afterMember reversed stack, .comma => some (.nextName reversed stack)
  | .afterMember reversed stack, .closeObject => some (deliver (.object reversed.reverse) stack)
  | _, _ => none

def run : State → List Token → Option State
  | s, [] => some s
  | s, token :: rest =>
    match s.step token with
    | some s => run s rest
    | none => none

end State

def ofTokens? (tokens : List Token) : Option Json :=
  match (State.value []).run tokens with
  | some (.finished j) => some j
  | _ => none

def parse (t : Text) : Option Json := (lex t).bind ofTokens?

/-- Whether a whole number lies within the floating-point range. Other numbers always do. -/
def isBounded : Token → Bool
  | .scalar (.int n) => (Binary64.ofInt? n).isSome
  | _ => true

/-- A document is text without surrogates, and its numbers are bounded. -/
def read (t : Text) : Option Json :=
  if t.any CodePoint.isSurrogate then none
  else (parse t).filter fun j => j.tokens.all isBounded

end EnvelopeVault.Json
