import EnvelopeVault.Binary64

/-!
# JSON values

Objects keep their members as they were written, repeated names included, so a
value determines its tokens. Numbers are whole, or floating-point numbers where
they are written with a fraction or an exponent.
-/

namespace EnvelopeVault

inductive Scalar where
  | null
  | bool (b : Bool)
  | int (n : Int)
  | float (x : Binary64)
  | text (t : Text)
deriving DecidableEq, Repr

inductive Json where
  | scalar (s : Scalar)
  | array (items : List Json)
  | object (members : List (Text × Json))

inductive Token where
  | openArray
  | closeArray
  | openObject
  | closeObject
  | comma
  | colon
  | scalar (s : Scalar)
deriving DecidableEq, Repr

namespace Json

mutual
def tokens : Json → List Token
  | .scalar s => [.scalar s]
  | .array items => .openArray :: (itemTokens items ++ [.closeArray])
  | .object members => .openObject :: (memberTokens members ++ [.closeObject])

def itemTokens : List Json → List Token
  | [] => []
  | [j] => j.tokens
  | j :: rest => j.tokens ++ .comma :: itemTokens rest

def memberTokens : List (Text × Json) → List Token
  | [] => []
  | [(name, j)] => .scalar (.text name) :: .colon :: j.tokens
  | (name, j) :: rest =>
    .scalar (.text name) :: .colon :: (j.tokens ++ .comma :: memberTokens rest)
end

end Json
end EnvelopeVault
