import EnvelopeVault.Assoc

/-!
# Labels

The fixed words that records and callers use for algorithms, for the encoding
of keys and for kinds of secrets.
-/

namespace EnvelopeVault

def aes256Gcm : Text := "aes-256-gcm"

/-- How the octets of a key become text before the text is encrypted. -/
inductive KeyEncoding where
  | utf8
  | base64
deriving DecidableEq, Repr

namespace KeyEncoding

def label : KeyEncoding → Text
  | .utf8 => "utf8"
  | .base64 => "base64"

def table : Assoc KeyEncoding := [("utf8", .utf8), ("base64", .base64)]

end KeyEncoding

inductive SecretKind where
  | webLogin
  | creditCard
  | secureNote
deriving DecidableEq, Repr

namespace SecretKind

def label : SecretKind → Text
  | .webLogin => "weblogin"
  | .creditCard => "creditcard"
  | .secureNote => "securenote"

def table : Assoc SecretKind :=
  [("weblogin", .webLogin), ("creditcard", .creditCard), ("securenote", .secureNote)]

end SecretKind
end EnvelopeVault
