import EnvelopeVault.Cipher.Gcm
import EnvelopeVault.Failure
import EnvelopeVault.Secret
import EnvelopeVault.Text.Base64

/-!
# The field cipher

One text is encrypted at a time, under a nonce of its own, and its three parts
are written in base64. Decryption takes only what encryption writes: each part
in its one spelling, the nonce and the tag in their lengths, a tag that
verifies, octets that are UTF-8.
-/

namespace EnvelopeVault.FieldCipher

def ofSealed (nonce : Nonce) (s : Sealed) : Field :=
  ⟨Base64.encode s.ciphertext, Base64.encode nonce.bytes, Base64.encode s.tag⟩

def encryptWith (key : Key) (nonce : Nonce) (plaintext : Text) : Except Failure Field :=
  match Utf8.encode plaintext with
  | .error run => .error (.unencodable run)
  | .ok message => .ok (ofSealed nonce (Gcm.encrypt key nonce message))

/-- The octets of a part; what is no text is as malformed as a wrong one. -/
def decodePart (part : Part) : Value → Except Failure Bytes
  | .text t =>
    match Base64.decode t with
    | some b => .ok b
    | none => .error (.ofCause (.malformedPart part))
  | _ => .error (.ofCause (.malformedPart part))

/-- The text in three parts. The lengths are checked first, then the tag. -/
def openParts (key : Key) (parts : Triple Bytes) : Except Failure Text :=
  match Nonce.ofBytes? parts.iv with
  | none => .error (.ofCause (.partLength .iv nonceSize parts.iv.length))
  | some nonce =>
    if parts.tag.length ≠ tagSize then
      .error (.ofCause (.partLength .tag tagSize parts.tag.length))
    else
      match Gcm.decrypt key nonce ⟨parts.ciphertext, parts.tag⟩ with
      | none => .error (.ofCause .tagMismatch)
      | some message =>
        match Utf8.decode message with
        | .error _ => .error (.ofCause .notUtf8)
        | .ok plaintext => .ok plaintext

def decryptWith (key : Key) (parts : Triple Value) : Except Failure Text := do
  let ciphertext ← decodePart .ciphertext parts.ciphertext
  let iv ← decodePart .iv parts.iv
  let tag ← decodePart .tag parts.tag
  openParts key ⟨ciphertext, iv, tag⟩

/-- The key is checked before anything else. -/
def decrypt (key : Bytes) (parts : Triple Value) : Except Failure Text :=
  match Key.ofBytes? key with
  | none => .error .fieldKeySize
  | some key => decryptWith key parts

/-! ## Documents that nobody checked -/

def decodePartOf (doc : Assoc Value) (part : Part) : Except Failure Bytes :=
  match doc.get? part.name with
  | some v => decodePart part v
  | none => .error (.lacking Field.modelName part.name)

/-- A part that is missing is noticed when its turn comes. -/
def decryptDocument (key : Bytes) (doc : Assoc Value) : Except Failure Text :=
  match Key.ofBytes? key with
  | none => .error .fieldKeySize
  | some key => do
    let ciphertext ← decodePartOf doc .ciphertext
    let iv ← decodePartOf doc .iv
    let tag ← decodePartOf doc .tag
    openParts key ⟨ciphertext, iv, tag⟩

/-! ## Keys as text -/

/-- Every label but one stands for UTF-8. -/
def encodingOf (label : Value) : KeyEncoding :=
  match label with
  | .text t => if t = KeyEncoding.base64.label then .base64 else .utf8
  | _ => .utf8

def encodeKey (key : Bytes) : KeyEncoding → Except Failure Text
  | .base64 => .ok (Base64.encode key)
  | .utf8 =>
    match Utf8.decode key with
    | .ok t => .ok t
    | .error octets => .error (.undecodable octets)

def encodeKeyValue (v : Value) (encoding : KeyEncoding) : Except Failure Text :=
  match v, encoding with
  | .bytes key, encoding => encodeKey key encoding
  | v, .base64 => .error (.notOctets v)
  | v, .utf8 => .error (.notDecodable v)

def decodeKey (t : Text) : KeyEncoding → Except Failure Bytes
  | .base64 =>
    match Base64.decode t with
    | some b => .ok b
    | none => .error (.ofCause .malformedKeyText)
  | .utf8 =>
    match Utf8.encode t with
    | .ok b => .ok b
    | .error run => .error (.unencodable run)

/-- What is no text is malformed as base64 and cannot be encoded as UTF-8. -/
def decodeKeyValue (v : Value) (encoding : KeyEncoding) : Except Failure Bytes :=
  match v, encoding with
  | .text t, encoding => decodeKey t encoding
  | _, .base64 => .error (.ofCause .malformedKeyText)
  | v, .utf8 => .error (.notEncodable v)

end EnvelopeVault.FieldCipher
