import EnvelopeVault.Checked
import EnvelopeVault.Field
import EnvelopeVault.Text.Base64

/-!
# Failures

A failure is its cause; the wording is a function of the cause. The vault's own
failures also say which operation failed on what, as far as that is known.
Failures of the surroundings (a store, a missing column, text that has no
encoding) keep their own form.
-/

namespace EnvelopeVault

inductive VaultKind where
  | vaultError
  | organizationKeyNotFound
  | authenticationFailure
  | secretNotFound
  | noFieldsProvided
  | versionConflict
  | unsupportedAlgorithm
  | persistenceFailure
deriving DecidableEq, Repr

namespace VaultKind

def all : List VaultKind :=
  [.vaultError, .organizationKeyNotFound, .authenticationFailure, .secretNotFound,
    .noFieldsProvided, .versionConflict, .unsupportedAlgorithm, .persistenceFailure]

def name : VaultKind → Text
  | .vaultError => "VaultError"
  | .organizationKeyNotFound => "OrganizationKeyNotFound"
  | .authenticationFailure => "AuthenticationFailure"
  | .secretNotFound => "SecretNotFound"
  | .noFieldsProvided => "NoFieldsProvided"
  | .versionConflict => "VersionConflict"
  | .unsupportedAlgorithm => "UnsupportedAlgorithm"
  | .persistenceFailure => "PersistenceFailure"

/-- Whether the caller can mend the failure. -/
def isClientError : VaultKind → Bool
  | .organizationKeyNotFound => true
  | .secretNotFound => true
  | .noFieldsProvided => true
  | .versionConflict => true
  | _ => false

end VaultKind

/-- What a store's driver may raise. A cancellation is no fault of the store: it stops
whatever runs and is never wrapped. -/
inductive StoreFaultKind where
  | database
  | connection
  | timeout
  | system
  | value
  | runtime
  | secretNotFound
  | cancelled
deriving DecidableEq, Repr

structure StoreFault where
  kind : StoreFaultKind
  message : Text
deriving DecidableEq, Repr

inductive Cause where
  | keyNotFound
  | secretNotFound
  | nothingProvided
  | versionConflict (expected : Value)
  | unsupportedAlgorithm (label : Text)
  | unsupportedWrapping (label : Text)
  | unsupportedKeyRecord
  | incompleteField
  | missingField
  | malformedPart (part : Part)
  | malformedKeyText
  | partLength (part : Part) (expected actual : Nat)
  | tagMismatch
  | notUtf8
  | malformedKey
  | persistence (fault : StoreFault)
  /-- A message can be any value. -/
  | stated (kind : VaultKind) (message : Value)

namespace Cause

def kind : Cause → VaultKind
  | .keyNotFound => .organizationKeyNotFound
  | .secretNotFound => .secretNotFound
  | .nothingProvided => .noFieldsProvided
  | .versionConflict _ => .versionConflict
  | .unsupportedAlgorithm _ => .unsupportedAlgorithm
  | .unsupportedWrapping _ => .unsupportedAlgorithm
  | .unsupportedKeyRecord => .unsupportedAlgorithm
  | .incompleteField => .authenticationFailure
  | .missingField => .authenticationFailure
  | .malformedPart _ => .authenticationFailure
  | .malformedKeyText => .authenticationFailure
  | .partLength .. => .authenticationFailure
  | .tagMismatch => .authenticationFailure
  | .notUtf8 => .authenticationFailure
  | .malformedKey => .authenticationFailure
  | .persistence _ => .persistenceFailure
  | .stated kind _ => kind

def message : Cause → Text
  | .keyNotFound => "Organization key not found"
  | .secretNotFound => "Secret not found"
  | .nothingProvided => "At least one field must be provided"
  | .versionConflict expected =>
    "Secret is no longer at version " ++ expected.toText
  | .unsupportedAlgorithm label => "Unsupported algorithm " ++ label
  | .unsupportedWrapping label => "Unsupported key wrapping algorithm " ++ label
  | .unsupportedKeyRecord => "Unsupported organization key record"
  | .incompleteField => "Incomplete encrypted field"
  | .missingField => "Missing encrypted field"
  | .malformedPart part => "Malformed " ++ part.name ++ " encoding"
  | .malformedKeyText => "Malformed key encoding"
  | .partLength part expected actual =>
    part.name ++ " must be " ++ Text.ofNat expected ++ " bytes, got " ++ Text.ofNat actual
  | .tagMismatch => "Authentication tag mismatch"
  | .notUtf8 => "Decrypted value is not UTF-8"
  | .malformedKey => "Malformed organization key"
  | .persistence fault => fault.message
  | .stated _ message => message.toText

def messageValue : Cause → Value
  | .stated _ message => message
  | cause => .text cause.message

end Cause

/-- A failure of the vault; what is not known is null. -/
structure VaultFailure where
  cause : Cause
  operation : Value := .null
  secretId : Value := .null
  orgId : Value := .null
  field : Value := .null

namespace VaultFailure

def kind (f : VaultFailure) : VaultKind := f.cause.kind

def message (f : VaultFailure) : Text := f.cause.message

/-- What may be logged: the entries that say something. The field belongs to failures of
authentication only. -/
def context (f : VaultFailure) : Assoc Value :=
  let field := if f.kind = .authenticationFailure then f.field else .null
  let known : Assoc Value :=
    [("operation", f.operation), ("secret_id", f.secretId), ("org_id", f.orgId),
      ("field", field)]
  ("error", .text f.kind.name) :: ("message", f.cause.messageValue) ::
    known.filter (·.2.isTruthy)

end VaultFailure

inductive Failure where
  | vault (f : VaultFailure)
  /-- A value is no document of the kind `model`. -/
  | invalid (model : Text) (faults : List Fault)
  | missingColumn (name : Text)
  /-- A key that no text is equal to, and one that cannot be looked up. -/
  | missingKey (key : Value)
  | unhashable (key : Value)
  | unencodable (run : Unencodable)
  | undecodable (octets : Undecodable)
  | fieldKeySize
  | rootKeySize
  | rootKeyUnset
  | notAscii
  | rootKeyNotBase64
  | rootKeyLength (length : Nat)
  | columnsNotUpdatable (names : List Text)
  | noColumns
  | unknownSecretType (given : Value)
  | notAPayload
  /-- The value is no member of the enumeration `name`. -/
  | notAMember (given : Value) (name : Text)
  | noSuchAttribute (model name : Text)
  /-- Attributes have names that are text. -/
  | notAName (given : Value)
  /-- An attribute that is computed, or one that belongs to the object itself. -/
  | noSetter (model name : Text)
  | notWritable (model name : Text)
  | notAClass (given : Value)
  | notADictionary (given : Value)
  | unexpectedAttribute (name : Text)
  /-- An attribute that failures of the class `owner` get in another way already. -/
  | repeatedAttribute (owner name : Text)
  /-- A root key that is of no size. -/
  | sizeless (given : Value)
  | notOctets (given : Value)
  /-- What is used is of a kind that does not have what is asked of it. -/
  | lacking (kind name : Text)
  | notCallable (given : Value)
  /-- A store's fault that passes through unchanged. -/
  | raised (fault : StoreFault)
  | unserializableOctets
  | unserializableText
  | integerTooLarge
  /-- A number in a message has too many digits. -/
  | unwritableNumber
  /-- A store's answer has no columns, or is no sequence of rows. -/
  | notARow (answer : Value)
  | notRows (answer : Value)
  /-- A stored version that one cannot be added to. -/
  | versionNotANumber (stored : Value)
  /-- What cannot be read as base64, and octets that are looked for beyond those read. -/
  | notBase64Source (stored : Value)
  | base64 (fault : Base64.LooseFault)
  | octetIndex
  | octetRange
  | bitIndex

namespace Failure

def ofCause (cause : Cause) : Failure := .vault { cause := cause }

def ofChecked {α : Type} (model : Text) : Checked α → Except Failure α
  | .ok a => .ok a
  | .faulty faults => .error (.invalid model faults)

/-- The vault's own kinds of fault are raised as themselves. -/
def ofStoreFault (fault : StoreFault) : Failure :=
  match fault.kind with
  | .secretNotFound => ofCause (.stated .secretNotFound (.text fault.message))
  | _ => .raised fault

def utf8Reason : Utf8Fault → Text
  | .badStart => "invalid start byte"
  | .badContinuation => "invalid continuation byte"
  | .truncated => "unexpected end of data"

def positions (start count : Nat) : Text :=
  Text.ofNat start ++ "-" ++ Text.ofNat (start + count - 1)

def undecodableMessage (u : Undecodable) : Text :=
  match u.faulty with
  | [b] =>
    "'utf-8' codec can't decode byte 0x" ++ Hex.ofNat 2 b.toNat ++ " in position " ++
      Text.ofNat u.start ++ ": " ++ utf8Reason u.reason
  | faulty =>
    "'utf-8' codec can't decode bytes in position " ++ positions u.start faulty.length ++
      ": " ++ utf8Reason u.reason

def unencodableMessage (u : Unencodable) : Text :=
  if u.count = 0 then
    "'utf-8' codec can't encode character '" ++ Quoted.numbered u.first.val ++
      "' in position " ++ Text.ofNat u.start ++ ": surrogates not allowed"
  else
    "'utf-8' codec can't encode characters in position " ++ positions u.start (u.count + 1) ++
      ": surrogates not allowed"

/-- The word for what a value is, in complaints about its use. -/
def shape : Value → Text
  | .null => "NoneType"
  | .bool _ => "bool"
  | .int _ => "int"
  | .float _ => "float"
  | .text _ => "str"
  | .bytes _ => "bytes"
  | .uuid _ => "UUID"
  | .time _ => "datetime.datetime"
  | .list _ => "list"
  | .map _ => "dict"

def notEncodable (given : Value) : Failure := .lacking (shape given) "encode"

def notDecodable (given : Value) : Failure := .lacking (shape given) "decode"

def notARowMessage (answer : Value) : Text :=
  match answer with
  | .text _ => "string indices must be integers, not 'str'"
  | .bytes _ => "byte indices must be integers or slices, not str"
  | .list _ => "list indices must be integers or slices, not str"
  | other => "'" ++ shape other ++ "' object is not subscriptable"

def versionMessage (stored : Value) : Text :=
  match stored with
  | .text _ => "can only concatenate str (not \"int\") to str"
  | .bytes _ => "can't concat int to bytes"
  | .list _ => "'int' object is not iterable"
  | other => "unsupported operand type(s) for +=: '" ++ shape other ++ "' and 'int'"

def base64Message : Base64.LooseFault → Text
  | .lastDigit digits =>
    "Invalid base64-encoded string: number of data characters (" ++ Text.ofNat digits ++
      ") cannot be 1 more than a multiple of 4"
  | .padding => "Incorrect padding"

def message : Failure → Text
  | .vault f => f.message
  | .invalid model _ => "invalid " ++ model
  | .missingColumn name => Quoted.quote name
  | .missingKey key => key.quoted
  | .unhashable key => "unhashable type: '" ++ shape key ++ "'"
  | .unencodable run => unencodableMessage run
  | .undecodable octets => undecodableMessage octets
  | .fieldKeySize => "Field encryption key must be exactly 32 bytes"
  | .rootKeySize => "root_key must be exactly 32 bytes"
  | .rootKeyUnset =>
    "No vault root key found in environment. Set VAULT_ROOT_KEY=<base64-encoded-32-byte-key>"
  | .notAscii => "string argument should contain only ASCII characters"
  | .rootKeyNotBase64 => "VAULT_ROOT_KEY is not valid base64"
  | .rootKeyLength length =>
    "VAULT_ROOT_KEY must decode to exactly 32 bytes, got " ++ Text.ofNat length
  | .columnsNotUpdatable names =>
    "Columns not updatable: " ++ Quoted.quoteList (Text.sorted names)
  | .noColumns => "update_partial requires at least one column"
  | .unknownSecretType given => "Unknown consumer secret type: " ++ given.toText
  | .notAPayload => "Secret data is not a valid payload"
  | .notAMember given name => given.quoted ++ " is not a valid " ++ name
  | .noSuchAttribute model name =>
    "\"" ++ model ++ "\" object has no field \"" ++ name ++ "\""
  | .notAName given => "attribute name must be string, not '" ++ shape given ++ "'"
  | .noSetter model name => "property '" ++ name ++ "' of '" ++ model ++ "' object has no setter"
  | .notWritable model name =>
    "attribute '" ++ name ++ "' of '" ++ model ++ "' objects is not writable"
  | .notAClass given => "__class__ must be set to a class, not '" ++ shape given ++ "' object"
  | .notADictionary given =>
    "__dict__ must be set to a dictionary, not a '" ++ shape given ++ "'"
  | .unexpectedAttribute name =>
    "VaultError.__init__() got an unexpected keyword argument '" ++ name ++ "'"
  | .repeatedAttribute owner name =>
    owner ++ ".__init__() got multiple values for argument '" ++ name ++ "'"
  | .sizeless given => "object of type '" ++ shape given ++ "' has no len()"
  | .notOctets given => "a bytes-like object is required, not '" ++ shape given ++ "'"
  | .lacking kind name => "'" ++ kind ++ "' object has no attribute '" ++ name ++ "'"
  | .notCallable given => "'" ++ shape given ++ "' object is not callable"
  | .raised fault => fault.message
  | .unserializableOctets => "Type is not JSON serializable: bytes"
  | .unserializableText => "str is not valid UTF-8: surrogates not allowed"
  | .integerTooLarge => "Integer exceeds 64-bit range"
  | .unwritableNumber =>
    "Exceeds the limit (" ++ Text.ofNat Numeral.maxDigits ++ " digits) for integer string " ++
      "conversion; use sys.set_int_max_str_digits() to increase the limit"
  | .notARow answer => notARowMessage answer
  | .notRows answer => "'" ++ shape answer ++ "' object is not iterable"
  | .versionNotANumber stored => versionMessage stored
  | .notBase64Source stored =>
    "argument should be a bytes-like object or ASCII string, not '" ++ shape stored ++ "'"
  | .base64 fault => base64Message fault
  | .octetIndex => "bytearray index out of range"
  | .octetRange => "byte must be in range(0, 256)"
  | .bitIndex => "negative shift count"

end Failure
end EnvelopeVault
