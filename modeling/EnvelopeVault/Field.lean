import EnvelopeVault.Text

/-!
# Encrypted fields

A secret has four attributes. Each is kept encrypted on its own, as three
texts that only exist together, in three columns named after the attribute and
the part.
-/

namespace EnvelopeVault

inductive Attribute where
  | title
  | type
  | data
  | comment
deriving DecidableEq, Repr

namespace Attribute

/-- In the order in which attributes are encrypted, decrypted and listed. -/
def all : List Attribute := [.title, .type, .data, .comment]

def name : Attribute → Text
  | .title => "title"
  | .type => "type"
  | .data => "data"
  | .comment => "comment"

end Attribute

structure Attributes (α : Type) where
  title : α
  type : α
  data : α
  comment : α
deriving DecidableEq, Repr

namespace Attributes

variable {α β : Type}

def get (r : Attributes α) : Attribute → α
  | .title => r.title
  | .type => r.type
  | .data => r.data
  | .comment => r.comment

def ofFn (f : Attribute → α) : Attributes α := ⟨f .title, f .type, f .data, f .comment⟩

theorem get_ofFn (f : Attribute → α) (a : Attribute) : (ofFn f).get a = f a := by
  cases a <;> rfl

def toList (r : Attributes α) : List (Text × α) :=
  Attribute.all.map fun a => (a.name, r.get a)

end Attributes

inductive Part where
  | ciphertext
  | iv
  | tag
deriving DecidableEq, Repr

namespace Part

def all : List Part := [.ciphertext, .iv, .tag]

def name : Part → Text
  | .ciphertext => "ciphertext"
  | .iv => "iv"
  | .tag => "tag"

def suffix : Part → Text
  | .ciphertext => "Ciphertext"
  | .iv => "IV"
  | .tag => "Tag"

end Part

structure Triple (α : Type) where
  ciphertext : α
  iv : α
  tag : α
deriving DecidableEq, Repr

namespace Triple

variable {α β : Type}

def get (t : Triple α) : Part → α
  | .ciphertext => t.ciphertext
  | .iv => t.iv
  | .tag => t.tag

def map (f : α → β) (t : Triple α) : Triple β := ⟨f t.ciphertext, f t.iv, f t.tag⟩

def toList (t : Triple α) : List (Text × α) := Part.all.map fun p => (p.name, t.get p)

end Triple

abbrev Field := Triple Text

def column (name : Text) (part : Part) : Text := name ++ part.suffix

end EnvelopeVault
