import EnvelopeVault.Cipher.Aes256

/-!
# AES-256-GCM

Encryption under a 96-bit nonce, with a 128-bit tag and no associated data. The
text is combined with a key stream, so combining twice restores it. Decryption
accepts a ciphertext with exactly the tag that encryption would give it.
-/

namespace EnvelopeVault

def keySize : Nat := 32

def nonceSize : Nat := 12

def tagSize : Nat := 16

structure Key where
  bytes : Bytes
  length_eq : bytes.length = keySize
deriving DecidableEq

structure Nonce where
  bytes : Bytes
  length_eq : bytes.length = nonceSize
deriving DecidableEq

def Key.ofBytes? (b : Bytes) : Option Key :=
  if h : b.length = keySize then some ⟨b, h⟩ else none

def Nonce.ofBytes? (b : Bytes) : Option Nonce :=
  if h : b.length = nonceSize then some ⟨b, h⟩ else none

def Nonce.ofNat (n : Nat) : Nonce := ⟨Bytes.ofNat nonceSize n, Bytes.length_ofNat _ _⟩

structure Sealed where
  ciphertext : Bytes
  tag : Bytes
deriving DecidableEq, Repr

namespace Gcm

abbrev BlockFunction := Bytes → Bytes

/-- Combines `data` with the rest `left` of a key block and then with the blocks that
follow it, numbered from `counter`. -/
def combine (ciph : BlockFunction) (nonce : Bytes) : Nat → Bytes → Bytes → Bytes
  | _, _, [] => []
  | counter, k :: left, b :: data => (b ^^^ k) :: combine ciph nonce counter left data
  | counter, [], b :: data =>
    let block := ciph (nonce ++ Bytes.ofNat 4 counter)
    (b ^^^ block.headD 0) :: combine ciph nonce (counter + 1) block.tail data

def gcmReduction : Nat := 0xe1 <<< 120

/-- Multiplication of 128-bit blocks, from bit `n - 1` of `x` down. -/
def multiply : Nat → Nat → Nat → Nat
  | 0, _, _ => 0
  | n + 1, x, v =>
    let rest := multiply n x (if v.testBit 0 then (v >>> 1) ^^^ gcmReduction else v >>> 1)
    if x.testBit n then v ^^^ rest else rest

def blocks (data : Bytes) : List Bytes :=
  if data.isEmpty then [] else data.take 16 :: blocks (data.drop 16)
termination_by data.length
decreasing_by
  cases data with
  | nil => contradiction
  | cons a rest => simp only [List.drop_succ_cons, List.length_drop, List.length_cons]; omega

def blockNumber (block : Bytes) : Nat :=
  (block ++ List.replicate (16 - block.length) 0).toNat

def hash (subkey : Nat) (ciphertext : Bytes) : Nat :=
  let absorbed := (blocks ciphertext).foldl
    (fun state block => multiply 128 (state ^^^ blockNumber block) subkey) 0
  multiply 128 (absorbed ^^^ (8 * ciphertext.length)) subkey

def tag (ciph : BlockFunction) (nonce : Bytes) (ciphertext : Bytes) : Bytes :=
  let subkey := (ciph (List.replicate 16 0)).toNat
  Bytes.ofNat tagSize
    (hash subkey ciphertext ^^^ (ciph (nonce ++ Bytes.ofNat 4 1)).toNat)

def encryptWith (ciph : BlockFunction) (nonce : Nonce) (message : Bytes) : Sealed :=
  let ciphertext := combine ciph nonce.bytes 2 [] message
  ⟨ciphertext, tag ciph nonce.bytes ciphertext⟩

def decryptWith (ciph : BlockFunction) (nonce : Nonce) (s : Sealed) : Option Bytes :=
  if tag ciph nonce.bytes s.ciphertext = s.tag then
    some (combine ciph nonce.bytes 2 [] s.ciphertext)
  else none

def blockFunction (key : Key) : BlockFunction := Aes256.encryptBlock (Aes256.roundKeys key.bytes)

def encrypt (key : Key) (nonce : Nonce) (message : Bytes) : Sealed :=
  encryptWith (blockFunction key) nonce message

def decrypt (key : Key) (nonce : Nonce) (s : Sealed) : Option Bytes :=
  decryptWith (blockFunction key) nonce s

theorem combine_combine (ciph : BlockFunction) (nonce : Bytes) (counter : Nat)
    (left data : Bytes) :
    combine ciph nonce counter left (combine ciph nonce counter left data) = data := by
  induction data generalizing counter left with
  | nil => cases left <;> rfl
  | cons b data ih =>
    have cancel (k : UInt8) : b ^^^ k ^^^ k = b := by
      rw [UInt8.xor_assoc, UInt8.xor_self, UInt8.xor_zero]
    cases left <;> simp only [combine, ih, cancel]

end Gcm
end EnvelopeVault
