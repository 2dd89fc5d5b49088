import EnvelopeVault.Proofs.Ciphering
import Mathlib.Algebra.Group.Nat.Defs
import Mathlib.Data.List.Nodup

/-!
# Nonces are never reused

`nonces_never_reused`: in a sequence of calls that encrypt, whatever they are given
and whichever of them fail, every field is produced under a nonce that was drawn
for it alone, and that stands in it. So where the draws of the sequence are
different, the fields are.

A source that counts its nonces gives 2^96 different ones (`nodup_of_counting`).
-/

namespace EnvelopeVault

open FieldCipher

-- ---------------------------------------------------------------------------
-- Fields under different nonces
-- ---------------------------------------------------------------------------

namespace Encryption

theorem produced_append (es es' : List Encryption) :
    produced (es ++ es') = produced es ++ produced es' :=
  List.filterMap_append

theorem ivs_sublist {es : List Encryption}
    (h : ∀ e ∈ es, ∀ f, e.result = .ok f → ∃ nonce, e.Gives f nonce) :
    ((produced es).map (·.iv)).Sublist
      ((es.flatMap (·.draws)).map fun nonce => Base64.encode nonce.bytes) := by
  induction es with
  | nil => exact .slnil
  | cons e es ih =>
    obtain ⟨he, hes⟩ := List.forall_mem_cons.mp h
    rw [List.flatMap_cons, List.map_append]
    cases hr : e.result with
    | error failure =>
      have hskip : produced (e :: es) = produced es :=
        List.filterMap_cons_none (by rw [hr]; rfl)
      rw [hskip]
      exact (ih hes).trans (List.sublist_append_right ..)
    | ok f =>
      obtain ⟨nonce, hgives⟩ := he f hr
      have htake : produced (e :: es) = f :: produced es :=
        List.filterMap_cons_some (by rw [hr]; rfl)
      rw [htake, List.map_cons, hgives.iv_eq, hgives.draws]
      exact (ih hes).cons_cons _

theorem nodup_ivs {es : List Encryption}
    (h : ∀ e ∈ es, ∀ f, e.result = .ok f → ∃ nonce, e.Gives f nonce)
    (hd : (es.flatMap (·.draws)).Nodup) : ((produced es).map (·.iv)).Nodup := by
  have hinj : Function.Injective fun nonce : Nonce => Base64.encode nonce.bytes :=
    fun _ _ heq => Nonce.ext (Base64.encode_injective heq)
  exact (List.Nodup.map hinj hd).sublist (ivs_sublist h)

end Encryption

-- ---------------------------------------------------------------------------
-- Calls
-- ---------------------------------------------------------------------------

/-- The calls that encrypt, with any inputs. -/
inductive SealingCall where
  | encryptField (key : Bytes) (plaintext : Value)
  | encryptSecret (key : Bytes) (draft : Draft)
  | encryptChanges (key : Bytes) (changes : Changes)
  | wrapKey (org key : Value) (root : Bytes) (encoding : Value)
  | create (root : Bytes) (draft : Draft) (org user : Value)
  | update (root : Bytes) (secret : Value) (changes : Changes) (org : Value)
    (expected : Option Value)

namespace SealingCall

open Encryption (produced produced_append)

abbrev Reply : SealingCall → Type
  | .encryptField .. => Field
  | .encryptSecret .. | .encryptChanges .. => List (Text × Field)
  | .wrapKey .. => OrgKeyRecord
  | .create .. | .update .. => Text

def program : (c : SealingCall) → Program c.Reply
  | .encryptField key plaintext => Sealing.encryptValue key plaintext
  | .encryptSecret key draft => Sealing.encryptDraft key draft
  | .encryptChanges key changes => Sealing.encryptChanges key changes
  | .wrapKey org key root encoding => OrgKey.wrap org key root encoding
  | .create root draft org user => Vault.create root draft org user
  | .update root secret changes org expected => Vault.update root secret changes org expected

def exposed : (c : SealingCall) → Exposed c.program
  | .encryptField key plaintext => .encrypt key plaintext
  | .encryptSecret key draft => Sealing.exposeAll key draft.texts.toList
  | .encryptChanges key changes => Sealing.exposeAll key changes.provided
  | .wrapKey org key root encoding => OrgKey.exposeWrap org key root encoding
  | .create root draft org user => Vault.exposeCreate root draft org user
  | .update root secret changes org expected =>
    Vault.exposeUpdate root secret changes org expected

/-- The fields in a reply. Those of a creation or an update are in the store only. -/
def fieldsIn : (c : SealingCall) → c.Reply → List Field
  | .encryptField .., field => [field]
  | .encryptSecret .., fields | .encryptChanges .., fields => fields.map (·.2)
  | .wrapKey .., record => [record.wrappedKey]
  | .create .., _ | .update .., _ => []

variable {σ : Type} (b : Backend σ)

theorem produced_encrypt {key : Bytes} {plaintext : Value} {s : σ}
    (h : ((Sealing.encryptValue key plaintext).run b s).result = .ok f) :
    produced ((Exposed.encrypt key plaintext).encryptions b s) = [f] := by
  rw [Exposed.encryptions_encrypt]
  exact List.filterMap_cons_some (congrArg Except.toOption h)

theorem produced_plain {p : Program α} (h : p.Drawless) (s : σ) :
    produced ((Exposed.plain h).encryptions b s) = [] := by
  rw [Exposed.encryptions_plain]
  rfl

theorem produced_bind {p : Program α} {f : α → Program β} {x : Exposed p}
    {y : ∀ a, Exposed (f a)} {s : σ} (h : (p.run b s).result = .ok a)
    (hx : produced (x.encryptions b s) = fs)
    (hy : produced ((y a).encryptions b (p.run b s).state) = gs) :
    produced ((x.bind y).encryptions b s) = fs ++ gs := by
  rw [Exposed.encryptions_bind_ok x y h, produced_append, hx, hy]

theorem produced_exposeAll {key : Bytes} {texts : List (Text × Text)} {s : σ}
    (h : ((Sealing.encryptAll key texts).run b s).result = .ok fields) :
    produced ((Sealing.exposeAll key texts).encryptions b s) = fields.map (·.2) := by
  induction texts generalizing s fields with
  | nil =>
    cases h
    rfl
  | cons pair rest ih =>
    obtain ⟨name, t⟩ := pair
    obtain ⟨f, hf, h⟩ := Program.run_bind_ok h
    obtain ⟨fs, hfs, h⟩ := Program.run_bind_ok h
    cases h
    have hall : produced ((Sealing.exposeAll key ((name, t) :: rest)).encryptions b s) =
        [f] ++ (fs.map (·.2) ++ []) :=
      produced_bind b hf (produced_encrypt b hf)
        (produced_bind b hfs (ih hfs) (produced_plain b _ _))
    rw [List.append_nil] at hall
    exact hall

theorem produced_exposeWrap {org key : Value} {root : Bytes} {encoding : Value} {s : σ}
    (h : ((OrgKey.wrap org key root encoding).run b s).result = .ok record) :
    produced ((OrgKey.exposeWrap org key root encoding).encryptions b s) = [record.wrappedKey] := by
  obtain ⟨keyText, hkey, h⟩ := Program.run_bind_ok h
  obtain ⟨f, hf, h⟩ := Program.run_bind_ok h
  have hrecord : OrgKey.recordWith org f encoding = .ok record :=
    Checked.ofChecked_eq_ok_iff.mp h
  simp only [OrgKey.recordWith, Checked.seq_eq_ok_iff, Checked.map_eq_ok_iff,
    Checked.under_eq_ok_iff] at hrecord
  obtain ⟨_, _, ⟨_, -, rfl⟩, -, rfl⟩ := hrecord
  have hall : produced ((OrgKey.exposeWrap org key root encoding).encryptions b s) =
      [] ++ ([f] ++ []) :=
    produced_bind b hkey (produced_plain b _ s)
      (produced_bind b hf (produced_encrypt b hf) (produced_plain b _ _))
  exact hall

theorem fieldsIn_sublist (c : SealingCall) {s : σ} {reply : c.Reply}
    (h : (c.program.run b s).result = .ok reply) :
    (c.fieldsIn reply).Sublist (produced (c.exposed.encryptions b s)) := by
  cases c with
  | encryptField key plaintext => exact (produced_encrypt b h).symm ▸ .refl _
  | encryptSecret key draft => exact (produced_exposeAll b h).symm ▸ .refl _
  | encryptChanges key changes => exact (produced_exposeAll b h).symm ▸ .refl _
  | wrapKey org key root encoding => exact (produced_exposeWrap b h).symm ▸ .refl _
  | create root draft org user => exact List.nil_sublist _
  | update root secret changes org expected => exact List.nil_sublist _

-- ---------------------------------------------------------------------------
-- Sequences
-- ---------------------------------------------------------------------------

/-- The nonces that a sequence of calls draws. A call that fails is followed by the next. -/
def drawsAll : List SealingCall → σ → List Nonce
  | [], _ => []
  | c :: calls, s => c.program.draws b s ++ drawsAll calls (c.program.run b s).state

def encryptionsAll : List SealingCall → σ → List Encryption
  | [], _ => []
  | c :: calls, s => c.exposed.encryptions b s ++ encryptionsAll calls (c.program.run b s).state

def repliedAll : List SealingCall → σ → List Field
  | [], _ => []
  | c :: calls, s =>
    let o := c.program.run b s
    let fields := match o.result with
      | .ok reply => c.fieldsIn reply
      | .error _ => []
    fields ++ repliedAll calls o.state

theorem drawsAll_eq (calls : List SealingCall) (s : σ) :
    drawsAll b calls s = (encryptionsAll b calls s).flatMap (·.draws) := by
  induction calls generalizing s with
  | nil => rfl
  | cons c calls ih =>
    rw [drawsAll, encryptionsAll, List.flatMap_append, ← ih, ← c.exposed.draws_eq]

theorem exists_start_of_mem {calls : List SealingCall} {s : σ} {e : Encryption}
    (he : e ∈ encryptionsAll b calls s) : ∃ key plaintext s', e = .start b key plaintext s' := by
  induction calls generalizing s with
  | nil => cases he
  | cons c calls ih =>
    rw [encryptionsAll, List.mem_append] at he
    rcases he with he | he
    · exact Ciphering.exists_start_of_mem_trace he
    · exact ih he

theorem repliedAll_sublist (calls : List SealingCall) (s : σ) :
    (repliedAll b calls s).Sublist (produced (encryptionsAll b calls s)) := by
  induction calls generalizing s with
  | nil => exact .slnil
  | cons c calls ih =>
    rw [repliedAll, encryptionsAll, produced_append]
    refine List.Sublist.append ?_ (ih _)
    cases h : (c.program.run b s).result with
    | error e => exact List.nil_sublist _
    | ok reply => exact fieldsIn_sublist b c h

end SealingCall

open SealingCall

/-- In every sequence of calls that encrypt, with any inputs, over any stores, whether the calls
fail or not, and that draws different nonces: the draws are those of the calls of the cipher; one
that gives a field has drawn one nonce, encrypted under it, and the field's `iv` decodes to it;
one whose key and text can be used gives a field; and no two fields that are produced have the
same `iv`, so no two are equal. The fields in the replies are among them. -/
theorem nonces_never_reused {σ : Type} (b : Backend σ) (calls : List SealingCall) (s : σ)
    (h : (drawsAll b calls s).Nodup) :
    let es := encryptionsAll b calls s
    es.flatMap (·.draws) = drawsAll b calls s ∧
    (∀ e ∈ es, ∀ f, e.result = .ok f →
      ∃ nonce, e.Gives f nonce ∧ Base64.decode f.iv = some nonce.bytes) ∧
    (∀ e ∈ es, ∀ (key : Key) t, e.key = key.bytes → e.plaintext = .text t → t.IsEncodable →
      ∃ f, e.result = .ok f) ∧
    (Encryption.produced es).Pairwise (fun f g => f.iv ≠ g.iv) ∧
    (Encryption.produced es).Nodup ∧
    (repliedAll b calls s).Sublist (Encryption.produced es) := by
  intro es
  have hgives (e : Encryption) (he : e ∈ es) (f : Field) (hf : e.result = .ok f) :
      ∃ nonce, e.Gives f nonce := by
    obtain ⟨key, plaintext, s', rfl⟩ := exists_start_of_mem b he
    exact Encryption.gives b key plaintext s' hf
  have hivs : ((Encryption.produced es).map (·.iv)).Nodup :=
    Encryption.nodup_ivs hgives (drawsAll_eq b calls s ▸ h)
  refine ⟨(drawsAll_eq b calls s).symm, fun e he f hf => ?_, fun e he key t hk ht henc => ?_,
    List.pairwise_map.mp hivs, hivs.of_map, repliedAll_sublist b calls s⟩
  · obtain ⟨nonce, hg⟩ := hgives e he f hf
    refine ⟨nonce, hg, ?_⟩
    rw [hg.iv_eq, Base64.decode_encode]
  · obtain ⟨_, _, s', rfl⟩ := exists_start_of_mem b he
    cases hk
    cases ht
    exact Encryption.exists_field b key henc s'

-- ---------------------------------------------------------------------------
-- Sources that count
-- ---------------------------------------------------------------------------

theorem Bytes.toNat_ofNat (width n : Nat) : (ofNat width n).toNat = n % 256 ^ width := by
  induction width generalizing n with
  | zero => simp [ofNat, toNat, Nat.mod_one]
  | succ width ih =>
    have hlast : (ofNat width (n / 256) ++ [UInt8.ofNat n]).toNat =
        (ofNat width (n / 256)).toNat * 256 + n % 256 := by
      simp [toNat]
    rw [ofNat, hlast, ih, Nat.pow_succ, Nat.mul_comm (256 ^ width), Nat.mod_mul]
    omega

namespace Nonces

variable {first : Nat}

theorem counting_ne {i j : Nat} (hij : i < j) (hj : j < i + 2 ^ 96) :
    (counting first).supply i ≠ (counting first).supply j := by
  intro h
  have hnumber := congrArg (fun nonce : Nonce => nonce.bytes.toNat) h
  simp only [counting, Nonce.ofNat, Bytes.toNat_ofNat, nonceSize] at hnumber
  omega

def take (n : Nonces) (k : Nat) : List Nonce := (List.range' n.drawn k).map n.supply

def skip (n : Nonces) (k : Nat) : Nonces := { n with drawn := n.drawn + k }

theorem take_append (n : Nonces) (j k : Nat) : n.take j ++ (n.skip j).take k = n.take (j + k) := by
  rw [take, take, take, skip, ← List.map_append, List.range'_append_1]

theorem nodup_take_counting {k : Nat} (hk : k ≤ 2 ^ 96) (drawn : Nat) :
    (take { counting first with drawn } k).Nodup := by
  have hlt : (List.range' drawn k).Pairwise (· < ·) := List.pairwise_lt_range'
  refine List.pairwise_map.mpr (hlt.imp_of_mem fun hi hj hij => ?_)
  rw [List.mem_range'_1] at hi hj
  exact counting_ne hij (by omega)

end Nonces

/-- A run on the store in memory draws the next nonces of its supply. -/
theorem Program.exists_draws {α : Type} (p : Program α) (m : Memory) :
    ∃ k, p.draws Memory.backend m = m.nonces.take k ∧
      (p.run Memory.backend m).state.nonces = m.nonces.skip k := by
  induction p generalizing m with
  | done result => exact ⟨0, rfl, rfl⟩
  | note line next ih => exact ih m
  | draw next ih =>
    obtain ⟨k, hdraws, hleft⟩ := ih m.nonces.next.1 { m with nonces := m.nonces.next.2 }
    refine ⟨1 + k, ?_, ?_⟩
    · rw [← Nonces.take_append]
      exact congrArg (m.nonces.next.1 :: ·) hdraws
    · rw [Program.run]
      refine hleft.trans ?_
      simp only [Nonces.next, Nonces.skip, Nat.add_assoc]
  | access a next ih =>
    have hkept := Memory.answer_nonces a m
    simp only [draws, run, Memory.backend]
    generalize Memory.answer a m = o at hkept ⊢
    obtain ⟨result, m'⟩ := o
    change m'.nonces = m.nonces at hkept
    rw [← hkept]
    cases result with
    | error e => exact ⟨0, rfl, rfl⟩
    | ok answer => exact ih answer m'

namespace SealingCall

theorem exists_drawsAll (calls : List SealingCall) (m : Memory) :
    ∃ k, drawsAll Memory.backend calls m = m.nonces.take k := by
  induction calls generalizing m with
  | nil => exact ⟨0, rfl⟩
  | cons c calls ih =>
    obtain ⟨j, hdraws, hleft⟩ := c.program.exists_draws m
    obtain ⟨k, hrest⟩ := ih (c.program.run Memory.backend m).state
    refine ⟨j + k, ?_⟩
    rw [drawsAll, hdraws, hrest, hleft, Nonces.take_append]

/-- A sequence that draws at most 2^96 nonces from a source that counts them draws different
ones. -/
theorem nodup_of_counting {calls : List SealingCall} {m : Memory} (first : Nat)
    (hm : m.nonces.supply = (Nonces.counting first).supply)
    (h : (drawsAll Memory.backend calls m).length ≤ 2 ^ 96) :
    (drawsAll Memory.backend calls m).Nodup := by
  obtain ⟨k, hk⟩ := exists_drawsAll calls m
  rw [hk] at h ⊢
  rw [Nonces.take, List.length_map, List.length_range'] at h
  rw [Nonces.take, hm]
  exact Nonces.nodup_take_counting h m.nonces.drawn

end SealingCall

namespace Correspondence

def key : Bytes := List.replicate keySize 2

def draft : Draft := ⟨"title", "type", "data", none⟩

/-- One text twice, a text that cannot be encoded, one that is no text, a key of the wrong size,
and an organization without a key. -/
def calls : List SealingCall :=
  [.encryptField key (.text "a"), .encryptField key (.text "a"),
    .encryptField key (.text [0xd800]), .encryptField key .null,
    .encryptField [] (.text "a"), .encryptSecret key draft,
    .wrapKey (.text "o") (.bytes key) key (.text KeyEncoding.base64.label),
    .create key draft (.text "o") (.text "u")]

def store : Memory := .empty [] (Nonces.counting 0)

end Correspondence

/-- The hypothesis holds of calls that fail in many ways, and seven fields are produced. -/
theorem correspondence_reuses_no_nonce :
    let es := encryptionsAll Memory.backend Correspondence.calls Correspondence.store
    (Encryption.produced es).length = 7 ∧
      (Encryption.produced es).Pairwise fun f g => f.iv ≠ g.iv := by
  refine ⟨by decide +kernel, ?_⟩
  have h : (drawsAll Memory.backend Correspondence.calls Correspondence.store).Nodup :=
    nodup_of_counting 0 rfl (by decide)
  exact (nonces_never_reused Memory.backend Correspondence.calls Correspondence.store h).2.2.2.1

end EnvelopeVault
