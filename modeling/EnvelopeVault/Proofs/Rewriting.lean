import EnvelopeVault.Proofs.Sealing
import EnvelopeVault.Proofs.Vault

/-!
# Records with fields written anew

A row over which the columns of some fields are written reads as its record with
these fields in place of the old ones (`Reads.rewritten`). An attribute of the new
record opens to the text that was sealed for it, or as it did before
(`openAttribute_rewritten`).
-/

namespace EnvelopeVault

open FieldCipher

def SecretRecord.rewritten (r : SecretRecord) (fields : Assoc Field) (version : Int) :
    SecretRecord :=
  { r with
    fields := .ofFn fun a => (fields.get? a.name).or (r.fields.get a)
    version := version }

/-- The texts with the changed ones in place of the old ones. -/
def Changes.over (changes : Changes) (texts : Attributes Text) : Attributes Text :=
  .ofFn fun a => (changes.get a).getD (texts.get a)

namespace Layout

/-- One row has what another has, but for the version and the columns of some fields. -/
structure Rewrites (fields : Assoc Field) (row row' : Row) : Prop where
  plain : SamePlain row row'
  column : ∀ name part, row'.get? (column name part) =
    ((fields.get? name).map fun f => .text (f.get part)).or (row.get? (column name part))

variable {fields : Assoc Field} {row row' : Row}

theorem rewrites_putAll (h : fields.names.Nodup) (row : Row) :
    Rewrites fields row (row.putAll (columnsOf fields)) where
  plain _ hn _ := get?_putColumns_plain h hn row
  column _ _ := get?_putColumns h row

theorem rewrites_overlay (h : fields.names.Nodup) (row : Row) (version : Int) :
    Rewrites fields row (overlay row fields version) where
  plain := overlay_plain h row version
  column _ _ := get?_overlay_column h row version

theorem Reads.rewritten {n : Int} (h : Reads row r) (hw : Rewrites fields row row')
    (hv : Holds row' "version" fun v => Checked.integer v = .ok n) :
    Reads row' (r.rewritten fields n) := by
  refine h.change hw.plain hv fun a => ?_
  rw [Attributes.get_ofFn]
  cases hg : fields.get? a.name with
  | none =>
    refine (h.fields a).congr fun part => ?_
    rw [hw.column, hg]
    rfl
  | some f =>
    refine .texts fun part => ?_
    rw [hw.column, hg]
    rfl

end Layout

namespace Sealing

variable {key : Key} {fields : Assoc Field} {changes : Changes} {r : SecretRecord}

theorem openAttribute_rewritten
    (hrel : Assoc.Rel (fun _ => Seals key) fields changes.provided) (version : Int)
    (a : Attribute) :
    openAttribute key.bytes (r.rewritten fields version) a =
      (changes.get a).elim (openAttribute key.bytes r a) .ok := by
  have hfield := hrel.get? a.name
  rw [Changes.get?_provided] at hfield
  simp only [openAttribute, SecretRecord.rewritten, Attributes.get_ofFn]
  generalize Assoc.get? fields a.name = field? at hfield ⊢
  generalize changes.get a = t? at hfield ⊢
  cases hfield with
  | none => rfl
  | some hseal => exact seals_iff_decrypt.mp hseal

theorem openOrBlame_bind_eq_ok_iff {α : Type} {key : Bytes} {f : Text → Program α} {b : α} :
    (openOrBlame key r a).bind f = .done (.ok b) ↔
      ∃ t, openAttribute key r a = .ok t ∧ f t = .done (.ok b) := by
  unfold openOrBlame
  cases openAttribute key r a with
  | ok t => simp [Program.pure_eq, Program.done_bind]
  | error e =>
    simp only [reduceCtorEq, false_and, exists_false, iff_false]
    unfold blame
    repeat' split
    all_goals nofun

theorem decryptRecord_eq_ok_iff {key : Bytes} {s : Secret} :
    decryptRecord key r = .done (.ok s) ↔
      r.algorithm = aes256Gcm ∧ s.id = r.id ∧ s.userId = r.userId ∧ s.orgId = r.orgId ∧
        ∀ a, openAttribute key r a = .ok (s.texts.get a) := by
  by_cases ha : r.algorithm = aes256Gcm
  · simp only [decryptRecord, ha, if_true, true_and, Program.bind_eq,
      openOrBlame_bind_eq_ok_iff]
    constructor
    · rintro ⟨title, htitle, type, htype, data, hdata, comment, hcomment, ⟨⟩⟩
      refine ⟨rfl, rfl, rfl, ?_⟩
      rintro (_ | _ | _ | _)
      · exact htitle
      · exact htype
      · exact hdata
      · exact hcomment
    · obtain ⟨id, user, org, texts⟩ := s
      rintro ⟨rfl, rfl, rfl, h⟩
      exact ⟨_, h .title, _, h .type, _, h .data, _, h .comment, rfl⟩
  · simp [decryptRecord, ha, Program.fail]

/-- What could be opened before opens to its texts with the changed ones replaced. -/
theorem decryptRecord_rewritten {s : Secret}
    (hrel : Assoc.Rel (fun _ => Seals key) fields changes.provided) (version : Int)
    (h : decryptRecord key.bytes r = .done (.ok s)) :
    decryptRecord key.bytes (r.rewritten fields version) =
      .done (.ok { s with texts := changes.over s.texts }) := by
  obtain ⟨ha, hid, huser, horg, hopen⟩ := decryptRecord_eq_ok_iff.mp h
  refine decryptRecord_eq_ok_iff.mpr ⟨ha, hid, huser, horg, fun a => ?_⟩
  rw [openAttribute_rewritten hrel, hopen, Changes.over, Attributes.get_ofFn]
  cases changes.get a <;> rfl

end Sealing
end EnvelopeVault
