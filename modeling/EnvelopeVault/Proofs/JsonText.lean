import EnvelopeVault.Json.Token
import EnvelopeVault.Proofs.Utf8

/-!
# The text of JSON tokens

What is written is read: escaping a text and replacing the escapes gives the
text (`unescape_escape`), and the spellings of tokens that are no words fall
into these tokens again, with nothing between them (`lex_spelled`). What is read
from a text without surrogates has none either (`lex_isEncodable`).
-/

namespace EnvelopeVault.Json

open Text (isEncodable_nil isEncodable_cons isEncodable_append)

-- ---------------------------------------------------------------------------
-- Escapes
-- ---------------------------------------------------------------------------

theorem unescape_point (hc : c ≠ backslash) (hv : 0x20 ≤ c.val) (rest : Text) :
    unescape (c :: rest) = (unescape rest).map (c :: ·) := by
  rw [unescape.eq_def]
  simp only [hc, Nat.not_lt.mpr hv, ne_eq, not_false_eq_true, if_true, if_false]

theorem unescape_letter (h : letterEscape? e = some c) (rest : Text) :
    unescape (backslash :: e :: rest) = (unescape rest).map (c :: ·) := by
  have hne : e ≠ 0x75 := by
    rintro rfl
    cases h
  rw [unescape.eq_def]
  simp only [hne, h, ne_eq, not_true_eq_false, not_false_eq_true, if_true, if_false]

theorem unescape_number (h : Hex.read [h1, h2, h3, h4] = some n) (hn : n < 0xD800 ∨ 0xE000 ≤ n)
    (rest : Text) :
    unescape (backslash :: 0x75 :: h1 :: h2 :: h3 :: h4 :: rest) =
      (unescape rest).map (Fin.ofNat 0x110000 n :: ·) := by
  have hlow : isLowSurrogate n = false := by
    simp only [isLowSurrogate, Bool.and_eq_false_iff, decide_eq_false_iff_not]
    omega
  have hhigh : isHighSurrogate n = false := by
    simp only [isHighSurrogate, Bool.and_eq_false_iff, decide_eq_false_iff_not]
    omega
  rw [unescape.eq_def]
  simp only [h, hlow, hhigh, ne_eq, not_true_eq_false, Bool.false_eq_true, if_false]

theorem unescape_pair (hn : Hex.read [h1, h2, h3, h4] = some high)
    (hh : isHighSurrogate high = true) (hm : Hex.read [l1, l2, l3, l4] = some low)
    (hl : isLowSurrogate low = true) (rest : Text) :
    unescape (backslash :: 0x75 :: h1 :: h2 :: h3 :: h4 ::
        backslash :: 0x75 :: l1 :: l2 :: l3 :: l4 :: rest) =
      (unescape rest).map (Fin.ofNat 0x110000 (pairValue high low) :: ·) := by
  have hhigh : isLowSurrogate high = false := by
    simp only [isHighSurrogate, isLowSurrogate, Bool.and_eq_true, Bool.and_eq_false_iff,
      decide_eq_true_eq, decide_eq_false_iff_not] at hh ⊢
    omega
  rw [unescape.eq_def]
  simp only [hn, hh, hm, hl, hhigh, ne_eq, not_true_eq_false, Bool.false_eq_true, if_false, if_true]
  rfl

theorem read_control : ∀ n < 0x20, Hex.read (Hex.ofNat 4 n) = some n := by
  decide

theorem escapePoint_cases (c : CodePoint) :
    (∃ e, escapePoint c = [backslash, e] ∧ letterEscape? e = some c) ∨
      (c.val < 0x20 ∧ escapePoint c = backslash :: 0x75 :: Hex.ofNat 4 c.val) ∨
      (c ≠ quotationMark ∧ c ≠ backslash ∧ 0x20 ≤ c.val ∧ escapePoint c = [c]) := by
  unfold escapePoint
  iterate 7
    split
    · subst c
      exact .inl ⟨_, rfl, rfl⟩
  split
  · exact .inr (.inl ⟨‹_›, rfl⟩)
  · exact .inr (.inr ⟨‹c ≠ 0x22›, ‹c ≠ 0x5C›, Nat.not_lt.mp ‹_›, rfl⟩)

theorem unescape_escapePoint (c : CodePoint) (rest : Text) :
    unescape (escapePoint c ++ rest) = (unescape rest).map (c :: ·) := by
  rcases escapePoint_cases c with ⟨e, he, hletter⟩ | ⟨hcontrol, he⟩ | ⟨-, hbackslash, hv, he⟩
  · rw [he]
    exact unescape_letter hletter rest
  · have hpoint : Fin.ofNat 0x110000 c.val = c := Fin.ext (Nat.mod_eq_of_lt c.isLt)
    rw [he]
    refine (unescape_number (read_control c.val hcontrol) (by omega) rest).trans ?_
    rw [hpoint]
  · rw [he]
    exact unescape_point hbackslash hv rest

theorem unescape_escape (t : Text) : unescape (escape t) = some t := by
  induction t with
  | nil => rfl
  | cons c t ih =>
    rw [escape, List.flatMap_cons, unescape_escapePoint, ← escape, ih, Option.map_some]

-- ---------------------------------------------------------------------------
-- Quoted text
-- ---------------------------------------------------------------------------

/-- No quotation mark ends the text: each one in it belongs to an escape, and none is left
open. -/
def isBody : Text → Bool
  | [] => true
  | c :: rest =>
    if c = quotationMark then false
    else if c = backslash then
      match rest with
      | [] => false
      | _ :: rest => isBody rest
    else isBody rest

theorem isBody_point (hq : c ≠ quotationMark) (hb : c ≠ backslash) (rest : Text) :
    isBody (c :: rest) = isBody rest := by
  rw [isBody.eq_def]
  simp only [hq, hb, if_false]

theorem isBody_escaped (d : CodePoint) (rest : Text) :
    isBody (backslash :: d :: rest) = isBody rest := by
  rw [isBody.eq_def]
  rfl

theorem isBody_append (h : isBody s = true) (t : Text) : isBody (s ++ t) = isBody t := by
  fun_induction isBody s with
  | case1 => rfl
  | case2 => cases h
  | case3 => cases h
  | case4 d rest hq ih => exact (isBody_escaped d _).trans (ih h)
  | case5 c rest hq hb ih => exact (isBody_point hq hb _).trans (ih h)

theorem isBody_escapePoint (c : CodePoint) : isBody (escapePoint c) = true := by
  rcases escapePoint_cases c with ⟨e, he, -⟩ | ⟨hcontrol, he⟩ | ⟨hq, hb, -, he⟩
  · rw [he, isBody_escaped]
    rfl
  · rw [he, isBody_escaped]
    exact (show ∀ n < 0x20, isBody (Hex.ofNat 4 n) = true by decide) c.val hcontrol
  · rw [he, isBody_point hq hb]
    rfl

theorem isBody_escape (t : Text) : isBody (escape t) = true := by
  induction t with
  | nil => rfl
  | cons c t ih =>
    rw [escape, List.flatMap_cons, isBody_append (isBody_escapePoint c), ← escape, ih]

theorem lexFrom_body (h : isBody body = true) (reversed rest : Text) :
    lexFrom (.quoted reversed) (body ++ rest) =
      lexFrom (.quoted (body.reverse ++ reversed)) rest := by
  fun_induction isBody body generalizing reversed with
  | case1 => rfl
  | case2 => cases h
  | case3 => cases h
  | case4 d body hq ih =>
    rw [List.cons_append, List.cons_append, lexFrom.eq_def]
    simp only [hq, if_true, if_false]
    rw [ih h]
    simp
  | case5 c body hq hb ih =>
    rw [List.cons_append, lexFrom.eq_def]
    simp only [hq, hb, if_false]
    rw [ih h]
    simp

theorem lexFrom_quoted (h : isBody body = true) (hu : unescape body = some t) (rest : Text) :
    lexFrom .between (quotationMark :: (body ++ quotationMark :: rest)) =
      (lexFrom .between rest).map (.scalar (.text t) :: ·) := by
  have hopen : lexFrom .between (quotationMark :: (body ++ quotationMark :: rest)) =
      lexFrom (.quoted []) (body ++ quotationMark :: rest) := by
    rw [lexFrom.eq_def]
    rfl
  rw [hopen, lexFrom_body h, List.append_nil, lexFrom.eq_def]
  simp only [if_true, List.reverse_reverse, hu]

-- ---------------------------------------------------------------------------
-- Tokens
-- ---------------------------------------------------------------------------

/-- A token whose end only shows by what comes next. -/
def isWord : Token → Bool
  | .scalar (.text _) => false
  | .scalar _ => true
  | _ => false

theorem lexFrom_token (h : isWord token = false) (rest : Text) :
    lexFrom .between (tokenText token ++ rest) = (lexFrom .between rest).map (token :: ·) := by
  cases token with
  | scalar s =>
    cases s with
    | text t =>
      have hbody := lexFrom_quoted (isBody_escape t) (unescape_escape t) rest
      simpa [tokenText, scalarText] using hbody
    | _ => cases h
  | _ =>
    rw [lexFrom.eq_def]
    rfl

/-- Tokens that are no words are read from their spellings, one right after the other. -/
theorem lex_spelled {tokens : List Token} (h : ∀ token ∈ tokens, isWord token = false) :
    lex (tokens.flatMap tokenText) = some tokens := by
  induction tokens with
  | nil => rfl
  | cons token rest ih =>
    obtain ⟨htoken, hrest⟩ := List.forall_mem_cons.mp h
    rw [lex, List.flatMap_cons, lexFrom_token htoken, ← lex, ih hrest, Option.map_some]

-- ---------------------------------------------------------------------------
-- No surrogates
-- ---------------------------------------------------------------------------

theorem value?_lt (h : Hex.value? c = some n) : n < 16 := by
  simp only [Hex.value?] at h
  repeat' split at h
  all_goals cases h
  all_goals omega

theorem digits_of_read (h : Hex.read [h1, h2, h3, h4] = some n) :
    ∃ a b c d, Hex.value? h1 = some a ∧ Hex.value? h2 = some b ∧ Hex.value? h3 = some c ∧
      Hex.value? h4 = some d ∧ n = ((a * 16 + b) * 16 + c) * 16 + d := by
  simp only [Hex.read, List.foldlM_cons, List.foldlM_nil, Option.bind_eq_bind,
    Option.bind_eq_some_iff, Option.map_eq_some_iff, Option.pure_def, Option.some.injEq] at h
  obtain ⟨_, ⟨a, ha, rfl⟩, _, ⟨b, hb, rfl⟩, _, ⟨c, hc, rfl⟩, _, ⟨d, hd, rfl⟩, rfl⟩ := h
  exact ⟨a, b, c, d, ha, hb, hc, hd, by omega⟩

theorem read_four_lt (h : Hex.read [h1, h2, h3, h4] = some n) : n < 0x10000 := by
  obtain ⟨a, b, c, d, ha, hb, hc, hd, rfl⟩ := digits_of_read h
  have := value?_lt ha
  have := value?_lt hb
  have := value?_lt hc
  have := value?_lt hd
  omega

theorem letterEscape?_isSurrogate (h : letterEscape? e = some c) :
    e.isSurrogate = false ∧ c.isSurrogate = false := by
  simp only [letterEscape?] at h
  repeat' split at h
  all_goals cases h
  all_goals
    subst e
    decide

theorem isSurrogate_ofNat (hn : n < 0x110000) (h : n < 0xD800 ∨ 0xE000 ≤ n) :
    CodePoint.isSurrogate (Fin.ofNat 0x110000 n) = false := by
  rw [Utf8.not_isSurrogate, Fin.val_ofNat, Nat.mod_eq_of_lt hn]
  exact h

theorem pairValue_mem (hh : isHighSurrogate high = true) (hl : isLowSurrogate low = true) :
    0x10000 ≤ pairValue high low ∧ pairValue high low < 0x110000 := by
  simp only [isHighSurrogate, isLowSurrogate, Bool.and_eq_true, decide_eq_true_eq] at hh hl
  unfold pairValue
  omega

/-- What is read from a text without surrogates has none: they are numbered in pairs only. -/
theorem isEncodable_unescape (h : unescape t = some u) (ht : t.IsEncodable) : u.IsEncodable := by
  have step {c : CodePoint} {rest u : Text} (h : (unescape rest).map (c :: ·) = some u)
      (hc : c.isSurrogate = false)
      (ih : ∀ {u}, unescape rest = some u → Text.IsEncodable u) : u.IsEncodable := by
    obtain ⟨v, hv, rfl⟩ := Option.map_eq_some_iff.mp h
    exact isEncodable_cons.mpr ⟨hc, ih hv⟩
  fun_induction unescape t generalizing u with
  | case1 =>
    cases h
    exact isEncodable_nil
  | case3 c rest _ _ ih =>
    obtain ⟨hc, hrest⟩ := isEncodable_cons.mp ht
    exact step h hc (ih · hrest)
  | case6 _ _ e rest _ c hletter ih =>
    exact step h (letterEscape?_isSurrogate hletter).2 (ih · fun d hd => ht d (by simp [hd]))
  | case10 _ _ _ _ _ _ _ _ high _ _ hhigh _ _ _ _ _ _ rest _ low _ hlow ih =>
    refine step h ?_ (ih · fun d hd =>
      ht d (List.mem_append_right [_, _, _, _, _, _, _, _, _, _, _, _] hd))
    obtain ⟨hge, hlt⟩ := pairValue_mem hhigh hlow
    exact isSurrogate_ofNat hlt (by omega)
  | case14 _ _ _ _ _ _ _ _ rest n hread hlow hhigh ih =>
    refine step h ?_ (ih · fun d hd => ht d (by simp [hd]))
    simp only [isHighSurrogate, isLowSurrogate, Bool.and_eq_true, decide_eq_true_eq] at hhigh hlow
    have := read_four_lt hread
    exact isSurrogate_ofNat (by omega) (by omega)
  | _ => cases h

theorem number?_ne_text (t u : Text) : number? t ≠ some (.text u) := by
  have hunsigned (negative : Bool) (t : Text) : unsigned? negative t ≠ some (.text u) := by
    intro h
    unfold unsigned? at h
    split at h
    · obtain ⟨n, -, hn⟩ := Option.map_eq_some_iff.mp h
      cases hn
    · dsimp only at h
      split at h
      · cases h
      · simp [Option.bind_eq_some_iff] at h
  unfold number?
  split
  · exact hunsigned true _
  · exact hunsigned false _

theorem word?_ne_text (t u : Text) : word? t ≠ some (.text u) := by
  unfold word?
  repeat' split
  · nofun
  · nofun
  · nofun
  · exact number?_ne_text t u

theorem punctuation?_ne_scalar (c : CodePoint) (s : Scalar) :
    punctuation? c ≠ some (.scalar s) := by
  unfold punctuation?
  repeat' split
  all_goals nofun

def TextsEncodable (ts : List Token) : Prop := ∀ t, .scalar (.text t) ∈ ts → Text.IsEncodable t

theorem isEncodable_escape (h : Text.IsEncodable t) : (escape t).IsEncodable := by
  induction t with
  | nil => exact isEncodable_nil
  | cons c t ih =>
    obtain ⟨hc, ht⟩ := isEncodable_cons.mp h
    refine isEncodable_append.mpr ⟨?_, ih ht⟩
    rcases escapePoint_cases c with ⟨e, he, hletter⟩ | ⟨hcontrol, he⟩ | ⟨-, -, -, he⟩
    · rw [he]
      exact isEncodable_cons.mpr ⟨by decide,
        isEncodable_cons.mpr ⟨(letterEscape?_isSurrogate hletter).1, isEncodable_nil⟩⟩
    · rw [he]
      exact (show ∀ n < 0x20, Text.IsEncodable (backslash :: 0x75 :: Hex.ofNat 4 n) by decide)
        c.val hcontrol
    · rw [he]
      exact isEncodable_cons.mpr ⟨hc, isEncodable_nil⟩

theorem isEncodable_tokenText (h : isWord token = false)
    (ht : ∀ t, token = .scalar (.text t) → t.IsEncodable) : (tokenText token).IsEncodable := by
  cases token with
  | scalar s =>
    cases s with
    | text t =>
      refine isEncodable_cons.mpr ⟨by decide, isEncodable_append.mpr ⟨?_, by decide⟩⟩
      exact isEncodable_escape (ht t rfl)
    | _ => cases h
  | _ => decide

theorem isEncodable_spelled {ts : List Token} (h : ∀ token ∈ ts, isWord token = false)
    (ht : TextsEncodable ts) : Text.IsEncodable (ts.flatMap tokenText) := by
  intro c hc
  obtain ⟨token, htoken, hc⟩ := List.mem_flatMap.mp hc
  exact isEncodable_tokenText (h token htoken) (fun t he => ht t (he ▸ htoken)) c hc

def Place.held : Place → Text
  | .quoted reversed => reversed
  | _ => []

theorem lexFrom_isEncodable (h : lexFrom place t = some ts) (ht : t.IsEncodable)
    (hp : place.held.IsEncodable) : TextsEncodable ts := by
  have step {token : Token} {t : Text} {ts : List Token}
      (h : (lexFrom .between t).map (token :: ·) = some ts)
      (htoken : ∀ u, token = .scalar (.text u) → u.IsEncodable)
      (ih : ∀ {ts}, lexFrom .between t = some ts → TextsEncodable ts) : TextsEncodable ts := by
    obtain ⟨rest, hrest, rfl⟩ := Option.map_eq_some_iff.mp h
    intro u hu
    rcases List.mem_cons.mp hu with hu | hu
    · exact htoken u hu.symm
    · exact ih hrest u hu
  have hword {t : Text} {s : Scalar} (hs : word? t = some s) (u : Text)
      (h : Token.scalar s = .scalar (.text u)) : u.IsEncodable := by
    cases h
    exact absurd hs (word?_ne_text t u)
  fun_induction lexFrom place t generalizing ts with
  | case1 =>
    cases h
    exact nofun
  | case2 => cases h
  | case3 => cases h
  | case4 c rest _ ih => exact ih h (isEncodable_cons.mp ht).2 hp
  | case5 rest _ ih => exact ih h (isEncodable_cons.mp ht).2 hp
  | case6 c rest _ _ token htoken ih =>
    refine step h (fun u hu => ?_) (ih · (isEncodable_cons.mp ht).2 hp)
    exact absurd (hu ▸ htoken) (punctuation?_ne_scalar c _)
  | case7 c rest _ _ _ _ ih => exact ih h (isEncodable_cons.mp ht).2 isEncodable_nil
  | case8 c rest _ _ _ _ s hs ih => exact step h (hword hs) (ih · (isEncodable_cons.mp ht).2 hp)
  | case9 => cases h
  | case10 reversed rest t hu ih =>
    refine step h (fun u htext => ?_) (ih · (isEncodable_cons.mp ht).2 isEncodable_nil)
    cases htext
    exact isEncodable_unescape hu fun c hc => hp c (List.mem_reverse.mp hc)
  | case11 => cases h
  | case12 => cases h
  | case13 reversed d rest _ ih =>
    obtain ⟨hc, ht⟩ := isEncodable_cons.mp ht
    obtain ⟨hd, hrest⟩ := isEncodable_cons.mp ht
    exact ih h hrest (isEncodable_cons.mpr ⟨hd, isEncodable_cons.mpr ⟨hc, hp⟩⟩)
  | case14 reversed c rest _ _ ih =>
    obtain ⟨hc, hrest⟩ := isEncodable_cons.mp ht
    exact ih h hrest (isEncodable_cons.mpr ⟨hc, hp⟩)
  | case15 reversed c rest _ ih =>
    exact ih h (isEncodable_cons.mp ht).2 isEncodable_nil
  | case16 reversed c rest _ s hs ih =>
    exact step h (hword hs) (ih · (isEncodable_cons.mp ht).2 isEncodable_nil)
  | case17 => cases h

theorem lex_isEncodable (h : lex t = some ts) (ht : t.IsEncodable) : TextsEncodable ts :=
  lexFrom_isEncodable h ht isEncodable_nil

end EnvelopeVault.Json
