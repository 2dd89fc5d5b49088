import EnvelopeVault.Proofs.JsonNumber
import EnvelopeVault.Proofs.JsonReader

/-!
# The grammar of JSON

What a document is, said without a machine: tokens, each in one of its spellings,
with blanks around them (`Spelled`), and these the tokens of a value. A text is
read exactly if it is a document, and as the value whose document it is
(`read_eq_some_iff`).
-/

namespace EnvelopeVault.Json

inductive Word : Text → Scalar → Prop
  | null : Word "null" .null
  | true : Word "true" (.bool true)
  | false : Word "false" (.bool false)
  | number (h : Number t s) : Word t s

/-- What stands between quotation marks, and the text that it denotes. Four hexadecimal digits
are the number of a code point; two such numbers may be that of one beyond the first 65536. -/
inductive Body : Text → Text → Prop
  | nil : Body [] []
  | point (hq : c ≠ quotationMark) (hb : c ≠ backslash) (hv : 0x20 ≤ c.val) (h : Body s t) :
      Body (c :: s) (c :: t)
  | letter (he : letterEscape? e = some c) (h : Body s t) : Body (backslash :: e :: s) (c :: t)
  | number (hn : Hex.read [h1, h2, h3, h4] = some n) (h : Body s t) :
      Body (backslash :: 0x75 :: h1 :: h2 :: h3 :: h4 :: s) (Fin.ofNat 0x110000 n :: t)
  | pair (hn : Hex.read [h1, h2, h3, h4] = some high) (hh : isHighSurrogate high = true)
      (hm : Hex.read [l1, l2, l3, l4] = some low) (hl : isLowSurrogate low = true) (h : Body s t) :
      Body (backslash :: 0x75 :: h1 :: h2 :: h3 :: h4 ::
          backslash :: 0x75 :: l1 :: l2 :: l3 :: l4 :: s)
        (Fin.ofNat 0x110000 (pairValue high low) :: t)

inductive Spelling : Token → Text → Prop
  | mark (h : punctuation? c = some token) : Spelling token [c]
  | text (h : Body s t) : Spelling (.scalar (.text t)) (quotationMark :: (s ++ [quotationMark]))
  | word (h : Word t s) : Spelling (.scalar s) t

/-- Tokens one after the other, with blanks before and after each. -/
inductive Spelled : List Token → Text → Prop
  | nil : Spelled [] []
  | blank (hc : isBlank c = true) (h : Spelled ts t) : Spelled ts (c :: t)
  | token (hs : Spelling token s) (h : Spelled ts t) : Spelled (token :: ts) (s ++ t)

/-- A text of characters with the tokens of a value, whose texts are made of characters too: a
surrogate is none. Containers are nested up to a fixed depth. -/
structure IsDocument (t : Text) (j : Json) : Prop where
  characters : t.IsEncodable
  spelled : Spelled j.tokens t
  texts : TextsEncodable j.tokens
  depth : j.nesting ≤ State.maxDepth

-- ---------------------------------------------------------------------------
-- Words
-- ---------------------------------------------------------------------------

theorem word?_eq_some_iff {t : Text} :
    word? t = some s ∧ isBounded (.scalar s) = true ↔ Word t s := by
  constructor
  · rintro ⟨h, hb⟩
    unfold word? at h
    repeat' split at h
    · cases h
      subst t
      exact .null
    · cases h
      subst t
      exact .true
    · cases h
      subst t
      exact .false
    · exact .number (number?_eq_some_iff.mp ⟨h, hb⟩)
  · intro h
    cases h with
    | null => exact ⟨rfl, rfl⟩
    | true => exact ⟨rfl, rfl⟩
    | false => exact ⟨rfl, rfl⟩
    | number h =>
      obtain ⟨hs, hb⟩ := number?_eq_some_iff.mpr h
      refine ⟨?_, hb⟩
      unfold word?
      repeat' split
      · subst t
        cases hs
      · subst t
        cases hs
      · subst t
        cases hs
      · exact hs

theorem isWord_of_word (h : Word t s) : isWord (.scalar s) = true := by
  have hs := (word?_eq_some_iff.mpr h).1
  cases s with
  | text u => exact absurd hs (word?_ne_text t u)
  | _ => rfl

/-- What ends a word: blanks, the quotation mark and punctuation. -/
def delimiters : Text := [0x20, 0x09, 0x0A, 0x0D, 0x22, 0x5B, 0x5D, 0x7B, 0x7D, 0x2C, 0x3A]

theorem isWordPoint_iff {c : CodePoint} : isWordPoint c = true ↔ c ∉ delimiters := by
  have hpunctuation : punctuation? c = none ↔ c ∉ delimiters.drop 5 := by
    unfold punctuation?
    repeat' split
    all_goals simp [delimiters, *]
  simp [isWordPoint, isBlank, quotationMark, hpunctuation, delimiters, and_assoc]

theorem isWordPoint_of_isDigit (h : c.isDigit = true) : isWordPoint c = true := by
  -- there are too many code points to try, but few delimiters
  have hdelimiters : delimiters.all (!·.isDigit) = true := by decide
  rw [isWordPoint_iff]
  intro hc
  simpa [h] using List.all_eq_true.mp hdelimiters c hc

def IsRun (t : Text) : Prop := ∀ c ∈ t, isWordPoint c = true

instance (t : Text) : Decidable (IsRun t) :=
  decidable_of_iff (t.all isWordPoint = true) List.all_eq_true

theorem isRun_append : IsRun (s ++ t) ↔ IsRun s ∧ IsRun t := List.forall_mem_append

theorem isRun_cons : IsRun (c :: t) ↔ isWordPoint c = true ∧ IsRun t := List.forall_mem_cons

theorem isRun_digits (h : IsDigits t) : IsRun t := fun c hc => isWordPoint_of_isDigit (h.2 c hc)

theorem isRun_fraction (h : Fraction point digits) : IsRun point := by
  cases h with
  | none => exact List.forall_mem_nil _
  | point h => exact isRun_cons.mpr ⟨rfl, isRun_digits h⟩

theorem isRun_exponent (h : Exponent t e) : IsRun t := by
  cases h with
  | none => exact List.forall_mem_nil _
  | some hm hs h =>
    refine isRun_cons.mpr ⟨?_, isRun_append.mpr ⟨?_, isRun_digits h⟩⟩
    · simp only [Decimal.isExponentMark, Bool.or_eq_true, beq_iff_eq] at hm
      rcases hm with rfl | rfl <;> rfl
    · cases hs <;> decide

theorem isRun_number (h : Number t s) : IsRun t := by
  obtain ⟨negative, h⟩ := h
  refine isRun_append.mpr ⟨by cases negative <;> decide, ?_⟩
  cases h with
  | whole h => exact isRun_digits h.1
  | decimal h hf he =>
    exact isRun_append.mpr ⟨isRun_digits h.1,
      isRun_append.mpr ⟨isRun_fraction hf, isRun_exponent he⟩⟩

theorem isRun_word (h : Word t s) : IsRun t := by
  cases h with
  | number h => exact isRun_number h
  | _ => decide

theorem word_ne_nil (h : Word [] s) : False := by
  have hs := (word?_eq_some_iff.mpr h).1
  cases hs

theorem lexFrom_run (hw : IsRun w) (hne : w ≠ []) (hr : continuesWord rest = false)
    (hs : word? (reversed.reverse ++ w) = some s) :
    lexFrom (.word reversed) (w ++ rest) = (lexFrom .between rest).map (.scalar s :: ·) := by
  induction w generalizing reversed with
  | nil => exact absurd rfl hne
  | cons c w ih =>
    rw [List.cons_append, lexFrom.eq_def]
    cases w with
    | nil => simp [hr, hs]
    | cons d w =>
      have hd : continuesWord (d :: w ++ rest) = true := hw d (by simp)
      simp only [hd, if_true]
      exact ih (isRun_cons.mp hw).2 (List.cons_ne_nil _ _) (by simpa using hs)

theorem lexFrom_word (h : Word w s) (hr : continuesWord rest = false) :
    lexFrom .between (w ++ rest) = (lexFrom .between rest).map (.scalar s :: ·) := by
  have hs := (word?_eq_some_iff.mpr h).1
  have hw := isRun_word h
  cases w with
  | nil => exact absurd h word_ne_nil
  | cons c w =>
    have hstart : lexFrom .between (c :: w ++ rest) = lexFrom (.word []) (c :: w ++ rest) := by
      have hc := (isRun_cons.mp hw).1
      simp only [isWordPoint, Bool.and_eq_true, Bool.not_eq_true', bne_iff_ne, ne_eq,
        Option.isNone_iff_eq_none] at hc
      rw [List.cons_append, lexFrom.eq_def, lexFrom.eq_def]
      simp [hc]
    rw [hstart]
    exact lexFrom_run hw (List.cons_ne_nil _ _) hr hs

-- ---------------------------------------------------------------------------
-- Quoted text
-- ---------------------------------------------------------------------------

theorem isBody_hex (h : Hex.value? c = some v) (rest : Text) :
    isBody (c :: rest) = isBody rest := by
  refine isBody_point ?_ ?_ rest
  · rintro rfl
    cases h
  · rintro rfl
    cases h

theorem isBody_number (h : Hex.read [h1, h2, h3, h4] = some n) (rest : Text) :
    isBody (backslash :: 0x75 :: h1 :: h2 :: h3 :: h4 :: rest) = isBody rest := by
  obtain ⟨a, b, c, d, ha, hb, hc, hd, -⟩ := digits_of_read h
  rw [isBody_escaped, isBody_hex ha, isBody_hex hb, isBody_hex hc, isBody_hex hd]

/-- What the escapes are replaced in is as the grammar has it, if no quotation mark ends it. -/
theorem body_of_unescape (h : unescape s = some t) (hs : isBody s = true) : Body s t := by
  fun_induction unescape s generalizing t with
  | case1 =>
    cases h
    exact .nil
  | case3 c rest hc hv ih =>
    obtain ⟨t, ht, rfl⟩ := Option.map_eq_some_iff.mp h
    have hq : c ≠ quotationMark := by
      rintro rfl
      rw [isBody.eq_def] at hs
      cases hs
    rw [isBody_point hq hc] at hs
    exact .point hq hc (Nat.not_lt.mp hv) (ih ht hs)
  | case6 c hc e rest _ d hletter ih =>
    obtain ⟨t, ht, rfl⟩ := Option.map_eq_some_iff.mp h
    obtain rfl : c = backslash := Decidable.of_not_not hc
    exact .letter hletter (ih ht hs)
  | case10 c hc e he h1 h2 h3 h4 high hread _ hhigh b u l1 l2 l3 l4 rest hbu low hlow hl ih =>
    obtain ⟨t, ht, rfl⟩ := Option.map_eq_some_iff.mp h
    obtain rfl : c = backslash := Decidable.of_not_not hc
    obtain rfl : e = 0x75 := Decidable.of_not_not he
    obtain ⟨rfl, rfl⟩ : b = backslash ∧ u = 0x75 := by simpa using hbu
    rw [isBody_number hread, isBody_number hlow] at hs
    exact .pair hread hhigh hlow hl (ih ht hs)
  | case14 c hc e he h1 h2 h3 h4 rest n hread hlow hhigh ih =>
    obtain ⟨t, ht, rfl⟩ := Option.map_eq_some_iff.mp h
    obtain rfl : c = backslash := Decidable.of_not_not hc
    obtain rfl : e = 0x75 := Decidable.of_not_not he
    rw [isBody_number hread] at hs
    exact .number hread (ih ht hs)
  | _ => cases h

/-- Replacing the escapes gives the text that the grammar gives, unless it has surrogates. -/
theorem unescape_of_body (h : Body s t) (ht : t.IsEncodable) :
    isBody s = true ∧ unescape s = some t := by
  induction h with
  | nil => exact ⟨rfl, rfl⟩
  | @point c s t hq hb hv h ih =>
    obtain ⟨hbody, hu⟩ := ih (Text.isEncodable_cons.mp ht).2
    rw [isBody_point hq hb, unescape_point hb hv, hu]
    exact ⟨hbody, rfl⟩
  | @letter e c s t he h ih =>
    obtain ⟨hbody, hu⟩ := ih (Text.isEncodable_cons.mp ht).2
    rw [isBody_escaped, unescape_letter he, hu]
    exact ⟨hbody, rfl⟩
  | @number h1 h2 h3 h4 n s t hn h ih =>
    obtain ⟨hc, ht⟩ := Text.isEncodable_cons.mp ht
    obtain ⟨hbody, hu⟩ := ih ht
    have := read_four_lt hn
    rw [Utf8.not_isSurrogate, Fin.val_ofNat, Nat.mod_eq_of_lt (by omega)] at hc
    rw [isBody_number hn, unescape_number hn hc, hu]
    exact ⟨hbody, rfl⟩
  | pair hn hh hm hl h ih =>
    obtain ⟨hbody, hu⟩ := ih (Text.isEncodable_cons.mp ht).2
    rw [isBody_number hn, isBody_number hm, unescape_pair hn hh hm hl, hu]
    exact ⟨hbody, rfl⟩

-- ---------------------------------------------------------------------------
-- From the text to the grammar
-- ---------------------------------------------------------------------------

/-- What has been read of a token that is not finished. -/
def Place.begun : Place → Text
  | .between => []
  | .quoted reversed => quotationMark :: reversed.reverse
  | .word reversed => reversed.reverse

def Place.IsOpen : Place → Prop
  | .quoted reversed => isBody reversed.reverse = true
  | _ => True

/-- Behind what has been read of a token the text goes on as the grammar has it. -/
theorem spelled_of_lexFrom (h : lexFrom place t = some ts) (hp : place.IsOpen)
    (hb : ∀ token ∈ ts, isBounded token = true) : Spelled ts (place.begun ++ t) := by
  have step {token : Token} {s t : Text} {ts : List Token}
      (h : (lexFrom .between t).map (token :: ·) = some ts)
      (hb : ∀ token ∈ ts, isBounded token = true)
      (hs : isBounded token = true → Spelling token s)
      (ih : ∀ {ts}, lexFrom .between t = some ts → (∀ token ∈ ts, isBounded token = true) →
        Spelled ts t) : Spelled ts (s ++ t) := by
    obtain ⟨rest, hrest, rfl⟩ := Option.map_eq_some_iff.mp h
    obtain ⟨htoken, hb⟩ := List.forall_mem_cons.mp hb
    exact .token (hs htoken) (ih hrest hb)
  fun_induction lexFrom place t generalizing ts with
  | case1 =>
    cases h
    exact .nil
  | case4 c rest hc ih => exact .blank hc (ih h trivial hb)
  | case5 rest hc ih => exact ih h rfl hb
  | case6 c rest _ _ token htoken ih =>
    exact step (s := [c]) h hb (fun _ => .mark htoken) (ih · trivial)
  | case7 c rest _ _ _ _ ih => exact ih h trivial hb
  | case8 c rest _ _ _ _ s hs ih =>
    exact step (s := [c]) h hb (fun hb => .word (word?_eq_some_iff.mp ⟨hs, hb⟩)) (ih · trivial)
  | case10 reversed rest t hu ih =>
    have hs := body_of_unescape hu hp
    simpa [Place.begun] using step h hb (fun _ => .text hs) (ih · trivial)
  | case13 reversed d rest hq ih =>
    have hopen : isBody (d :: backslash :: reversed).reverse = true := by
      simp [isBody_append hp, isBody, hq]
    simpa [Place.begun] using ih h hopen hb
  | case14 reversed c rest hq hc ih =>
    have hopen : isBody (c :: reversed).reverse = true := by
      simp [isBody_append hp, isBody, hq, hc]
    simpa [Place.begun] using ih h hopen hb
  | case15 reversed c rest _ ih => simpa [Place.begun] using ih h trivial hb
  | case16 reversed c rest _ s hs ih =>
    have hspelled := step h hb (fun hb => .word (word?_eq_some_iff.mp ⟨hs, hb⟩)) (ih · trivial)
    simpa [Place.begun] using hspelled
  | _ => cases h

-- ---------------------------------------------------------------------------
-- From the grammar to the tokens
-- ---------------------------------------------------------------------------

theorem tokenText_of_mark (h : punctuation? c = some token) :
    tokenText token = [c] ∧ isWord token = false ∧ isBounded token = true := by
  unfold punctuation? at h
  repeat' split at h
  all_goals cases h
  all_goals
    subst c
    exact ⟨rfl, rfl, rfl⟩

theorem lexFrom_blank (h : isBlank c = true) (rest : Text) :
    lexFrom .between (c :: rest) = lexFrom .between rest := by
  rw [lexFrom.eq_def]
  simp only [h, if_true]

theorem continuesWord_spelled (h : Spelled ts t) (hts : ts.head?.any isWord = false) :
    continuesWord t = false := by
  cases h with
  | nil => rfl
  | blank hc => simp [continuesWord, isWordPoint, hc]
  | token hs =>
    cases hs with
    | mark h => simp [continuesWord, isWordPoint, h]
    | text => rfl
    | word h =>
      rw [List.head?_cons, Option.any_some, isWord_of_word h] at hts
      cases hts

/-- No number in a document is out of range, since none is spelled so. -/
theorem isBounded_of_spelled (h : Spelled ts t) : ∀ token ∈ ts, isBounded token = true := by
  induction h with
  | nil => exact List.forall_mem_nil _
  | blank _ _ ih => exact ih
  | token hs _ ih =>
    refine List.forall_mem_cons.mpr ⟨?_, ih⟩
    cases hs with
    | mark h => exact (tokenText_of_mark h).2.2
    | text => rfl
    | word h => exact (word?_eq_some_iff.mpr h).2

namespace State

theorem beginValue_word (h : beginValue stack token = some s) (hw : isWord token = true) :
    ∃ j, s = deliver j stack := by
  unfold beginValue at h
  split at h
  · exact ⟨_, (Option.some.inj h).symm⟩
  · cases hw
  · cases hw
  · cases h

theorem step_word {s s' : State} (h : s.step token = some s') (hw : isWord token = true) :
    ∃ j stack, s' = deliver j stack := by
  unfold step at h
  split at h
  case h_1 stack =>
    obtain ⟨j, rfl⟩ := beginValue_word h hw
    exact ⟨j, stack, rfl⟩
  case h_3 stack _ =>
    obtain ⟨j, rfl⟩ := beginValue_word h hw
    exact ⟨j, _, rfl⟩
  case h_12 => cases h
  all_goals cases hw

theorem step_deliver (h : (deliver j stack).step token = some s) : isWord token = false := by
  cases token with
  | scalar x =>
    cases stack with
    | nil => cases h
    | cons frame stack => cases frame <;> cases h
  | _ => rfl

theorem head_of_run_word {s s' s'' : State} (h : s.step token = some s')
    (hw : isWord token = true) (hr : s'.run ts = some s'') : ts.head?.any isWord = false := by
  cases ts with
  | nil => rfl
  | cons next rest =>
    rw [run] at hr
    split at hr
    · obtain ⟨j, stack, rfl⟩ := step_word h hw
      exact step_deliver ‹_›
    · cases hr

end State

/-- Spellings of tokens that the machine takes are read as these tokens. -/
theorem lexFrom_spelled (h : Spelled ts t) (hts : TextsEncodable ts) {s s' : State}
    (hr : s.run ts = some s') : lexFrom .between t = some ts := by
  induction h generalizing s with
  | nil => rfl
  | blank hc _ ih => rw [lexFrom_blank hc, ih hts hr]
  | @token token w ts t hs h ih =>
    rw [State.run] at hr
    split at hr
    · rename_i next hnext
      have hrest := ih (fun u hu => hts u (List.mem_cons_of_mem _ hu)) hr
      suffices hread : lexFrom .between (w ++ t) = (lexFrom .between t).map (token :: ·) by
        rw [hread, hrest, Option.map_some]
      cases hs with
      | mark hc =>
        obtain ⟨htext, hword, -⟩ := tokenText_of_mark hc
        rw [← htext]
        exact lexFrom_token hword t
      | text hbody =>
        obtain ⟨hs, hu⟩ := unescape_of_body hbody (hts _ List.mem_cons_self)
        simpa using lexFrom_quoted hs hu t
      | word hw =>
        -- a word ends where it should: the machine took it, so no other one follows
        exact lexFrom_word hw
          (continuesWord_spelled h (State.head_of_run_word hnext (isWord_of_word hw) hr))
    · cases hr

-- ---------------------------------------------------------------------------
-- Documents
-- ---------------------------------------------------------------------------

theorem isDocument_of_read (h : read t = some j) : IsDocument t j := by
  have htexts := read_isEncodable h
  unfold read at h
  split at h
  · cases h
  rename_i hsurrogate
  obtain ⟨hparse, hbounded⟩ := Option.filter_eq_some_iff.mp h
  obtain ⟨ts, hlex, hj⟩ := Option.bind_eq_some_iff.mp hparse
  obtain rfl := tokens_of_ofTokens? hj
  exact {
    characters := Text.isEncodable_iff.mp (Bool.eq_false_iff.mpr hsurrogate)
    spelled := spelled_of_lexFrom hlex trivial (List.all_eq_true.mp hbounded)
    texts := htexts
    depth := nesting_of_ofTokens? hj }

theorem read_of_isDocument (h : IsDocument t j) : read t = some j := by
  have hj := ofTokens?_tokens h.depth
  have hlex : lex t = some j.tokens := by
    unfold ofTokens? at hj
    split at hj
    · exact lexFrom_spelled h.spelled h.texts ‹_›
    · cases hj
  have hparse : parse t = some j := by
    rw [parse, hlex, Option.bind_some, hj]
  have hbounded := List.all_eq_true.mpr (isBounded_of_spelled h.spelled)
  rw [read, Text.isEncodable_iff.mpr h.characters, hparse]
  simp [hbounded]

/-- A text is read exactly if it is a document, as the value that it is a document of. -/
theorem read_eq_some_iff {t : Text} : read t = some j ↔ IsDocument t j :=
  ⟨isDocument_of_read, read_of_isDocument⟩

end EnvelopeVault.Json
