import EnvelopeVault.Json.Reader
import EnvelopeVault.Proofs.JsonText

/-!
# Reading JSON documents

The machine takes the tokens of a value to the state in which the value is
delivered (`run_tokens`), as long as its containers are not nested too deeply.
The other way round, each state stands for the tokens that lead to it, and a
step adds its own (`tokens_step`); so what is read has exactly the tokens it was
read from (`tokens_of_ofTokens?`), and it is not nested too deeply
(`nesting_of_ofTokens?`).
-/

namespace EnvelopeVault.Json

-- ---------------------------------------------------------------------------
-- Between commas
-- ---------------------------------------------------------------------------

def separated : List (List Token) → List Token
  | [] => []
  | [group] => group
  | group :: rest => group ++ .comma :: separated rest

def memberToken (member : Text × Json) : List Token :=
  .scalar (.text member.1) :: .colon :: member.2.tokens

theorem itemTokens_eq (items : List Json) : itemTokens items = separated (items.map tokens) := by
  induction items with
  | nil => rfl
  | cons j rest ih =>
    cases rest with
    | nil => rfl
    | cons k rest => exact congrArg (j.tokens ++ .comma :: ·) ih

theorem memberTokens_eq (members : List (Text × Json)) :
    memberTokens members = separated (members.map memberToken) := by
  induction members with
  | nil => rfl
  | cons first rest ih =>
    cases rest with
    | nil => rfl
    | cons second rest => exact congrArg (memberToken first ++ .comma :: ·) ih

def followed (groups : List (List Token)) : List Token := groups.flatMap (· ++ [.comma])

theorem separated_snoc (groups : List (List Token)) (last : List Token) :
    separated (groups ++ [last]) = followed groups ++ last := by
  induction groups with
  | nil => rfl
  | cons group rest ih =>
    have hcons : separated (group :: rest ++ [last]) =
        group ++ .comma :: separated (rest ++ [last]) := by
      cases rest <;> rfl
    rw [hcons, ih]
    simp [followed]

theorem followed_snoc (groups : List (List Token)) (last : List Token) :
    followed (groups ++ [last]) = followed groups ++ (last ++ [.comma]) := by
  simp [followed]

theorem itemTokens_snoc (items : List Json) (j : Json) :
    itemTokens (items ++ [j]) = followed (items.map tokens) ++ j.tokens := by
  rw [itemTokens_eq, List.map_append]
  exact separated_snoc ..

theorem memberTokens_snoc (members : List (Text × Json)) (member : Text × Json) :
    memberTokens (members ++ [member]) =
      followed (members.map memberToken) ++ memberToken member := by
  rw [memberTokens_eq, List.map_append]
  exact separated_snoc ..

theorem mem_separated {groups : List (List Token)} (hg : group ∈ groups) (h : token ∈ group) :
    token ∈ separated groups := by
  induction groups with
  | nil => cases hg
  | cons first rest ih =>
    cases rest with
    | nil =>
      cases List.mem_singleton.mp hg
      exact h
    | cons second rest =>
      rcases List.mem_cons.mp hg with rfl | hg
      · exact List.mem_append_left _ h
      · exact List.mem_append_right _ (List.mem_cons_of_mem _ (ih hg))

theorem of_mem_separated {groups : List (List Token)} (h : token ∈ separated groups) :
    token = .comma ∨ ∃ group ∈ groups, token ∈ group := by
  induction groups with
  | nil => cases h
  | cons first rest ih =>
    cases rest with
    | nil => exact .inr ⟨first, List.mem_cons_self, h⟩
    | cons second rest =>
      rcases List.mem_append.mp h with h | h
      · exact .inr ⟨first, List.mem_cons_self, h⟩
      · rcases List.mem_cons.mp h with rfl | h
        · exact .inl rfl
        · exact (ih h).imp_right fun ⟨group, hg, hm⟩ => ⟨group, List.mem_cons_of_mem _ hg, hm⟩

theorem mem_tokens_of_member {members : List (Text × Json)} (hm : (name, j) ∈ members)
    (h : token ∈ j.tokens) : token ∈ (object members).tokens := by
  have hmember : token ∈ memberToken (name, j) :=
    List.mem_cons_of_mem _ (List.mem_cons_of_mem _ h)
  rw [tokens, memberTokens_eq]
  exact List.mem_cons_of_mem _ (List.mem_append_left _
    (mem_separated (List.mem_map_of_mem hm) hmember))

-- ---------------------------------------------------------------------------
-- What the machine accepts
-- ---------------------------------------------------------------------------

mutual
def nesting : Json → Nat
  | .scalar _ => 0
  | .array items => itemsNesting items + 1
  | .object members => membersNesting members + 1

def itemsNesting : List Json → Nat
  | [] => 0
  | j :: rest => max j.nesting (itemsNesting rest)

def membersNesting : List (Text × Json) → Nat
  | [] => 0
  | (_, j) :: rest => max j.nesting (membersNesting rest)
end

theorem itemsNesting_snoc (items : List Json) (j : Json) :
    itemsNesting (items ++ [j]) = max j.nesting (itemsNesting items) := by
  induction items with
  | nil => rfl
  | cons first rest ih =>
    rw [List.cons_append, itemsNesting, itemsNesting, ih]
    omega

theorem itemsNesting_reverse (items : List Json) :
    itemsNesting items.reverse = itemsNesting items := by
  induction items with
  | nil => rfl
  | cons j rest ih => rw [List.reverse_cons, itemsNesting_snoc, ih, itemsNesting]

theorem membersNesting_eq (members : List (Text × Json)) :
    membersNesting members = itemsNesting (members.map Prod.snd) := by
  induction members with
  | nil => rfl
  | cons member rest ih => rw [membersNesting, ih, List.map_cons, itemsNesting]

theorem membersNesting_reverse (members : List (Text × Json)) :
    membersNesting members.reverse = membersNesting members := by
  rw [membersNesting_eq, List.map_reverse, itemsNesting_reverse, membersNesting_eq]

namespace State

theorem run_cons {s s' : State} (h : s.step token = some s') (rest : List Token) :
    s.run (token :: rest) = s'.run rest := by
  rw [run, h]

theorem step_openArray {stack : List Frame} (h : stack.length < maxDepth) :
    (value stack).step .openArray = some (.firstItem stack) := by
  rw [step, beginValue, if_pos h]

theorem step_openObject {stack : List Frame} (h : stack.length < maxDepth) :
    (value stack).step .openObject = some (.firstName stack) := by
  rw [step, beginValue, if_pos h]

theorem run_firstItem (j : Json) (items : List Json) (stack : List Frame) (rest : List Token) :
    (firstItem stack).run (itemTokens (j :: items) ++ rest) =
      (value (.item [] :: stack)).run (itemTokens (j :: items) ++ rest) := by
  cases items <;> cases j <;> rfl

theorem run_firstName (member : Text × Json) (members : List (Text × Json)) (stack : List Frame)
    (rest : List Token) :
    (firstName stack).run (memberTokens (member :: members) ++ rest) =
      (nextName [] stack).run (memberTokens (member :: members) ++ rest) := by
  cases members <;> rfl

mutual
/-- The tokens of a value lead from where it is to begin to where it is delivered. -/
theorem run_tokens : ∀ (j : Json) (stack : List Frame) (rest : List Token),
    stack.length + j.nesting ≤ maxDepth →
      (value stack).run (j.tokens ++ rest) = (deliver j stack).run rest
  | .scalar s, stack, rest, _ => rfl
  | .array [], stack, rest, h => by
    rw [nesting] at h
    exact run_cons (step_openArray (by omega)) (.closeArray :: rest)
  | .array (j :: items), stack, rest, h => by
    rw [nesting] at h
    have htokens : (Json.array (j :: items)).tokens ++ rest =
        .openArray :: (itemTokens (j :: items) ++ .closeArray :: rest) := by
      simp [tokens]
    rw [htokens, run_cons (step_openArray (by omega)), run_firstItem]
    exact run_itemTokens j items [] stack rest (by omega)
  | .object [], stack, rest, h => by
    rw [nesting] at h
    exact run_cons (step_openObject (by omega)) (.closeObject :: rest)
  | .object (member :: members), stack, rest, h => by
    rw [nesting] at h
    have htokens : (Json.object (member :: members)).tokens ++ rest =
        .openObject :: (memberTokens (member :: members) ++ .closeObject :: rest) := by
      simp [tokens]
    rw [htokens, run_cons (step_openObject (by omega)), run_firstName]
    exact run_memberTokens member members [] stack rest (by omega)
termination_by j => sizeOf j

theorem run_itemTokens : ∀ (j : Json) (items reversed : List Json) (stack : List Frame)
    (rest : List Token), stack.length + itemsNesting (j :: items) < maxDepth →
      (value (.item reversed :: stack)).run (itemTokens (j :: items) ++ .closeArray :: rest) =
        (deliver (.array (reversed.reverse ++ j :: items)) stack).run rest
  | j, [], reversed, stack, rest, h => by
    rw [itemsNesting] at h
    rw [itemTokens,
      run_tokens j (.item reversed :: stack) _ (by simp only [List.length_cons]; omega),
      deliver, run_cons rfl]
    simp
  | j, k :: items, reversed, stack, rest, h => by
    rw [itemsNesting] at h
    have htokens : itemTokens (j :: k :: items) ++ .closeArray :: rest =
        j.tokens ++ .comma :: (itemTokens (k :: items) ++ .closeArray :: rest) := by
      simp [itemTokens]
    rw [htokens, run_tokens j (.item reversed :: stack) _ (by simp only [List.length_cons]; omega),
      deliver, run_cons rfl, run_itemTokens k items (j :: reversed) stack rest (by omega)]
    simp
termination_by j items => sizeOf (j :: items)

theorem run_memberTokens : ∀ (member : Text × Json) (members reversed : List (Text × Json))
    (stack : List Frame) (rest : List Token),
    stack.length + membersNesting (member :: members) < maxDepth →
      (nextName reversed stack).run (memberTokens (member :: members) ++ .closeObject :: rest) =
        (deliver (.object (reversed.reverse ++ member :: members)) stack).run rest
  | (name, j), [], reversed, stack, rest, h => by
    rw [membersNesting] at h
    have htokens : memberTokens [(name, j)] ++ .closeObject :: rest =
        .scalar (.text name) :: .colon :: (j.tokens ++ .closeObject :: rest) :=
      rfl
    rw [htokens, run_cons rfl, run_cons rfl,
      run_tokens j (.member reversed name :: stack) _ (by simp only [List.length_cons]; omega),
      deliver, run_cons rfl]
    simp
  | (name, j), next :: members, reversed, stack, rest, h => by
    rw [membersNesting] at h
    have htokens : memberTokens ((name, j) :: next :: members) ++ .closeObject :: rest =
        .scalar (.text name) :: .colon ::
          (j.tokens ++ .comma :: (memberTokens (next :: members) ++ .closeObject :: rest)) := by
      simp [memberTokens]
    rw [htokens, run_cons rfl, run_cons rfl,
      run_tokens j (.member reversed name :: stack) _ (by simp only [List.length_cons]; omega),
      deliver, run_cons rfl,
      run_memberTokens next members ((name, j) :: reversed) stack rest (by omega)]
    simp
termination_by member members => sizeOf (member :: members)
end

-- ---------------------------------------------------------------------------
-- What the machine has read
-- ---------------------------------------------------------------------------

/-- The tokens of the containers that are open, up to where a value is to begin. -/
def stackTokens : List Frame → List Token
  | [] => []
  | .item reversed :: stack =>
    stackTokens stack ++ .openArray :: followed (reversed.map Json.tokens).reverse
  | .member reversed name :: stack =>
    stackTokens stack ++ .openObject ::
      (followed (reversed.map memberToken).reverse ++ [.scalar (.text name), .colon])

def tokens : State → List Token
  | .value stack => stackTokens stack
  | .firstItem stack => stackTokens stack ++ [.openArray]
  | .afterItem reversed stack => stackTokens stack ++ .openArray :: itemTokens reversed.reverse
  | .firstName stack => stackTokens stack ++ [.openObject]
  | .nextName reversed stack =>
    stackTokens stack ++ .openObject :: followed (reversed.map memberToken).reverse
  | .colon reversed name stack =>
    stackTokens stack ++ .openObject ::
      (followed (reversed.map memberToken).reverse ++ [.scalar (.text name)])
  | .afterMember reversed stack =>
    stackTokens stack ++ .openObject :: memberTokens reversed.reverse
  | .finished j => j.tokens

def IsStarted : State → Prop
  | .afterItem reversed _ => reversed ≠ []
  | .afterMember reversed _ => reversed ≠ []
  | _ => True

theorem isStarted_deliver (j : Json) (stack : List Frame) : (deliver j stack).IsStarted := by
  cases stack with
  | nil => trivial
  | cons frame stack => cases frame <;> exact List.cons_ne_nil _ _

theorem tokens_deliver (j : Json) (stack : List Frame) :
    (deliver j stack).tokens = stackTokens stack ++ j.tokens := by
  cases stack with
  | nil => rfl
  | cons frame stack =>
    cases frame with
    | item reversed => simp [deliver, tokens, stackTokens, itemTokens_snoc]
    | member reversed name =>
      simp [deliver, tokens, stackTokens, memberTokens_snoc, memberToken]

theorem tokens_beginValue (h : beginValue stack token = some s) :
    s.tokens = stackTokens stack ++ [token] ∧ s.IsStarted := by
  unfold beginValue at h
  split at h
  · cases h
    exact ⟨tokens_deliver .., isStarted_deliver ..⟩
  · split at h <;> cases h
    exact ⟨rfl, trivial⟩
  · split at h <;> cases h
    exact ⟨rfl, trivial⟩
  · cases h

theorem tokens_step {s s' : State} (h : s.step token = some s') (hs : s.IsStarted) :
    s'.tokens = s.tokens ++ [token] ∧ s'.IsStarted := by
  have delivered (j : Json) (stack : List Frame) {read : List Token}
      (hread : read = stackTokens stack ++ j.tokens) :
      (deliver j stack).tokens = read ∧ (deliver j stack).IsStarted :=
    ⟨(tokens_deliver j stack).trans hread.symm, isStarted_deliver ..⟩
  unfold step at h
  split at h
  case h_1 stack => exact tokens_beginValue h
  case h_2 stack =>
    cases h
    exact delivered _ _ (by simp [tokens, Json.tokens, itemTokens])
  case h_3 stack _ =>
    obtain ⟨htokens, hstarted⟩ := tokens_beginValue h
    exact ⟨by simpa [tokens, stackTokens, followed] using htokens, hstarted⟩
  case h_4 reversed stack =>
    cases h
    obtain ⟨j, reversed, rfl⟩ := List.exists_cons_of_ne_nil hs
    exact ⟨by simp [tokens, stackTokens, itemTokens_snoc, followed_snoc], trivial⟩
  case h_5 reversed stack =>
    cases h
    exact delivered _ _ (by simp [tokens, Json.tokens])
  case h_6 stack =>
    cases h
    exact delivered _ _ (by simp [tokens, Json.tokens, memberTokens])
  case h_7 stack t =>
    cases h
    exact ⟨by simp [tokens, followed], trivial⟩
  case h_8 reversed stack t =>
    cases h
    exact ⟨by simp [tokens], trivial⟩
  case h_9 reversed t stack =>
    cases h
    exact ⟨by simp [tokens, stackTokens], trivial⟩
  case h_10 reversed stack =>
    cases h
    obtain ⟨member, reversed, rfl⟩ := List.exists_cons_of_ne_nil hs
    exact ⟨by simp [tokens, memberTokens_snoc, followed_snoc], trivial⟩
  case h_11 reversed stack =>
    cases h
    exact delivered _ _ (by simp [tokens, Json.tokens])
  case h_12 => cases h

theorem tokens_run {s s' : State} (h : s.run ts = some s') (hs : s.IsStarted) :
    s'.tokens = s.tokens ++ ts := by
  induction ts generalizing s with
  | nil =>
    cases h
    rw [List.append_nil]
  | cons token rest ih =>
    rw [run] at h
    split at h
    · rename_i next hnext
      obtain ⟨htokens, hstarted⟩ := tokens_step hnext hs
      rw [ih h hstarted, htokens, List.append_assoc, List.singleton_append]
    · cases h

-- ---------------------------------------------------------------------------
-- How deep the machine goes
-- ---------------------------------------------------------------------------

/-- No open container is too deep, nor is what it holds. -/
def StackFits : List Frame → Prop
  | [] => True
  | .item reversed :: stack =>
    stack.length + 1 + itemsNesting reversed ≤ maxDepth ∧ StackFits stack
  | .member reversed _ :: stack =>
    stack.length + 1 + membersNesting reversed ≤ maxDepth ∧ StackFits stack

def Fits : State → Prop
  | .value stack => StackFits stack
  | .firstItem stack => StackFits (.item [] :: stack)
  | .afterItem reversed stack => StackFits (.item reversed :: stack)
  | .firstName stack => StackFits (.member [] [] :: stack)
  | .nextName reversed stack => StackFits (.member reversed [] :: stack)
  | .colon reversed name stack => StackFits (.member reversed name :: stack)
  | .afterMember reversed stack => StackFits (.member reversed [] :: stack)
  | .finished j => j.nesting ≤ maxDepth

theorem fits_deliver (hj : stack.length + j.nesting ≤ maxDepth) (hs : StackFits stack) :
    (deliver j stack).Fits := by
  cases stack with
  | nil => simpa [deliver, Fits] using hj
  | cons frame stack =>
    rw [List.length_cons] at hj
    cases frame with
    | item reversed =>
      obtain ⟨hheld, hs⟩ := hs
      refine ⟨?_, hs⟩
      rw [itemsNesting]
      omega
    | member reversed name =>
      obtain ⟨hheld, hs⟩ := hs
      refine ⟨?_, hs⟩
      rw [membersNesting]
      omega

theorem length_le_of_stackFits (h : StackFits stack) : stack.length ≤ maxDepth := by
  cases stack with
  | nil => exact Nat.zero_le _
  | cons frame stack =>
    rw [List.length_cons]
    cases frame <;> exact Nat.le_trans (Nat.le_add_right _ _) h.1

theorem fits_beginValue (h : beginValue stack token = some s) (hs : StackFits stack) :
    s.Fits := by
  unfold beginValue at h
  split at h
  · cases h
    exact fits_deliver (length_le_of_stackFits hs) hs
  · split at h <;> cases h
    exact ⟨‹_›, hs⟩
  · split at h <;> cases h
    exact ⟨‹_›, hs⟩
  · cases h

theorem fits_step {s s' : State} (h : s.step token = some s') (hs : s.Fits) : s'.Fits := by
  unfold step at h
  split at h
  case h_1 stack => exact fits_beginValue h hs
  case h_2 stack =>
    cases h
    exact fits_deliver hs.1 hs.2
  case h_3 stack _ => exact fits_beginValue h hs
  case h_5 reversed stack =>
    cases h
    refine fits_deliver ?_ hs.2
    rw [nesting, itemsNesting_reverse]
    have := hs.1
    omega
  case h_6 stack =>
    cases h
    exact fits_deliver hs.1 hs.2
  case h_11 reversed stack =>
    cases h
    refine fits_deliver ?_ hs.2
    rw [nesting, membersNesting_reverse]
    have := hs.1
    omega
  case h_12 => cases h
  all_goals
    cases h
    exact hs

theorem fits_run {s s' : State} (h : s.run ts = some s') (hs : s.Fits) : s'.Fits := by
  induction ts generalizing s with
  | nil =>
    cases h
    exact hs
  | cons token rest ih =>
    rw [run] at h
    split at h
    · exact ih h (fits_step ‹_› hs)
    · cases h

end State

-- ---------------------------------------------------------------------------
-- Documents
-- ---------------------------------------------------------------------------

/-- A value has the tokens that it was read from. -/
theorem tokens_of_ofTokens? (h : ofTokens? ts = some j) : j.tokens = ts := by
  unfold ofTokens? at h
  split at h
  · rename_i hrun
    cases h
    exact State.tokens_run hrun trivial
  · cases h

theorem ofTokens?_tokens (h : j.nesting ≤ State.maxDepth) : ofTokens? j.tokens = some j := by
  have hrun : (State.value []).run j.tokens = some (.finished j) := by
    simpa [State.run, State.deliver] using State.run_tokens j [] [] (by simpa using h)
  rw [ofTokens?, hrun]

theorem nesting_of_ofTokens? (h : ofTokens? ts = some j) : j.nesting ≤ State.maxDepth := by
  unfold ofTokens? at h
  split at h
  · rename_i hrun
    cases h
    exact State.fits_run hrun trivial
  · cases h

/-- A printed value without words and surrogates is read as itself. -/
theorem read_print {j : Json} (hw : ∀ token ∈ j.tokens, isWord token = false)
    (ht : TextsEncodable j.tokens) (hn : j.nesting ≤ State.maxDepth) : read j.print = some j := by
  have hencodable := Text.isEncodable_iff.mpr (isEncodable_spelled hw ht)
  have hparse : parse j.print = some j := by
    rw [parse, print, lex_spelled hw, Option.bind_some, ofTokens?_tokens hn]
  have hbounded : j.tokens.all isBounded = true := by
    refine List.all_eq_true.mpr fun token htoken => ?_
    cases token with
    | scalar s =>
      cases s with
      | int n => cases hw _ htoken
      | _ => rfl
    | _ => rfl
  rw [read, print, hencodable, ← print, hparse]
  simp [hbounded]

theorem read_isEncodable (h : read t = some j) : TextsEncodable j.tokens := by
  unfold read at h
  split at h
  · cases h
  · rename_i hsurrogate
    obtain ⟨hparse, -⟩ := Option.filter_eq_some_iff.mp h
    obtain ⟨ts, hlex, hj⟩ := Option.bind_eq_some_iff.mp hparse
    rw [tokens_of_ofTokens? hj]
    exact lex_isEncodable hlex (Text.isEncodable_iff.mp (Bool.eq_false_iff.mpr hsurrogate))

-- ---------------------------------------------------------------------------
-- Objects of texts
-- ---------------------------------------------------------------------------

def ofTexts (texts : List (Text × Text)) : Json :=
  .object (texts.map fun (name, text) => (name, .scalar (.text text)))

theorem mem_tokens_ofTexts {texts : List (Text × Text)} (h : token ∈ (ofTexts texts).tokens) :
    isWord token = false ∧
      ∀ t, token = .scalar (.text t) → ∃ pair ∈ texts, t = pair.1 ∨ t = pair.2 := by
  rw [ofTexts, tokens, memberTokens_eq, List.map_map] at h
  rcases List.mem_cons.mp h with rfl | h
  · exact ⟨rfl, nofun⟩
  rcases List.mem_append.mp h with h | h
  · rcases of_mem_separated h with rfl | ⟨group, hgroup, h⟩
    · exact ⟨rfl, nofun⟩
    · obtain ⟨pair, hpair, rfl⟩ := List.mem_map.mp hgroup
      simp only [Function.comp_apply, memberToken, tokens, List.mem_cons, List.not_mem_nil,
        or_false] at h
      obtain rfl | rfl | rfl := h
      · exact ⟨rfl, fun t ht => ⟨pair, hpair, .inl (by cases ht; rfl)⟩⟩
      · exact ⟨rfl, nofun⟩
      · exact ⟨rfl, fun t ht => ⟨pair, hpair, .inr (by cases ht; rfl)⟩⟩
  · cases List.mem_singleton.mp h
    exact ⟨rfl, nofun⟩

theorem nesting_ofTexts (texts : List (Text × Text)) : (ofTexts texts).nesting = 1 := by
  have hmembers :
      membersNesting (texts.map fun (name, text) => (name, .scalar (.text text))) = 0 := by
    induction texts with
    | nil => rfl
    | cons pair rest ih => simp [membersNesting, nesting, ih]
  rw [ofTexts, nesting, hmembers]

theorem read_print_ofTexts {texts : List (Text × Text)}
    (h : ∀ pair ∈ texts, pair.1.IsEncodable ∧ pair.2.IsEncodable) :
    read (ofTexts texts).print = some (ofTexts texts) := by
  refine read_print (fun token ht => (mem_tokens_ofTexts ht).1) (fun t ht => ?_) ?_
  · obtain ⟨pair, hpair, rfl | rfl⟩ := (mem_tokens_ofTexts ht).2 t rfl
    · exact (h pair hpair).1
    · exact (h pair hpair).2
  · rw [nesting_ofTexts]
    decide

end EnvelopeVault.Json
