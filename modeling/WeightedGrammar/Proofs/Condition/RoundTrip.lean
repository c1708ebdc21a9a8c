import WeightedGrammar.Proofs.Grammar.RoundTrip

/-!
Round trips of conditions. Nothing is put in parentheses when a tree is written, so its text is that
of its lexemes and may be read as another tree. The lexemes of every tree are an expression
(`exists_normal`), and a text over names is read as the one normal tree over its lexemes; the trees
that come back as they were are the normal ones (`Condition.reads_toText`).
-/

namespace WeightedGrammar

/-! ### Expressions that are joined -/

namespace Condition.Expresses
variable {α : Type} {m : Meaning α} {level : Level} {ls rs : List Lexeme} {a b : α}

-- A sign binds to the operands next to it, so it goes into the derivation at its side: `!` into the
-- first operand, `&&` into the last conjunction on its left and the first one on its right.

theorem exists_neg (child : Expresses m level ls a) :
    ∃ c, Expresses m level (.notSign :: ls) c := by
  induction child with
  | name rule => exact ⟨_, .neg (.name rule)⟩
  | group inner _ => exact ⟨_, .neg (.group inner)⟩
  | neg child _ => exact ⟨_, .neg (.neg child)⟩
  | operand _ ih =>
    obtain ⟨_, negated⟩ := ih
    exact ⟨_, .operand negated⟩
  | conj _ right ih _ =>
    obtain ⟨_, negated⟩ := ih
    exact ⟨_, .conj negated right⟩
  | conjunction _ ih =>
    obtain ⟨_, negated⟩ := ih
    exact ⟨_, .conjunction negated⟩
  | disj _ right ih _ =>
    obtain ⟨_, negated⟩ := ih
    exact ⟨_, .disj negated right⟩

theorem exists_conj_conjunctions (left : Expresses m .conjunction ls a)
    (right : Expresses m .conjunction rs b) :
    ∃ c, Expresses m .conjunction (ls ++ .andSign :: rs) c := by
  generalize isLevel : Level.conjunction = level at right
  induction right with
  | operand alone _ => exact ⟨_, .conj left alone⟩
  | conj _ last ih _ =>
    obtain ⟨_, joined⟩ := ih isLevel
    simpa using (⟨_, .conj joined last⟩ : ∃ c, Expresses m .conjunction _ c)
  | _ => cases isLevel

theorem exists_conj_conjunction (left : Expresses m .disjunction ls a)
    (right : Expresses m .conjunction rs b) :
    ∃ c, Expresses m .disjunction (ls ++ .andSign :: rs) c := by
  cases left with
  | conjunction alone =>
    obtain ⟨_, joined⟩ := exists_conj_conjunctions alone right
    exact ⟨_, .conjunction joined⟩
  | disj first last =>
    obtain ⟨_, joined⟩ := exists_conj_conjunctions last right
    simpa using (⟨_, .disj first joined⟩ : ∃ c, Expresses m .disjunction _ c)

theorem exists_conj (left : Expresses m .disjunction ls a) (right : Expresses m .disjunction rs b) :
    ∃ c, Expresses m .disjunction (ls ++ .andSign :: rs) c := by
  generalize isLevel : Level.disjunction = level at right
  induction right with
  | conjunction alone _ => exact exists_conj_conjunction left alone
  | disj _ last ih _ =>
    obtain ⟨_, joined⟩ := ih isLevel
    simpa using (⟨_, .disj joined last⟩ : ∃ c, Expresses m .disjunction _ c)
  | _ => cases isLevel

theorem exists_disj (left : Expresses m .disjunction ls a) (right : Expresses m .disjunction rs b) :
    ∃ c, Expresses m .disjunction (ls ++ .orSign :: rs) c := by
  generalize isLevel : Level.disjunction = level at right
  induction right with
  | conjunction alone _ => exact ⟨_, .disj left alone⟩
  | disj _ last ih _ =>
    obtain ⟨_, joined⟩ := ih isLevel
    simpa using (⟨_, .disj joined last⟩ : ∃ c, Expresses m .disjunction _ c)
  | _ => cases isLevel

end Condition.Expresses

namespace Condition

theorem exists_expresses (c : Condition) : ∃ d, Expresses .tree .disjunction c.flatten d := by
  induction c with
  | fired rule => exact ⟨_, (Expresses.name rule).ofOperand .disjunction⟩
  | conj _ _ ihLeft ihRight =>
    obtain ⟨_, left⟩ := ihLeft
    obtain ⟨_, right⟩ := ihRight
    exact left.exists_conj right
  | disj _ _ ihLeft ihRight =>
    obtain ⟨_, left⟩ := ihLeft
    obtain ⟨_, right⟩ := ihRight
    exact left.exists_disj right
  | neg _ ih =>
    obtain ⟨_, child⟩ := ih
    exact child.exists_neg
  | group _ ih =>
    obtain ⟨_, child⟩ := ih
    exact ⟨_, child.group.ofOperand .disjunction⟩

/-- Every tree has a normal one over the same lexemes. -/
theorem exists_normal (c : Condition) :
    ∃ d : Condition, d.isNormal = true ∧ d.flatten = c.flatten := by
  obtain ⟨d, derived⟩ := exists_expresses c
  exact ⟨d, expresses_tree_iff.mp derived⟩

/-! ### What the lexemes determine -/

/-- How a lexeme of a condition is written, with the blanks around a binary sign. -/
def spelling : Lexeme → String
  | .name rule => rule
  | .andSign => " && "
  | .orSign => " || "
  | .notSign => "!"
  | .openParen => "("
  | .closeParen => ")"
  | _ => ""

theorem toList_toText (c : Condition) :
    c.toText.toList = c.flatten.flatMap fun l => (spelling l).toList := by
  induction c with
  | fired rule => simp [toText, flatten, spelling]
  | conj left right ihLeft ihRight => simp [toText, flatten, spelling, ihLeft, ihRight]
  | disj left right ihLeft ihRight => simp [toText, flatten, spelling, ihLeft, ihRight]
  | neg child ih => simp [toText, flatten, spelling, ih]
  | group child ih => simp [toText, flatten, spelling, ih]

theorem toText_of_flatten_eq {c d : Condition} (same : d.flatten = c.flatten) :
    d.toText = c.toText := by
  rw [← String.toList_inj, toList_toText, toList_toText, same]

theorem names_of_flatten_eq {c d : Condition} (same : d.flatten = c.flatten) :
    d.names = c.names := by
  rw [names_eq_filterMap, names_eq_filterMap, same]

/-! ### Texts of conditions -/

/-- A text of the lexemes of a normal tree is read as the tree. -/
theorem ofText_of_tokens {text : String} {ts : List Token} {c : Condition}
    (normal : c.isNormal = true) (lexed : Token.ofText text = .ok ts)
    (flat : ts.map (·.lexeme) = c.flatten ++ [.endOfInput]) : ofText text = .ok c := by
  obtain ⟨front, last, rfl, flatFront, flatLast⟩ := List.map_eq_append_iff.mp flat
  obtain ⟨⟨_, line⟩, tail, rfl, rfl, flatTail⟩ := List.map_eq_cons_iff.mp flatLast
  obtain rfl := List.map_eq_nil_iff.mp flatTail
  have stops : goesOn [⟨.endOfInput, line⟩] = false := rfl
  have whole := read_append normal flatFront stops
  obtain ⟨l, more, isFirst, starts⟩ :=
    startsCondition_of_expresses (expresses_of_normal normal .disjunction rfl)
  obtain ⟨⟨head, headLine⟩, others, rfl, rfl, -⟩ :=
    List.map_eq_cons_iff.mp (flatFront.trans isFirst)
  have noBreak : Token.skipBreaks (⟨head, headLine⟩ :: others ++ [⟨.endOfInput, line⟩]) =
      ⟨head, headLine⟩ :: others ++ [⟨.endOfInput, line⟩] := by
    cases head <;> first | rfl | cases starts
  have notEnd : head ≠ .endOfInput := by
    rintro rfl
    cases starts
  unfold ofText
  simp only [lexed, bind, Except.bind, noBreak, whole]
  simp [Token.front, notEnd, Token.skipBreaks, pure, Except.pure]

theorem skipBreaks_subset (ts : List Token) : Token.skipBreaks ts ⊆ ts := by
  fun_induction Token.skipBreaks ts with
  | case1 _ _ ts ih => exact List.Subset.trans ih (List.subset_cons_self _ ts)
  | case2 ts => exact List.Subset.refl ts

/-- What is read of a text is a normal tree over names. -/
theorem normal_of_ofText {text : String} {c : Condition} (h : ofText text = .ok c) :
    c.isNormal = true ∧ ∀ name ∈ c.names, IsName name := by
  obtain ⟨ts, lexed, h⟩ := bind_eq_ok_iff.mp h
  dsimp only at h
  split at h
  · cases h
  obtain ⟨⟨d, behind⟩, isRead, h⟩ := bind_eq_ok_iff.mp h
  obtain rfl : d = c := by
    dsimp only at h
    split at h
    · exact Except.ok.inj h
    · cases h
    · cases h
  obtain ⟨taken, split, gate⟩ := expresses_of_read isRead
  refine ⟨(expresses_tree_iff.mp gate).1, isName_of_expresses gate ?_⟩
  rw [List.forall_mem_map]
  intro t isTaken
  have inFront : t ∈ Token.skipBreaks ts := split ▸ List.mem_append_left behind isTaken
  exact isWritable_of_tokensFrom lexed t (skipBreaks_subset ts inFront)

theorem exists_tokens_of_toText {c : Condition} (names : ∀ name ∈ c.names, IsName name) :
    ∃ ts, Token.ofText c.toText = .ok ts ∧ ts.map (·.lexeme) = c.flatten ++ [.endOfInput] := by
  have stops : Stops Text.isWord [] := by simp [Stops]
  have lexed := lexed_condition names stops lexed_nil
  rw [List.append_nil] at lexed
  exact lexed 1

theorem ofText_toText_of_normal {c : Condition} (normal : c.isNormal = true)
    (names : ∀ name ∈ c.names, IsName name) : ofText c.toText = .ok c := by
  obtain ⟨ts, lexed, flat⟩ := exists_tokens_of_toText names
  exact ofText_of_tokens normal lexed flat

/-- The text of a tree over names is read as a tree with the same text and the same names in the
same order, which is the tree itself exactly if that is normal. What a text was read as is normal,
so it is read again. -/
theorem reads_toText :
    (∀ c : Condition, (∀ name ∈ c.names, IsName name) →
      ∃ again, ofText c.toText = .ok again ∧ again.toText = c.toText ∧ again.names = c.names ∧
        (again = c ↔ c.isNormal = true)) ∧
    ∀ text c, ofText text = .ok c → ofText c.toText = .ok c := by
  constructor
  · intro c names
    obtain ⟨d, normal, same⟩ := exists_normal c
    have sameText := toText_of_flatten_eq same
    have sameNames := names_of_flatten_eq same
    refine ⟨d, ?_, sameText, sameNames, ?_, fun normal' => eq_of_flatten_eq normal normal' same⟩
    · rw [← sameText]
      exact ofText_toText_of_normal normal (sameNames ▸ names)
    · rintro rfl
      exact normal
  · intro text c h
    obtain ⟨normal, names⟩ := normal_of_ofText h
    exact ofText_toText_of_normal normal names

/-- A tree that is no reading of its text: `&&` groups to the left. -/
theorem reads_toText_loose :
    let loose := conj (fired "A") (conj (fired "B") (fired "C"))
    (∀ name ∈ loose.names, IsName name) ∧
      ∃ again, ofText loose.toText = .ok again ∧ again.toText = loose.toText ∧
        again.names = loose.names ∧ again ≠ loose := by
  intro loose
  have isName : ∀ name ∈ loose.names, IsName name := by
    simp only [loose, names, List.cons_append, List.nil_append, List.forall_mem_cons]
    refine ⟨?_, ?_, ?_, by simp⟩
    · exact ⟨'A', [], rfl, by decide, List.forall_mem_nil _⟩
    · exact ⟨'B', [], rfl, by decide, List.forall_mem_nil _⟩
    · exact ⟨'C', [], rfl, by decide, List.forall_mem_nil _⟩
  obtain ⟨again, read, sameText, sameNames, same⟩ := reads_toText.1 loose isName
  exact ⟨isName, again, read, sameText, sameNames, mt same.mp (by decide)⟩

end Condition

end WeightedGrammar
