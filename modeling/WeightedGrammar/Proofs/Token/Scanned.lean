import WeightedGrammar.Proofs.Token.Finding

/-!
What the lexer finds. Every lexeme of a text is one that can be written again, and none of them is
the end of input (`found_of_scan`). The tokens of a text follow its scans (`tokensFrom_of_gap`,
`tokensFrom_of_found`).
-/

namespace WeightedGrammar
open Text Lexeme

/-! ### Lexemes that can be written -/

/-- The text is on one line and lacks one of the quotation marks. -/
def IsEnclosable (text : String) : Prop :=
  '\n' ∉ text.toList ∧ ('\'' ∈ text.toList → '"' ∉ text.toList)

def IsName (text : String) : Prop :=
  ∃ c cs, text.toList = c :: cs ∧ isNameStart c = true ∧ ∀ d ∈ cs, isWord d = true

def IsStateKey (text : String) : Prop :=
  text.toList ≠ [] ∧ ∀ c ∈ text.toList, isWord c = true

/-- A lexeme of which the written form is found again. -/
def Lexeme.IsWritable : Lexeme → Prop
  | name text => IsName text
  | literal text => IsEnclosable text
  | state key value => IsStateKey key ∧ ∀ text ∈ value, IsEnclosable text
  | _ => True

theorem all_takeWhile {p : Char → Bool} {cs : List Char} : ∀ c ∈ cs.takeWhile p, p c = true := by
  intro c member
  have all := List.all_takeWhile (l := cs) (p := p)
  rw [List.all_eq_true] at all
  exact all c member

theorem isEnclosable_of_all {p : Char → Bool} {cs : List Char} (all : ∀ c ∈ cs, p c = true)
    (feed : p '\n' = false) (mark : p '\'' = false ∨ p '"' = false) :
    IsEnclosable (String.ofList cs) := by
  have absent : ∀ c, p c = false → c ∉ cs := by
    intro c out member
    rw [all c member] at out
    cases out
  unfold IsEnclosable
  rw [String.toList_ofList]
  refine ⟨absent _ feed, fun single => ?_⟩
  rcases mark with out | out
  · exact absurd single (absent _ out)
  · exact absent _ out

theorem isEnclosable_of_isName {text : String} (h : IsName text) : IsEnclosable text := by
  obtain ⟨c, cs, same, start, word⟩ := h
  have all : ∀ d ∈ text.toList, isWord d = true := by
    rw [same]
    exact List.forall_mem_cons.mpr ⟨isWord_of_isNameStart start, word⟩
  simpa using isEnclosable_of_all all (by decide) (.inl (by decide))

theorem isEnclosable_of_takeQuoted? {mark : Char} {cs body rest : List Char}
    (quote : isQuote mark = true) (h : takeQuoted? mark cs = some (body, rest)) :
    IsEnclosable (String.ofList body) := by
  unfold takeQuoted? at h
  dsimp only at h
  split at h
  · cases h
  · split at h
    · simp only [Option.some.injEq, Prod.mk.injEq] at h
      obtain ⟨rfl, -⟩ := h
      refine isEnclosable_of_all all_takeWhile (by simp) ?_
      simp only [isQuote, Bool.or_eq_true, beq_iff_eq] at quote
      rcases quote with rfl | rfl
      · exact .inl (by simp)
      · exact .inr (by simp)
    · cases h

theorem isEnclosable_of_takeValue? {cs value rest : List Char}
    (h : takeValue? cs = some (value, rest)) : IsEnclosable (String.ofList value) := by
  cases cs with
  | nil => cases h
  | cons c cs =>
    simp only [takeValue?] at h
    split at h
    · rename_i quote
      exact isEnclosable_of_takeQuoted? quote h
    · split at h
      · rename_i plain
        simp only [Option.some.injEq, Prod.mk.injEq] at h
        obtain ⟨rfl, -⟩ := h
        exact isEnclosable_of_all (List.forall_mem_cons.mpr ⟨plain, all_takeWhile⟩) (by decide)
          (.inl (by decide))
      · cases h

theorem isStateKey_takeWhile {cs : List Char} (named : cs.takeWhile isWord ≠ []) :
    IsStateKey (String.ofList (cs.takeWhile isWord)) := by
  unfold IsStateKey
  rw [String.toList_ofList]
  exact ⟨named, all_takeWhile⟩

theorem found_of_scan {c : Char} {cs rest : List Char} {l : Lexeme}
    (h : scan c cs = .found l rest) : l.IsWritable ∧ l ≠ .endOfInput := by
  cases scan_eq_found_iff.mp h with
  | feed => exact ⟨trivial, by simp⟩
  | semicolon => exact ⟨trivial, by simp⟩
  | literal quote taken => exact ⟨isEnclosable_of_takeQuoted? quote taken, by simp⟩
  | weight => exact ⟨trivial, by simp⟩
  | state _ named => exact ⟨⟨isStateKey_takeWhile named, by simp⟩, by simp⟩
  | assigned _ named _ taken =>
    refine ⟨⟨isStateKey_takeWhile named, ?_⟩, by simp⟩
    rintro _ ⟨⟩
    exact isEnclosable_of_takeValue? taken
  | unassigned _ named => exact ⟨⟨isStateKey_takeWhile named, by simp⟩, by simp⟩
  | name start => exact ⟨⟨c, cs.takeWhile isWord, by simp, start, all_takeWhile⟩, by simp⟩
  | sign isSign =>
    unfold scanSign at isSign
    split at isSign <;> cases isSign <;> exact ⟨trivial, by simp⟩

/-! ### Tokens -/

section Tokens
variable {c : Char} {cs rest : List Char} (line : Nat)

theorem tokensFrom_of_fault {cause : LoadCause} (scanned : scan c cs = .fault cause) :
    Token.tokensFrom line (c :: cs) = .error ⟨line, cause⟩ := by
  rw [Token.tokensFrom]
  split
  · rename_i again
    rw [scanned] at again
    cases again
    rfl
  · rename_i again
    rw [scanned] at again
    cases again
  · rename_i again
    rw [scanned] at again
    cases again

theorem tokensFrom_of_gap (scanned : scan c cs = .gap rest) :
    Token.tokensFrom line (c :: cs) = Token.tokensFrom line rest := by
  rw [Token.tokensFrom]
  split
  · rename_i again
    rw [scanned] at again
    cases again
  · rename_i again
    rw [scanned] at again
    cases again
    rfl
  · rename_i again
    rw [scanned] at again
    cases again

theorem tokensFrom_of_found {l : Lexeme} (scanned : scan c cs = .found l rest) :
    Token.tokensFrom line (c :: cs) =
      (Token.tokensFrom (l.lineAfter line) rest).map (⟨l, line⟩ :: ·) := by
  rw [Token.tokensFrom]
  split
  · rename_i again
    rw [scanned] at again
    cases again
  · rename_i again
    rw [scanned] at again
    cases again
  · rename_i again
    rw [scanned] at again
    cases again
    rfl

end Tokens

theorem isWritable_of_tokensFrom {line : Nat} {cs : List Char} {ts : List Token}
    (h : Token.tokensFrom line cs = .ok ts) : ∀ t ∈ ts, t.lexeme.IsWritable := by
  fun_induction Token.tokensFrom line cs generalizing ts with
  | case1 line =>
    cases h
    simp [Lexeme.IsWritable]
  | case2 => cases h
  | case3 line c cs rest scanned ih => exact ih h
  | case4 line c cs l rest scanned ih =>
    cases read : Token.tokensFrom (l.lineAfter line) rest with
    | error e => simp [read, Except.map] at h
    | ok more =>
      simp only [read, Except.map, Except.ok.injEq] at h
      subst h
      exact List.forall_mem_cons.mpr ⟨(found_of_scan scanned).1, ih read⟩

end WeightedGrammar
