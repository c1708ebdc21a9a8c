import WeightedGrammar.Token.Lexer

/-!
What a scan finds, by the character at the front. `Finding` lists the lexemes, `Passing` the blanks
and comments, and a scan gives what they list (`scan_eq_found_iff`, `scan_eq_gap_iff`). What a scan
leaves is the text behind some place (`suffix_of_found`, `suffix_of_gap`).
-/

namespace WeightedGrammar
open Text Lexeme

/-! ### Character classes -/

theorem not_inTable_of_disjoint {table other : List CodeRange}
    (apart : (table.all fun r =>
      other.all fun s => decide (r.2 < s.1) || decide (s.2 < r.1)) = true)
    {c : Char} (inside : inTable table c = true) : inTable other c = false := by
  simp only [inTable, List.any_eq_true, List.any_eq_false, CodeRange.holds, Bool.and_eq_true,
    decide_eq_true_eq] at inside ⊢
  obtain ⟨r, isRange, low, high⟩ := inside
  intro s isOther
  simp only [List.all_eq_true, Bool.or_eq_true, decide_eq_true_eq] at apart
  have := apart r isRange s isOther
  omega

theorem isBlank_of_isWord {c : Char} (word : isWord c = true) : isBlank c = false := by
  unfold isWord at word
  unfold isBlank
  split at word
  · exact not_inTable_of_disjoint (by decide +kernel) word
  · exact not_inTable_of_disjoint (by decide +kernel) word

theorem ne_of_isWord {c d : Char} (word : isWord c = true) (notWord : isWord d = false) :
    c ≠ d := by
  rintro rfl
  rw [word] at notWord
  cases notWord

theorem ne_of_isNameStart {c d : Char} (start : isNameStart c = true)
    (notWord : isWord d = false) : c ≠ d :=
  ne_of_isWord (isWord_of_isNameStart start) notWord

theorem not_isQuote_of_isWord {c : Char} (word : isWord c = true) : isQuote c = false := by
  simp [isQuote, ne_of_isWord word (show isWord '\'' = false by decide),
    ne_of_isWord word (show isWord '"' = false by decide)]

/-! ### What stands at the front -/

theorem scan_of_isNameStart {c : Char} {cs : List Char} (start : isNameStart c = true) :
    scan c cs =
      .found (.name (String.ofList (c :: cs.takeWhile isWord))) (cs.dropWhile isWord) := by
  have notGap : isGap c = false := by
    simp [isGap, ne_of_isNameStart start (show isWord ' ' = false by decide),
      ne_of_isNameStart start (show isWord '\t' = false by decide),
      ne_of_isNameStart start (show isWord '\r' = false by decide)]
  have notQuote := not_isQuote_of_isWord (isWord_of_isNameStart start)
  unfold scan
  simp [notGap, notQuote, start, ne_of_isNameStart start (show isWord '#' = false by decide),
    ne_of_isNameStart start (show isWord '/' = false by decide),
    ne_of_isNameStart start (show isWord '\n' = false by decide),
    ne_of_isNameStart start (show isWord ';' = false by decide),
    ne_of_isNameStart start (show isWord '%' = false by decide),
    ne_of_isNameStart start (show isWord '=' = false by decide)]

theorem scan_of_isQuote {mark : Char} {cs body rest : List Char} (quote : isQuote mark = true)
    (taken : takeQuoted? mark cs = some (body, rest)) :
    scan mark cs = .found (.literal (String.ofList body)) rest := by
  have isMark : mark = '\'' ∨ mark = '"' := by simpa [isQuote] using quote
  rcases isMark with rfl | rfl
  · simp [scan, isGap, quote, taken]
  · simp [scan, isGap, quote, taken]

/-- The text `c :: cs` begins with the lexeme, and this is the text behind it. A state without a
value may leave an equals sign that no value follows. -/
inductive Finding (c : Char) (cs : List Char) : Lexeme → List Char → Prop where
  | feed (isFeed : c = '\n') : Finding c cs (.lineBreak .feed) cs
  | semicolon (isSemicolon : c = ';') : Finding c cs (.lineBreak .semicolon) cs
  | literal {body rest : List Char} (quote : isQuote c = true)
      (taken : takeQuoted? c cs = some (body, rest)) :
      Finding c cs (.literal (String.ofList body)) rest
  | weight (percent : c = '%') :
      Finding c cs (.weight (String.ofList (cs.takeWhile isWeightChar))) (cs.dropWhile isWeightChar)
  | state (equals : c = '=') (named : cs.takeWhile isWord ≠ [])
      (alone : (cs.dropWhile isWord).head? ≠ some '=') :
      Finding c cs (.state (String.ofList (cs.takeWhile isWord)) none) (cs.dropWhile isWord)
  | assigned {more value rest : List Char} (equals : c = '=') (named : cs.takeWhile isWord ≠ [])
      (behind : cs.dropWhile isWord = '=' :: more) (taken : takeValue? more = some (value, rest)) :
      Finding c cs (.state (String.ofList (cs.takeWhile isWord)) (some (String.ofList value))) rest
  | unassigned {more : List Char} (equals : c = '=') (named : cs.takeWhile isWord ≠ [])
      (behind : cs.dropWhile isWord = '=' :: more) (noValue : takeValue? more = none) :
      Finding c cs (.state (String.ofList (cs.takeWhile isWord)) none) ('=' :: more)
  | name (start : isNameStart c = true) :
      Finding c cs (.name (String.ofList (c :: cs.takeWhile isWord))) (cs.dropWhile isWord)
  | sign {l : Lexeme} {rest : List Char} (isSign : scanSign c cs = .found l rest) :
      Finding c cs l rest

/-- The text `c :: cs` begins with a blank or a comment, and this is the text behind it. -/
inductive Passing (c : Char) (cs : List Char) : List Char → Prop where
  | blank (isBlank : isGap c = true) : Passing c cs cs
  | comment (marked : c = '#' ∨ c = '/' ∧ cs.head? = some '/') :
      Passing c cs (cs.dropWhile (· != '\n'))

variable {c : Char} {cs rest : List Char} {l : Lexeme}

theorem finding_of_scanState (scanned : scanState cs = .found l rest) : Finding '=' cs l rest := by
  unfold scanState at scanned
  dsimp only at scanned
  split at scanned
  · cases scanned
  rename_i filled
  have named : cs.takeWhile isWord ≠ [] := by simpa using filled
  split at scanned
  · rename_i more behind
    split at scanned
    · rename_i taken
      cases scanned
      exact .assigned rfl named behind taken
    · rename_i noValue
      cases scanned
      rw [behind]
      exact .unassigned rfl named behind noValue
  · rename_i notEquals
    cases scanned
    refine .state rfl named fun isEquals => ?_
    obtain ⟨more, behind⟩ := List.head?_eq_some_iff.mp isEquals
    exact notEquals more behind

theorem finding_of_scan (scanned : scan c cs = .found l rest) : Finding c cs l rest := by
  unfold scan at scanned
  split at scanned
  · cases scanned
  split at scanned
  · cases scanned
  split at scanned
  · rename_i isFeed
    cases scanned
    exact .feed (beq_iff_eq.mp isFeed)
  split at scanned
  · rename_i isSemicolon
    cases scanned
    exact .semicolon (beq_iff_eq.mp isSemicolon)
  split at scanned
  · rename_i quote
    split at scanned
    · rename_i taken
      cases scanned
      exact .literal quote taken
    · cases scanned
  split at scanned
  · rename_i percent
    cases scanned
    exact .weight (beq_iff_eq.mp percent)
  split at scanned
  · rename_i equals
    rw [beq_iff_eq.mp equals]
    exact finding_of_scanState scanned
  split at scanned
  · rename_i start
    cases scanned
    exact .name start
  · exact .sign scanned

/-- A lexeme is found if and only if it is listed. -/
theorem scan_eq_found_iff : scan c cs = .found l rest ↔ Finding c cs l rest := by
  refine ⟨finding_of_scan, fun finding => ?_⟩
  cases finding with
  | feed isFeed => subst isFeed; rfl
  | semicolon isSemicolon => subst isSemicolon; rfl
  | literal quote taken => exact scan_of_isQuote quote taken
  | weight percent => subst percent; rfl
  | state equals named alone =>
    subst equals
    show scanState cs = _
    cases behind : cs.dropWhile isWord with
    | nil => simp [scanState, named, behind]
    | cons d ds =>
      have other : d ≠ '=' := by simpa [behind] using alone
      simp [scanState, named, behind, other]
  | assigned equals named behind taken =>
    subst equals
    show scanState cs = _
    simp [scanState, named, behind, taken]
  | unassigned equals named behind noValue =>
    subst equals
    show scanState cs = _
    simp [scanState, named, behind, noValue]
  | name start => exact scan_of_isNameStart start
  | sign isSign =>
    unfold scanSign at isSign
    split at isSign <;> cases isSign <;> rfl

theorem scanState_ne_gap : scanState cs ≠ .gap rest := by
  unfold scanState
  dsimp only
  split
  · simp
  split
  · split <;> simp
  · simp

theorem scanSign_ne_gap : scanSign c cs ≠ .gap rest := by
  unfold scanSign
  split <;> simp

/-- Text is passed over if and only if it is a blank or a comment. -/
theorem scan_eq_gap_iff : scan c cs = .gap rest ↔ Passing c cs rest := by
  constructor
  · intro scanned
    unfold scan at scanned
    split at scanned
    · rename_i isBlank
      cases scanned
      exact .blank isBlank
    split at scanned
    · rename_i marked
      cases scanned
      exact .comment (by simpa using marked)
    split at scanned
    · cases scanned
    split at scanned
    · cases scanned
    split at scanned
    · split at scanned <;> cases scanned
    split at scanned
    · cases scanned
    split at scanned
    · exact absurd scanned scanState_ne_gap
    split at scanned
    · cases scanned
    · exact absurd scanned scanSign_ne_gap
  · rintro (isBlank | marked)
    · simp [scan, isBlank]
    · rcases marked with rfl | ⟨rfl, second⟩
      · rfl
      · show scan '/' cs = _
        simp [scan, isGap, second]

/-! ### What a scan leaves -/

theorem suffix_of_takeQuoted? {mark : Char} {body : List Char}
    (h : takeQuoted? mark cs = some (body, rest)) : rest <:+ cs := by
  have dropped := List.dropWhile_suffix (l := cs) fun c => c != mark && c != '\n'
  unfold takeQuoted? at h
  dsimp only at h
  split at h
  · cases h
  · rename_i found
    split at h
    · cases h
      rw [found] at dropped
      exact (List.suffix_cons ..).trans dropped
    · cases h

theorem suffix_of_takeValue? {value : List Char} (h : takeValue? cs = some (value, rest)) :
    rest <:+ cs := by
  cases cs with
  | nil => cases h
  | cons c cs =>
    simp only [takeValue?] at h
    split at h
    · exact (suffix_of_takeQuoted? h).trans (List.suffix_cons ..)
    · split at h
      · cases h
        exact (List.dropWhile_suffix _).trans (List.suffix_cons ..)
      · cases h

/-- Behind the first character, a lexeme leaves the text behind some place. -/
theorem suffix_of_found (scanned : scan c cs = .found l rest) : rest <:+ cs := by
  have behindWord : cs.dropWhile isWord <:+ cs := List.dropWhile_suffix _
  cases scan_eq_found_iff.mp scanned with
  | feed => exact List.suffix_rfl
  | semicolon => exact List.suffix_rfl
  | literal quote taken => exact suffix_of_takeQuoted? taken
  | weight => exact List.dropWhile_suffix _
  | state => exact behindWord
  | assigned equals named behind taken =>
    rw [behind] at behindWord
    exact ((suffix_of_takeValue? taken).trans (List.suffix_cons ..)).trans behindWord
  | unassigned equals named behind noValue =>
    rw [behind] at behindWord
    exact behindWord
  | name => exact behindWord
  | sign isSign =>
    unfold scanSign at isSign
    split at isSign <;> cases isSign <;> simp

theorem suffix_of_gap (scanned : scan c cs = .gap rest) : rest <:+ cs := by
  cases scan_eq_gap_iff.mp scanned with
  | blank => exact List.suffix_rfl
  | comment => exact List.dropWhile_suffix _

end WeightedGrammar
