import WeightedGrammar.Grammar.Draft.Rules
import WeightedGrammar.Proofs.Except
import WeightedGrammar.Proofs.Token.Joined

/-!
Lines of tokens. The lexer goes over a text lexeme by lexeme (`Finds`). What it finds at a place
stands on the line that the feeds in front of the place lead to (`comesTo_of_tokensFrom`), and so
does an error (`comesTo_of_error`). A text that is joined to another one keeps its tokens, and its
error, on their lines (`Token.ofText_by_lines`).
-/

namespace WeightedGrammar
open Text Lexeme

/-! ### Places in a text -/

/-- Going over the text from its front, the lexer finds the lexemes and comes to `behind`. -/
inductive Finds : List Char → List Lexeme → List Char → Prop where
  | here (text : List Char) : Finds text [] text
  | gap {c : Char} {cs rest behind : List Char} {ls : List Lexeme} (scanned : scan c cs = .gap rest)
      (more : Finds rest ls behind) : Finds (c :: cs) ls behind
  | found {c : Char} {cs rest behind : List Char} {l : Lexeme} {ls : List Lexeme}
      (scanned : scan c cs = .found l rest) (more : Finds rest ls behind) :
      Finds (c :: cs) (l :: ls) behind

/-- The lexeme stands at the front of the text; at the front of none there is the end of input. -/
def Begins : List Char → Lexeme → Prop
  | [], l => l = .endOfInput
  | c :: cs, l => ∃ rest, scan c cs = .found l rest

section Places
variable {c : Char} {cs rest : List Char}

theorem exists_taken_of_gap (scanned : scan c cs = .gap rest) :
    ∃ taken, c :: cs = taken ++ rest ∧ taken.count '\n' = 0 := by
  obtain ⟨taken, isSplit⟩ := suffix_of_gap scanned
  have feeds := count_feed_of_gap scanned
  refine ⟨c :: taken, by rw [← isSplit]; rfl, ?_⟩
  rw [← isSplit, ← List.cons_append, List.count_append] at feeds
  omega

theorem exists_taken_of_found {l : Lexeme} (scanned : scan c cs = .found l rest) :
    ∃ taken, c :: cs = taken ++ rest ∧ ∀ line, l.lineAfter line = line + taken.count '\n' := by
  obtain ⟨taken, isSplit⟩ := suffix_of_found scanned
  refine ⟨c :: taken, by rw [← isSplit]; rfl, fun line => ?_⟩
  have counted := lineAfter_of_found scanned line
  rw [← isSplit, ← List.cons_append, List.count_append] at counted
  omega

end Places

/-! ### Lines -/

/-- The lexer comes to `behind` over the lexemes `ls` of the text, and stands there on the line: the
line of the front and one more for each feed in between. -/
def ComesTo (line : Nat) (text : List Char) (ls : List Lexeme) (behind : List Char)
    (there : Nat) : Prop :=
  ∃ before, text = before ++ behind ∧ Finds text ls behind ∧ there = line + before.count '\n'

namespace ComesTo
variable {c : Char} {cs rest behind : List Char} {ls : List Lexeme} {line there : Nat}

theorem here (line : Nat) (text : List Char) : ComesTo line text [] text line :=
  ⟨[], rfl, .here text, rfl⟩

theorem gap (scanned : scan c cs = .gap rest) (comes : ComesTo line rest ls behind there) :
    ComesTo line (c :: cs) ls behind there := by
  obtain ⟨taken, isSplit, noFeed⟩ := exists_taken_of_gap scanned
  obtain ⟨before, rfl, finds, rfl⟩ := comes
  refine ⟨taken ++ before, by rw [isSplit, List.append_assoc], .gap scanned finds, ?_⟩
  rw [List.count_append, noFeed, Nat.zero_add]

theorem found {l : Lexeme} (scanned : scan c cs = .found l rest)
    (comes : ComesTo (l.lineAfter line) rest ls behind there) :
    ComesTo line (c :: cs) (l :: ls) behind there := by
  obtain ⟨taken, isSplit, counted⟩ := exists_taken_of_found scanned
  obtain ⟨before, rfl, finds, rfl⟩ := comes
  refine ⟨taken ++ before, by rw [isSplit, List.append_assoc], .found scanned finds, ?_⟩
  rw [counted, List.count_append, Nat.add_assoc]

end ComesTo

/-- A token is found where the lexemes in front of it end, and stands on the line of that place. -/
theorem comesTo_of_tokensFrom {line : Nat} {text : List Char} {front back : List Token} {t : Token}
    (h : Token.tokensFrom line text = .ok (front ++ t :: back)) :
    ∃ behind, ComesTo line text (front.map (·.lexeme)) behind t.line ∧ Begins behind t.lexeme := by
  generalize tokens : front ++ t :: back = ts at h
  fun_induction Token.tokensFrom line text generalizing ts front with
  | case1 line =>
    cases h
    obtain ⟨rfl, isEnd⟩ : front = [] ∧ t :: back = [⟨.endOfInput, line⟩] := by
      simpa [List.append_eq_singleton_iff] using tokens
    cases isEnd
    exact ⟨[], .here line [], rfl⟩
  | case2 => cases h
  | case3 line c cs rest scanned ih =>
    obtain ⟨behind, comes, begins⟩ := ih _ tokens h
    exact ⟨behind, comes.gap scanned, begins⟩
  | case4 line c cs l rest scanned ih =>
    obtain ⟨more, read, rfl⟩ := map_eq_ok h
    cases front with
    | nil =>
      cases tokens
      exact ⟨c :: cs, .here line (c :: cs), rest, scanned⟩
    | cons first front =>
      obtain ⟨rfl, isRest⟩ := List.cons.inj tokens
      obtain ⟨behind, comes, begins⟩ := ih more isRest read
      exact ⟨behind, comes.found scanned, begins⟩

/-- An error is that of the scan at the place that the lexer comes to, and stands on its line. -/
theorem comesTo_of_error {line : Nat} {text : List Char} {e : LoadError}
    (h : Token.tokensFrom line text = .error e) :
    ∃ ls c cs, ComesTo line text ls (c :: cs) e.line ∧ scan c cs = .fault e.cause := by
  fun_induction Token.tokensFrom line text with
  | case1 => cases h
  | case2 line c cs cause scanned =>
    cases h
    exact ⟨[], c, cs, .here line (c :: cs), scanned⟩
  | case3 line c cs rest scanned ih =>
    obtain ⟨ls, d, ds, comes, faulty⟩ := ih h
    exact ⟨ls, d, ds, comes.gap scanned, faulty⟩
  | case4 line c cs l rest scanned ih =>
    obtain ⟨ls, d, ds, comes, faulty⟩ := ih (map_eq_error h)
    exact ⟨l :: ls, d, ds, comes.found scanned, faulty⟩

/-! ### Errors in joined texts -/

/-- The error so many lines further down. -/
def LoadError.lower (lines : Nat) (e : LoadError) : LoadError := ⟨e.line + lines, e.cause⟩

theorem tokensFrom_add_of_error {line : Nat} {cs : List Char} {e : LoadError}
    (h : Token.tokensFrom line cs = .error e) (lines : Nat) :
    Token.tokensFrom (line + lines) cs = .error (e.lower lines) := by
  fun_induction Token.tokensFrom line cs with
  | case1 => cases h
  | case2 line c cs cause scanned =>
    cases h
    exact tokensFrom_of_fault (line + lines) scanned
  | case3 line c cs rest scanned ih =>
    rw [tokensFrom_of_gap _ scanned]
    exact ih h
  | case4 line c cs l rest scanned ih =>
    rw [tokensFrom_of_found _ scanned, lineAfter_add, ih (map_eq_error h)]
    rfl

theorem tokensFrom_append_feed_of_error {line : Nat} {cs : List Char} {e : LoadError}
    (h : Token.tokensFrom line cs = .error e) (more : List Char) :
    Token.tokensFrom line (cs ++ '\n' :: more) = .error e := by
  fun_induction Token.tokensFrom line cs with
  | case1 => cases h
  | case2 line c cs cause scanned =>
    cases h
    have scannedOn : scan c (cs ++ '\n' :: more) = .fault cause := by
      rw [scan_append_feed, scanned]
      rfl
    exact tokensFrom_of_fault line scannedOn
  | case3 line c cs rest scanned ih =>
    have scannedOn : scan c (cs ++ '\n' :: more) = .gap (rest ++ '\n' :: more) := by
      rw [scan_append_feed, scanned]
      rfl
    rw [List.cons_append, tokensFrom_of_gap line scannedOn, ih h]
  | case4 line c cs l rest scanned ih =>
    have scannedOn : scan c (cs ++ '\n' :: more) = .found l (rest ++ '\n' :: more) := by
      rw [scan_append_feed, scanned]
      rfl
    rw [List.cons_append, tokensFrom_of_found line scannedOn, ih (map_eq_error h)]
    rfl

theorem toList_joined (first second : String) :
    (first ++ "\n" ++ second).toList = first.toList ++ '\n' :: second.toList := by simp

/-- Joined by a line feed, two texts have the tokens of the first one but its end, a line break, and
the tokens of the second one further down. The error of the first text comes first; that of the
second one is further down. The line of a token or of an error counts the feeds in front of it. -/
theorem Token.ofText_by_lines (first second : String) :
    (∀ ts ts', ofText first = .ok ts → ofText second = .ok ts' →
      ∃ front, ts = front ++ [⟨.endOfInput, feeds first + 1⟩] ∧
        ofText (first ++ "\n" ++ second) =
          .ok (front ++ ⟨.lineBreak .feed, feeds first + 1⟩ ::
            ts'.map (·.lower (feeds first + 1)))) ∧
    (∀ e, ofText first = .error e → ofText (first ++ "\n" ++ second) = .error e) ∧
    (∀ ts e, ofText first = .ok ts → ofText second = .error e →
      ofText (first ++ "\n" ++ second) = .error (e.lower (feeds first + 1))) ∧
    (∀ front t back, ofText first = .ok (front ++ t :: back) →
      ∃ behind, ComesTo 1 first.toList (front.map (·.lexeme)) behind t.line ∧
        Begins behind t.lexeme) ∧
    ∀ e, ofText first = .error e →
      ∃ ls c cs, ComesTo 1 first.toList ls (c :: cs) e.line ∧ scan c cs = .fault e.cause := by
  refine ⟨fun ts ts' lexed lexed' => tokens_joined lexed lexed', fun e failed => ?_,
    fun ts e lexed failed => ?_, fun front t back lexed => comesTo_of_tokensFrom lexed,
    fun e failed => comesTo_of_error failed⟩
  · rw [ofText, toList_joined]
    exact tokensFrom_append_feed_of_error failed second.toList
  · obtain ⟨front, -, joined⟩ := tokensFrom_append_feed lexed
    have behind := tokensFrom_add_of_error failed (feeds first + 1)
    rw [← Nat.add_assoc] at behind
    rw [ofText, toList_joined, joined, ← feeds, behind]
    rfl

/-- The head of a rule and its first line. -/
def openingText : String := "A \x7b // first\n 'a'"

/-- The end of a rule, and a literal without an end. -/
def brokenText : String := "\x7d\n'b"

theorem Token.ofText_by_lines_broken :
    ofText (openingText ++ "\n" ++ openingText) =
      .ok [⟨.name "A", 1⟩, ⟨.openBrace, 1⟩, ⟨.lineBreak .feed, 1⟩, ⟨.literal "a", 2⟩,
        ⟨.lineBreak .feed, 2⟩, ⟨.name "A", 3⟩, ⟨.openBrace, 3⟩, ⟨.lineBreak .feed, 3⟩,
        ⟨.literal "a", 4⟩, ⟨.endOfInput, 4⟩] ∧
    ofText (openingText ++ "\n" ++ brokenText) = .error ⟨4, .unterminatedLiteral⟩ ∧
    ofText (brokenText ++ "\n" ++ openingText) = .error ⟨2, .unterminatedLiteral⟩ ∧
    ∃ before c cs, brokenText.toList = before ++ c :: cs ∧ 2 = 1 + before.count '\n' ∧
      scan c cs = .fault .unterminatedLiteral := by
  have lexed : ofText openingText = .ok [⟨.name "A", 1⟩, ⟨.openBrace, 1⟩, ⟨.lineBreak .feed, 1⟩,
      ⟨.literal "a", 2⟩, ⟨.endOfInput, 2⟩] := by decide +kernel
  have failed : ofText brokenText = .error ⟨2, .unterminatedLiteral⟩ := by decide +kernel
  have lines : feeds openingText = 1 := by decide +kernel
  refine ⟨?_, ?_, (ofText_by_lines brokenText openingText).2.1 _ failed, ?_⟩
  · obtain ⟨front, isFront, joined⟩ := (ofText_by_lines openingText openingText).1 _ _ lexed lexed
    rw [lines] at isFront joined
    obtain rfl : front = [⟨.name "A", 1⟩, ⟨.openBrace, 1⟩, ⟨.lineBreak .feed, 1⟩,
        ⟨.literal "a", 2⟩] := (List.append_inj' (isFront.symm : front ++ [_] = _ ++ [_]) rfl).1
    exact joined
  · have behind := (ofText_by_lines openingText brokenText).2.2.1 _ _ lexed failed
    rw [lines] at behind
    exact behind
  · obtain ⟨ls, c, cs, ⟨before, isSplit, -, counted⟩, faulty⟩ :=
      (ofText_by_lines brokenText openingText).2.2.2.2 _ failed
    exact ⟨before, c, cs, isSplit, counted, faulty⟩

end WeightedGrammar
