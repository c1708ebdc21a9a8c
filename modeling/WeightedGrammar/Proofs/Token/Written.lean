import WeightedGrammar.Grammar.Printer
import WeightedGrammar.Proofs.Token.Scanned

/-!
Written lexemes. What the printer writes for a writable lexeme is found again in front of any text
that does not run on with it.
-/

namespace WeightedGrammar
open Text Lexeme

/-! ### Runs of characters -/

/-- A run of characters of the class does not go on into the text. -/
def Stops (p : Char → Bool) (rest : List Char) : Prop := ∀ c ∈ rest.head?, p c = false

theorem takeWhile_append_of_stops {p : Char → Bool} {cs rest : List Char}
    (all : ∀ c ∈ cs, p c = true) (stops : Stops p rest) : (cs ++ rest).takeWhile p = cs := by
  rw [List.takeWhile_append_of_pos all]
  cases rest with
  | nil => simp
  | cons c rest => simp [stops c rfl]

theorem dropWhile_append_of_stops {p : Char → Bool} {cs rest : List Char}
    (all : ∀ c ∈ cs, p c = true) (stops : Stops p rest) : (cs ++ rest).dropWhile p = rest := by
  rw [List.dropWhile_append_of_pos all]
  cases rest with
  | nil => rfl
  | cons c rest => simp [stops c rfl]

/-! ### Reading what is written -/

/-- The lexemes of the text, on whatever line it begins. -/
def Lexed (text : List Char) (ls : List Lexeme) : Prop :=
  ∀ line, ∃ ts, Token.tokensFrom line text = .ok ts ∧ ts.map (·.lexeme) = ls

theorem lexed_nil : Lexed [] [.endOfInput] :=
  fun line => ⟨[⟨.endOfInput, line⟩], by rw [Token.tokensFrom], rfl⟩

theorem lexed_of_gap {c : Char} {cs rest : List Char} {ls : List Lexeme}
    (scanned : scan c cs = .gap rest) (h : Lexed rest ls) : Lexed (c :: cs) ls := by
  intro line
  rw [tokensFrom_of_gap line scanned]
  exact h line

theorem lexed_of_found {c : Char} {cs rest : List Char} {l : Lexeme} {ls : List Lexeme}
    (scanned : scan c cs = .found l rest) (h : Lexed rest ls) : Lexed (c :: cs) (l :: ls) := by
  intro line
  obtain ⟨ts, read, same⟩ := h (l.lineAfter line)
  refine ⟨⟨l, line⟩ :: ts, ?_, by rw [List.map_cons, same]⟩
  rw [tokensFrom_of_found line scanned, read]
  rfl

variable {rest : List Char} {ls : List Lexeme}

theorem lexed_space (h : Lexed rest ls) : Lexed (' ' :: rest) ls := lexed_of_gap rfl h

theorem lexed_feed (h : Lexed rest ls) : Lexed ('\n' :: rest) (.lineBreak .feed :: ls) :=
  lexed_of_found rfl h

theorem lexed_openBrace (h : Lexed rest ls) : Lexed ('\x7b' :: rest) (.openBrace :: ls) :=
  lexed_of_found rfl h

theorem lexed_closeBrace (h : Lexed rest ls) : Lexed ('\x7d' :: rest) (.closeBrace :: ls) :=
  lexed_of_found rfl h

theorem lexed_question (h : Lexed rest ls) : Lexed ('?' :: rest) (.question :: ls) :=
  lexed_of_found rfl h

theorem lexed_notSign (h : Lexed rest ls) : Lexed ('!' :: rest) (.notSign :: ls) :=
  lexed_of_found rfl h

theorem lexed_openParen (h : Lexed rest ls) : Lexed ('(' :: rest) (.openParen :: ls) :=
  lexed_of_found rfl h

theorem lexed_closeParen (h : Lexed rest ls) : Lexed (')' :: rest) (.closeParen :: ls) :=
  lexed_of_found rfl h

theorem lexed_andSign (h : Lexed rest ls) : Lexed ('&' :: '&' :: rest) (.andSign :: ls) :=
  lexed_of_found rfl h

theorem lexed_orSign (h : Lexed rest ls) : Lexed ('|' :: '|' :: rest) (.orSign :: ls) :=
  lexed_of_found rfl h

/-! ### Names and weights -/

theorem lexed_name {name : String} (isName : IsName name) (stops : Stops isWord rest)
    (h : Lexed rest ls) : Lexed (name.toList ++ rest) (.name name :: ls) := by
  obtain ⟨c, cs, same, start, word⟩ := isName
  have scanned : scan c (cs ++ rest) = .found (.name name) rest := by
    rw [scan_of_isNameStart start, takeWhile_append_of_stops word stops,
      dropWhile_append_of_stops word stops, ← same, String.ofList_toList]
  rw [same]
  exact lexed_of_found scanned h

theorem lexed_weight {text : String} (chars : ∀ c ∈ text.toList, isWeightChar c = true)
    (stops : Stops isWeightChar rest) (h : Lexed rest ls) :
    Lexed ('%' :: (text.toList ++ rest)) (.weight text :: ls) := by
  have scanned : scan '%' (text.toList ++ rest) = .found (.weight text) rest := by
    show Scan.found (.weight (String.ofList ((text.toList ++ rest).takeWhile isWeightChar)))
      ((text.toList ++ rest).dropWhile isWeightChar) = _
    rw [takeWhile_append_of_stops chars stops, dropWhile_append_of_stops chars stops,
      String.ofList_toList]
  exact lexed_of_found scanned h

/-! ### Texts between quotes -/

theorem takeQuoted?_append {mark : Char} {body : List Char} (rest : List Char)
    (noMark : mark ∉ body) (noFeed : '\n' ∉ body) :
    takeQuoted? mark (body ++ mark :: rest) = some (body, rest) := by
  have inside : ∀ c ∈ body, (c != mark && c != '\n') = true := by
    intro c member
    have notMark : c ≠ mark := fun same => noMark (same ▸ member)
    have notFeed : c ≠ '\n' := fun same => noFeed (same ▸ member)
    simp [notMark, notFeed]
  have stops : Stops (fun c => c != mark && c != '\n') (mark :: rest) := by
    simp [Stops]
  unfold takeQuoted?
  dsimp only
  rw [dropWhile_append_of_stops inside stops, takeWhile_append_of_stops inside stops]
  simp

theorem enquote_cases {text : String} (enclosable : IsEnclosable text) :
    ∃ mark, isQuote mark = true ∧ mark ∉ text.toList ∧
      (enquote text).toList = mark :: (text.toList ++ [mark]) := by
  unfold enquote
  by_cases single : '\'' ∈ text.toList
  · refine ⟨'"', by decide, enclosable.2 single, ?_⟩
    rw [if_pos (List.contains_iff_mem.mpr single)]
    simp
  · refine ⟨'\'', by decide, single, ?_⟩
    rw [if_neg (mt List.contains_iff_mem.mp single)]
    simp

theorem lexed_literal {text : String} (enclosable : IsEnclosable text) (h : Lexed rest ls) :
    Lexed ((enquote text).toList ++ rest) (.literal text :: ls) := by
  obtain ⟨mark, quote, noMark, same⟩ := enquote_cases enclosable
  have scanned := scan_of_isQuote quote (takeQuoted?_append rest noMark enclosable.1)
  rw [String.ofList_toList] at scanned
  rw [same, List.cons_append, List.append_assoc, List.singleton_append]
  exact lexed_of_found scanned h

/-! ### States -/

theorem isValueChar_of_isPlainChar {c : Char} (plain : isPlainChar c = true) :
    isValueChar c = true := by
  simp only [isPlainChar, Bool.and_eq_true] at plain
  exact plain.1.1.1

-- A value that is written without quotes may end in a line feed, but one that was scanned does not.
theorem isPlainChar_of_isPlainValue {value : String} (plain : isPlainValue value = true)
    (noFeed : '\n' ∉ value.toList) :
    ∃ c cs, value.toList = c :: cs ∧ ∀ d ∈ c :: cs, isPlainChar d = true := by
  have noLast : value.toList.getLast? ≠ some '\n' :=
    fun last => noFeed (List.mem_of_getLast? last)
  simp only [isPlainValue, beq_iff_eq, noLast, if_false, Bool.and_eq_true, Bool.not_eq_true',
    List.all_eq_true] at plain
  cases cs : value.toList with
  | nil => simp [cs] at plain
  | cons c cs' => exact ⟨c, cs', rfl, cs ▸ plain.2⟩

def valueText (value : String) : String := if isPlainValue value then value else enquote value

theorem takeValue?_append {value : String} (enclosable : IsEnclosable value)
    (stops : Stops isValueChar rest) :
    takeValue? ((valueText value).toList ++ rest) = some (value.toList, rest) := by
  unfold valueText
  by_cases plain : isPlainValue value = true
  · obtain ⟨c, cs, same, chars⟩ := isPlainChar_of_isPlainValue plain enclosable.1
    obtain ⟨first, more⟩ := List.forall_mem_cons.mp chars
    have valueChar := isValueChar_of_isPlainChar first
    have notQuote : isQuote c = false := by
      simp only [isValueChar, Bool.not_eq_true', Bool.or_eq_false_iff] at valueChar
      exact valueChar.1.1.1.1.2
    have moreChars : ∀ d ∈ cs, isValueChar d = true :=
      fun d member => isValueChar_of_isPlainChar (more d member)
    rw [if_pos plain, same, List.cons_append, takeValue?]
    simp [notQuote, valueChar, takeWhile_append_of_stops moreChars stops,
      dropWhile_append_of_stops moreChars stops]
  · obtain ⟨mark, quote, noMark, same⟩ := enquote_cases enclosable
    rw [if_neg plain, same, List.cons_append, List.append_assoc, List.singleton_append, takeValue?,
      if_pos quote]
    exact takeQuoted?_append rest noMark enclosable.1

/-- The text begins with the blank behind a word of a line, or with the end of the line. -/
def Separated (rest : List Char) : Prop := ∃ c more, rest = c :: more ∧ (c = ' ' ∨ c = '\n')

theorem Separated.stops {p : Char → Bool} (separated : Separated rest) (space : p ' ' = false)
    (feed : p '\n' = false) : Stops p rest := by
  obtain ⟨c, more, rfl, rfl | rfl⟩ := separated
  · simpa [Stops] using space
  · simpa [Stops] using feed

theorem scanState_key {key : String} (isKey : IsStateKey key) (stops : Stops isWord rest)
    (alone : rest.head? ≠ some '=') :
    scanState (key.toList ++ rest) = .found (.state key none) rest := by
  have filled : key.toList.isEmpty = false := by simpa using isKey.1
  unfold scanState
  dsimp only
  rw [takeWhile_append_of_stops isKey.2 stops, dropWhile_append_of_stops isKey.2 stops,
    String.ofList_toList, filled, if_neg Bool.false_ne_true]
  cases rest with
  | nil => rfl
  | cons c more =>
    have other : c ≠ '=' := by simpa using alone
    simp [other]

theorem scanState_value {key value : String} (isKey : IsStateKey key)
    (enclosable : IsEnclosable value) (stopsValue : Stops isValueChar rest) :
    scanState (key.toList ++ '=' :: ((valueText value).toList ++ rest)) =
      .found (.state key (some value)) rest := by
  have stops : Stops isWord ('=' :: ((valueText value).toList ++ rest)) := by
    rintro _ ⟨⟩
    decide
  have filled : key.toList.isEmpty = false := by simpa using isKey.1
  unfold scanState
  dsimp only
  rw [takeWhile_append_of_stops isKey.2 stops, dropWhile_append_of_stops isKey.2 stops,
    String.ofList_toList, filled, if_neg Bool.false_ne_true]
  simp [takeValue?_append enclosable stopsValue]

theorem lexed_state {s : StateExpr} (writable : (Lexeme.state s.key s.value).IsWritable)
    (separated : Separated rest) (h : Lexed rest ls) :
    Lexed (s.toText.toList ++ rest) (.state s.key s.value :: ls) := by
  obtain ⟨key, value⟩ := s
  obtain ⟨isKey, enclosable⟩ := writable
  cases value with
  | none =>
    have alone : rest.head? ≠ some '=' := by
      obtain ⟨c, more, rfl, rfl | rfl⟩ := separated <;> simp
    have scanned : scan '=' (key.toList ++ rest) = .found (.state key none) rest :=
      scanState_key isKey (separated.stops (by decide) (by decide)) alone
    simpa [StateExpr.toText] using lexed_of_found scanned h
  | some value =>
    have scanned : scan '=' (key.toList ++ '=' :: ((valueText value).toList ++ rest)) =
        .found (.state key (some value)) rest :=
      scanState_value isKey (enclosable value rfl) (separated.stops (by decide) (by decide))
    simpa [StateExpr.toText, valueText] using lexed_of_found scanned h

end WeightedGrammar
