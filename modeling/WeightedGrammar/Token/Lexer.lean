import WeightedGrammar.LoadError
import WeightedGrammar.Text.Blank
import WeightedGrammar.Text.Word

/-!
From text to tokens. `scan` reads what stands at the front of a text; `tokensFrom` repeats it and
counts lines. Comments and the blanks of a line yield no token, and each scan leaves less text
(`length_rest_scan_le`).
-/

namespace WeightedGrammar.Lexeme
open Text

/-! ### Character classes -/

def isGap (c : Char) : Bool := c == ' ' || c == '\t' || c == '\r'

def isQuote (c : Char) : Bool := c == '\'' || c == '"'

def isWeightChar (c : Char) : Bool :=
  !(isBlank c || isQuote c || c == '\x7b' || c == '\x7d' || c == '(' || c == ')')

/-- A character that a state value may hold without quotes. -/
def isValueChar (c : Char) : Bool :=
  !(isBlank c || isQuote c || c == '\x7b' || c == '\x7d' || c == ';' || c == '=')

/-! ### One lexeme -/

/-- The text up to a quotation mark on the same line, and what follows the mark. -/
def takeQuoted? (mark : Char) (cs : List Char) : Option (List Char × List Char) :=
  let inside := fun c => c != mark && c != '\n'
  match cs.dropWhile inside with
  | [] => none
  | c :: rest => if c == mark then some (cs.takeWhile inside, rest) else none

/-- A state value, between quotes or bare, and what follows it. -/
def takeValue? : List Char → Option (List Char × List Char)
  | [] => none
  | c :: cs =>
    if isQuote c then takeQuoted? c cs
    else if isValueChar c then some (c :: cs.takeWhile isValueChar, cs.dropWhile isValueChar)
    else none

/-- What stands at the front of a text. -/
inductive Scan where
  | gap (rest : List Char)
  | found (lexeme : Lexeme) (rest : List Char)
  | fault (cause : LoadCause)

/-- A state expression, from behind its equals sign. A second sign that no value follows is not
part of it. -/
def scanState (cs : List Char) : Scan :=
  let name := cs.takeWhile isWord
  let rest := cs.dropWhile isWord
  if name.isEmpty then .fault (.unexpectedCharacter '=')
  else
    match rest with
    | '=' :: more =>
      match takeValue? more with
      | some (value, behind) =>
        .found (.state (String.ofList name) (some (String.ofList value))) behind
      | none => .found (.state (String.ofList name) none) rest
    | _ => .found (.state (String.ofList name) none) rest

def scanSign (c : Char) (cs : List Char) : Scan :=
  match c, cs with
  | '&', '&' :: rest => .found .andSign rest
  | '|', '|' :: rest => .found .orSign rest
  | '!', _ => .found .notSign cs
  | '(', _ => .found .openParen cs
  | ')', _ => .found .closeParen cs
  | '\x7b', _ => .found .openBrace cs
  | '\x7d', _ => .found .closeBrace cs
  | '?', _ => .found .question cs
  | _, _ => .fault (.unexpectedCharacter c)

/-- The first lexeme, blank or comment of the text `c :: cs`. -/
def scan (c : Char) (cs : List Char) : Scan :=
  if isGap c then .gap cs
  else if c == '#' || (c == '/' && cs.head? == some '/') then .gap (cs.dropWhile (· != '\n'))
  else if c == '\n' then .found (.lineBreak .feed) cs
  else if c == ';' then .found (.lineBreak .semicolon) cs
  else if isQuote c then
    match takeQuoted? c cs with
    | some (body, rest) => .found (.literal (String.ofList body)) rest
    | none => .fault .unterminatedLiteral
  else if c == '%' then
    .found (.weight (String.ofList (cs.takeWhile isWeightChar))) (cs.dropWhile isWeightChar)
  else if c == '=' then scanState cs
  else if isNameStart c then
    .found (.name (String.ofList (c :: cs.takeWhile isWord))) (cs.dropWhile isWord)
  else scanSign c cs

/-! ### What a scan leaves -/

def Scan.rest : Scan → List Char
  | gap rest => rest
  | found _ rest => rest
  | fault _ => []

theorem length_dropWhile_le (p : Char → Bool) (cs : List Char) :
    (cs.dropWhile p).length ≤ cs.length :=
  (List.dropWhile_sublist p).length_le

theorem length_of_takeQuoted? {mark : Char} {cs body rest : List Char}
    (h : takeQuoted? mark cs = some (body, rest)) : rest.length < cs.length := by
  unfold takeQuoted? at h
  have shorter := length_dropWhile_le (fun c => c != mark && c != '\n') cs
  dsimp only at h
  split at h
  · simp at h
  · rename_i c tail dropped
    split at h
    · simp only [Option.some.injEq, Prod.mk.injEq] at h
      obtain ⟨-, rfl⟩ := h
      rw [dropped, List.length_cons] at shorter
      omega
    · simp at h

theorem length_of_takeValue? {cs value rest : List Char}
    (h : takeValue? cs = some (value, rest)) : rest.length < cs.length := by
  cases cs with
  | nil => simp [takeValue?] at h
  | cons c cs =>
    simp only [takeValue?] at h
    split at h
    · have := length_of_takeQuoted? h
      simp only [List.length_cons]
      omega
    · split at h
      · simp only [Option.some.injEq, Prod.mk.injEq] at h
        obtain ⟨-, rfl⟩ := h
        have := length_dropWhile_le isValueChar cs
        simp only [List.length_cons]
        omega
      · simp at h

theorem length_rest_scanState_le (cs : List Char) : (scanState cs).rest.length ≤ cs.length := by
  have shorter := length_dropWhile_le isWord cs
  unfold scanState
  dsimp only
  split
  · simp [Scan.rest]
  · split
    · rename_i more dropped
      split
      · rename_i taken
        have := length_of_takeValue? taken
        rw [dropped, List.length_cons] at shorter
        simp only [Scan.rest]
        omega
      · simpa [Scan.rest, dropped] using shorter
    · simpa [Scan.rest] using shorter

theorem length_rest_scanSign_le (c : Char) (cs : List Char) :
    (scanSign c cs).rest.length ≤ cs.length := by
  unfold scanSign
  split <;> simp [Scan.rest]

theorem length_rest_scan_le (c : Char) (cs : List Char) : (scan c cs).rest.length ≤ cs.length := by
  unfold scan
  split
  · exact Nat.le_refl _
  split
  · exact length_dropWhile_le _ cs
  split
  · exact Nat.le_refl _
  split
  · exact Nat.le_refl _
  split
  · split
    · rename_i taken
      exact Nat.le_of_lt (length_of_takeQuoted? taken)
    · exact Nat.zero_le _
  split
  · exact length_dropWhile_le _ cs
  split
  · exact length_rest_scanState_le cs
  split
  · exact length_dropWhile_le _ cs
  · exact length_rest_scanSign_le c cs

end WeightedGrammar.Lexeme

namespace WeightedGrammar.Token
open Lexeme

/-! ### All tokens -/

/-- The tokens of a text whose first line has the given number. The last one is the end of input. -/
def tokensFrom (line : Nat) (text : List Char) : Except LoadError (List Token) :=
  match text with
  | [] => .ok [⟨.endOfInput, line⟩]
  | c :: cs =>
    match _scanned : scan c cs with
    | .fault cause => .error ⟨line, cause⟩
    | .gap rest => tokensFrom line rest
    | .found lexeme rest => (tokensFrom (lexeme.lineAfter line) rest).map (⟨lexeme, line⟩ :: ·)
termination_by text.length
decreasing_by
  all_goals
    have shorter := length_rest_scan_le c cs
    rw [_scanned] at shorter
    exact Nat.lt_succ_of_le shorter

def ofText (text : String) : Except LoadError (List Token) := tokensFrom 1 text.toList

end WeightedGrammar.Token
