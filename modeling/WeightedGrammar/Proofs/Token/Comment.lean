import Mathlib.Data.List.TakeWhile
import WeightedGrammar.Proofs.Token.Lines

/-!
Comments at the ends of lines. A weight and a state value without quotes take the marks of a comment
for their own characters, and nothing else does: a comment leaves the tokens as they are if and only
if the text in front of it does not end within one of these (`Token.ofText_comment_iff`).
-/

namespace WeightedGrammar
open Text Lexeme

/-- A comment with its mark. -/
def IsComment (cs : List Char) : Prop :=
  ∃ body, '\n' ∉ body ∧ (cs = '#' :: body ∨ cs = '/' :: '/' :: body)

def AtLineEnd (rest : List Char) : Prop := rest = [] ∨ ∃ more, rest = '\n' :: more

/-- A weight, or a state with a value without quotes, that goes up to the end of the text. -/
inductive IsOpenRun : List Char → Prop where
  | weight {ws : List Char} (chars : ∀ c ∈ ws, isWeightChar c = true) : IsOpenRun ('%' :: ws)
  | value {key value : List Char} (named : key ≠ []) (word : ∀ c ∈ key, isWord c = true)
      (filled : value ≠ []) (chars : ∀ c ∈ value, isValueChar c = true) :
      IsOpenRun ('=' :: (key ++ '=' :: value))

/-- The last lexeme of the text would take further characters. -/
def RunsOn (text : List Char) : Prop := ∃ ls run, Finds text ls run ∧ IsOpenRun run

/-! ### Scans in front of a comment -/

section Runs
variable {p : Char → Bool} {cs : List Char}

theorem takeWhile_append_of_stopped (stopped : cs.dropWhile p ≠ []) (tail : List Char) :
    (cs ++ tail).takeWhile p = cs.takeWhile p := by
  rw [List.takeWhile_append, if_neg]
  intro full
  have whole := congrArg List.length (List.takeWhile_append_dropWhile (p := p) (l := cs))
  rw [List.length_append, full] at whole
  exact stopped (List.eq_nil_of_length_eq_zero (by omega))

theorem dropWhile_append_of_stopped (stopped : cs.dropWhile p ≠ []) (tail : List Char) :
    (cs ++ tail).dropWhile p = cs.dropWhile p ++ tail := by
  rw [List.dropWhile_append, if_neg]
  simpa using stopped

end Runs

def BeginsComment (tail : List Char) : Prop := ∃ c more, tail = c :: more ∧ (c = '#' ∨ c = '/')

section Scans
variable {tail : List Char}

theorem IsComment.beginsComment {comment : List Char} (isComment : IsComment comment)
    (rest : List Char) : BeginsComment (comment ++ rest) := by
  obtain ⟨body, -, rfl | rfl⟩ := isComment
  · exact ⟨'#', body ++ rest, rfl, .inl rfl⟩
  · exact ⟨'/', '/' :: body ++ rest, rfl, .inr rfl⟩

theorem BeginsComment.stops_isWord (begins : BeginsComment tail) : Stops isWord tail := by
  obtain ⟨c, more, rfl, rfl | rfl⟩ := begins
  · rintro _ ⟨⟩
    decide
  · rintro _ ⟨⟩
    decide

theorem BeginsComment.takeWhile_ne_nil {p : Char → Bool} (begins : BeginsComment tail)
    (hash : p '#' = true) (slash : p '/' = true) : tail.takeWhile p ≠ [] := by
  obtain ⟨c, more, rfl, rfl | rfl⟩ := begins
  · simp [hash]
  · simp [slash]

theorem takeQuoted?_append_of_some {mark : Char} {cs body rest : List Char}
    (taken : takeQuoted? mark cs = some (body, rest)) (tail : List Char) :
    takeQuoted? mark (cs ++ tail) = some (body, rest ++ tail) := by
  unfold takeQuoted? at taken ⊢
  dsimp only at taken ⊢
  split at taken
  · cases taken
  · rename_i c more dropped
    have stopped : cs.dropWhile (fun c => c != mark && c != '\n') ≠ [] := by simp [dropped]
    rw [dropWhile_append_of_stopped stopped, takeWhile_append_of_stopped stopped, dropped]
    split at taken
    · rename_i isMark
      cases taken
      simp [isMark]
    · cases taken

/-- A value is taken as before if a quotation mark or another character ends it. -/
theorem takeValue?_append_of_some {cs value rest : List Char}
    (taken : takeValue? cs = some (value, rest)) (tail : List Char) :
    takeValue? (cs ++ tail) = some (value, rest ++ tail) ∨
      cs ≠ [] ∧ ∀ c ∈ cs, isValueChar c = true := by
  cases cs with
  | nil => cases taken
  | cons c cs =>
    simp only [takeValue?, List.cons_append] at taken ⊢
    split at taken
    · rename_i quote
      rw [if_pos quote]
      exact .inl (takeQuoted?_append_of_some taken tail)
    · rename_i notQuote
      split at taken
      · rename_i plain
        cases taken
        by_cases dropped : cs.dropWhile isValueChar = []
        · right
          exact ⟨by simp, List.forall_mem_cons.mpr ⟨plain, List.dropWhile_eq_nil_iff.mp dropped⟩⟩
        · left
          rw [if_neg notQuote, if_pos plain, takeWhile_append_of_stopped dropped,
            dropWhile_append_of_stopped dropped]
      · cases taken

/-- What a comment behind a text does to the scan at the front of it: the lexeme runs on, or the
scan is the same, or it leaves an equals sign that no value follows. -/
inductive InFront (tail : List Char) (c : Char) (cs : List Char) (l : Lexeme) (rest : List Char) :
    Prop where
  | runsOn (isRun : IsOpenRun (c :: cs))
  | same (scanned : scan c (cs ++ tail) = .found l (rest ++ tail))
  | stray (more : List Char) (isEquals : rest = '=' :: more) (noValue : takeValue? more = none)

variable {c : Char} {cs rest : List Char} {l : Lexeme}

theorem scanSign_append_of_found (scanned : scanSign c cs = .found l rest) (tail : List Char) :
    scanSign c (cs ++ tail) = .found l (rest ++ tail) := by
  unfold scanSign at scanned ⊢
  split at scanned <;> cases scanned <;> rfl

theorem inFront_of_scan (begins : BeginsComment tail) (scanned : scan c cs = .found l rest) :
    InFront tail c cs l rest := by
  have word := takeWhile_append_tail begins.stops_isWord cs
  have behindWord := dropWhile_append_tail begins.stops_isWord cs
  cases scan_eq_found_iff.mp scanned with
  | feed isFeed => exact .same (scan_eq_found_iff.mpr (.feed isFeed))
  | semicolon isSemicolon => exact .same (scan_eq_found_iff.mpr (.semicolon isSemicolon))
  | literal quote taken =>
    exact .same (scan_eq_found_iff.mpr (.literal quote (takeQuoted?_append_of_some taken tail)))
  | weight percent =>
    by_cases dropped : cs.dropWhile isWeightChar = []
    · subst percent
      exact .runsOn (.weight (List.dropWhile_eq_nil_iff.mp dropped))
    · have weight : Finding c (cs ++ tail) _ _ := .weight percent
      rw [takeWhile_append_of_stopped dropped, dropWhile_append_of_stopped dropped] at weight
      exact .same (scan_eq_found_iff.mpr weight)
  | state equals named alone =>
    have aloneOn : (cs.dropWhile isWord ++ tail).head? ≠ some '=' := by
      obtain ⟨m, more, rfl, mark⟩ := begins
      cases behind : cs.dropWhile isWord with
      | nil => rcases mark with rfl | rfl <;> simp
      | cons d ds => simpa [behind] using alone
    have state : Finding c (cs ++ tail) _ _ :=
      .state equals (word.symm ▸ named) (behindWord.symm ▸ aloneOn)
    rw [word, behindWord] at state
    exact .same (scan_eq_found_iff.mpr state)
  | assigned equals named behind taken =>
    rcases takeValue?_append_of_some taken tail with takenOn | ⟨filled, chars⟩
    · rw [behind, List.cons_append] at behindWord
      have state : Finding c (cs ++ tail) _ _ :=
        .assigned equals (word.symm ▸ named) behindWord takenOn
      rw [word] at state
      exact .same (scan_eq_found_iff.mpr state)
    · subst equals
      rw [← List.takeWhile_append_dropWhile (p := isWord) (l := cs), behind]
      exact .runsOn (.value named all_takeWhile filled chars)
  | unassigned equals named behind noValue => exact .stray _ rfl noValue
  | name start =>
    have name : Finding c (cs ++ tail) _ _ := .name start
    rw [word, behindWord] at name
    exact .same (scan_eq_found_iff.mpr name)
  | sign isSign =>
    exact .same (scan_eq_found_iff.mpr (.sign (scanSign_append_of_found isSign tail)))

/-- A blank is one whatever follows; a comment that is not at the end of its line stays as it is,
and one that is takes the next one in. -/
theorem gap_append_of_scan (scanned : scan c cs = .gap rest) (tail : List Char) :
    scan c (cs ++ tail) = .gap (rest ++ tail) ∨
      rest = [] ∧ scan c (cs ++ tail) = .gap (tail.dropWhile (· != '\n')) := by
  cases scan_eq_gap_iff.mp scanned with
  | blank isBlank => exact .inl (scan_eq_gap_iff.mpr (.blank isBlank))
  | comment marked =>
    have markedOn : c = '#' ∨ c = '/' ∧ (cs ++ tail).head? = some '/' := by
      refine marked.imp_right fun ⟨isSlash, second⟩ => ⟨isSlash, ?_⟩
      simp [List.head?_append, second]
    have comment := Passing.comment markedOn
    by_cases dropped : cs.dropWhile (· != '\n') = []
    · rw [List.dropWhile_append_of_pos (List.dropWhile_eq_nil_iff.mp dropped)] at comment
      exact .inr ⟨dropped, scan_eq_gap_iff.mpr comment⟩
    · rw [dropWhile_append_of_stopped dropped] at comment
      exact .inl (scan_eq_gap_iff.mpr comment)

/-! ### Lexemes that run on -/

theorem takeValue?_append_of_all {value : List Char} (filled : value ≠ [])
    (chars : ∀ c ∈ value, isValueChar c = true) (tail : List Char) :
    takeValue? (value ++ tail) =
      some (value ++ tail.takeWhile isValueChar, tail.dropWhile isValueChar) := by
  cases value with
  | nil => exact absurd rfl filled
  | cons v vs =>
    obtain ⟨plain, more⟩ := List.forall_mem_cons.mp chars
    have notQuote : isQuote v = false := by
      simp only [isValueChar, Bool.not_eq_true', Bool.or_eq_false_iff] at plain
      exact plain.1.1.1.1.2
    simp only [List.cons_append, takeValue?]
    rw [if_neg (by simp [notQuote]), if_pos plain, List.takeWhile_append_of_pos more,
      List.dropWhile_append_of_pos more]

/-- A lexeme that runs on takes the characters of its run from whatever follows. -/
theorem IsOpenRun.scan (isRun : IsOpenRun (c :: cs)) :
    ∃ (p : Char → Bool) (lexeme : List Char → Lexeme), lexeme.Injective ∧ p '#' = true ∧
      p '/' = true ∧
      ∀ tail, scan c (cs ++ tail) = .found (lexeme (tail.takeWhile p)) (tail.dropWhile p) := by
  cases isRun with
  | weight chars =>
    refine ⟨isWeightChar, fun run => .weight (String.ofList (cs ++ run)), ?_, by decide, by decide,
      fun tail => ?_⟩
    · intro run run' same
      exact List.append_cancel_left (String.ofList_injective (Lexeme.weight.inj same))
    · have weight : Finding '%' (cs ++ tail) _ _ := .weight rfl
      rw [List.takeWhile_append_of_pos chars, List.dropWhile_append_of_pos chars] at weight
      exact scan_eq_found_iff.mpr weight
  | @value key value named word filled chars =>
    refine ⟨isValueChar,
      fun run => .state (String.ofList key) (some (String.ofList (value ++ run))), ?_, by decide,
      by decide, fun tail => ?_⟩
    · intro run run' same
      have sameValue := Option.some.inj (Lexeme.state.inj same).2
      exact List.append_cancel_left (String.ofList_injective sameValue)
    · have stops : Stops isWord ('=' :: (value ++ tail)) := by
        rintro _ ⟨⟩
        decide
      have key' := takeWhile_append_of_stops word stops
      rw [List.append_assoc, List.cons_append]
      have state : Finding '=' (key ++ '=' :: (value ++ tail)) _ _ :=
        .assigned rfl (key'.symm ▸ named) (dropWhile_append_of_stops word stops)
          (takeValue?_append_of_all filled chars tail)
      rw [key'] at state
      exact scan_eq_found_iff.mpr state

theorem ne_of_isOpenRun {l' : Lexeme} {rest' : List Char} (begins : BeginsComment tail)
    (isRun : IsOpenRun (c :: cs)) (scanned : scan c cs = .found l rest)
    (scannedOn : scan c (cs ++ tail) = .found l' rest') : l ≠ l' := by
  obtain ⟨p, lexeme, injective, hash, slash, taken⟩ := isRun.scan
  have short := taken []
  rw [List.append_nil, scanned] at short
  obtain ⟨rfl, -⟩ := Scan.found.inj short
  rw [taken tail] at scannedOn
  obtain ⟨rfl, -⟩ := Scan.found.inj scannedOn
  exact fun same => begins.takeWhile_ne_nil hash slash (injective same).symm

theorem runsOn_of_gap (scanned : scan c cs = .gap rest) : RunsOn (c :: cs) ↔ RunsOn rest := by
  constructor
  · rintro ⟨ls, run, finds, isRun⟩
    cases finds with
    | here =>
      obtain ⟨p, lexeme, -, -, -, taken⟩ := isRun.scan
      have found := taken []
      rw [List.append_nil, scanned] at found
      cases found
    | gap again more =>
      cases scanned.symm.trans again
      exact ⟨ls, run, more, isRun⟩
    | found again more => cases scanned.symm.trans again
  · rintro ⟨ls, run, finds, isRun⟩
    exact ⟨ls, run, .gap scanned finds, isRun⟩

theorem runsOn_of_found (scanned : scan c cs = .found l rest) :
    RunsOn (c :: cs) ↔ IsOpenRun (c :: cs) ∨ RunsOn rest := by
  constructor
  · rintro ⟨ls, run, finds, isRun⟩
    cases finds with
    | here => exact .inl isRun
    | gap again more => cases scanned.symm.trans again
    | found again more =>
      cases scanned.symm.trans again
      exact .inr ⟨_, run, more, isRun⟩
  · rintro (isRun | ⟨ls, run, finds, isRun⟩)
    · exact ⟨[], _, .here _, isRun⟩
    · exact ⟨l :: ls, run, .found scanned finds, isRun⟩

theorem not_runsOn_nil : ¬RunsOn [] := by
  rintro ⟨ls, run, finds, isRun⟩
  cases finds
  cases isRun

end Scans

/-! ### Tokens in front of a comment -/

section Tokens
variable {comment rest : List Char} {line : Nat} {ts : List Token}

theorem AtLineEnd.scan_append (lineEnd : AtLineEnd rest) (c : Char) (cs : List Char) :
    scan c (cs ++ rest) = (scan c cs).extend rest := by
  obtain rfl | ⟨more, rfl⟩ := lineEnd
  · rw [List.append_nil]
    cases scan c cs <;> simp [Scan.extend]
  · exact scan_append_feed more c cs

theorem AtLineEnd.dropWhile_append (lineEnd : AtLineEnd rest) {body : List Char}
    (onLine : '\n' ∉ body) : (body ++ rest).dropWhile (· != '\n') = rest := by
  refine dropWhile_append_of_stops (fun c member => ?_) ?_
  · have notFeed : c ≠ '\n' := fun same => onLine (same ▸ member)
    simpa using notFeed
  · obtain rfl | ⟨more, rfl⟩ := lineEnd
    · rintro _ ⟨⟩
    · exact stops_feed more (by decide)

theorem IsComment.feed_not_mem (isComment : IsComment comment) : '\n' ∉ comment := by
  obtain ⟨body, onLine, rfl | rfl⟩ := isComment <;> simpa using onLine

theorem tokensFrom_comment (isComment : IsComment comment) (lineEnd : AtLineEnd rest) :
    Token.tokensFrom line (comment ++ rest) = Token.tokensFrom line rest := by
  obtain ⟨body, onLine, rfl | rfl⟩ := isComment
  · refine tokensFrom_of_gap line (scan_eq_gap_iff.mpr ?_)
    have passing : Passing '#' (body ++ rest) _ := .comment (.inl rfl)
    rwa [lineEnd.dropWhile_append onLine] at passing
  · refine tokensFrom_of_gap line (scan_eq_gap_iff.mpr ?_)
    have passing : Passing '/' ('/' :: body ++ rest) _ := .comment (.inr ⟨rfl, rfl⟩)
    rwa [lineEnd.dropWhile_append (by simpa using onLine)] at passing

theorem isValueChar_of_isWord {c : Char} (word : isWord c = true) : isValueChar c = true := by
  simp [isValueChar, isBlank_of_isWord word, not_isQuote_of_isWord word,
    ne_of_isWord word (show isWord '\x7b' = false by decide),
    ne_of_isWord word (show isWord '\x7d' = false by decide),
    ne_of_isWord word (show isWord ';' = false by decide),
    ne_of_isWord word (show isWord '=' = false by decide)]

/-- Where no value follows an equals sign, no key does. -/
theorem scan_of_takeValue?_eq_none {cs : List Char} (noValue : takeValue? cs = none) :
    scan '=' cs = .fault (.unexpectedCharacter '=') := by
  show scanState cs = _
  have noKey : cs.takeWhile isWord = [] := by
    cases cs with
    | nil => rfl
    | cons c cs =>
      rw [List.takeWhile_cons, if_neg]
      intro word
      simp [takeValue?, not_isQuote_of_isWord word, isValueChar_of_isWord word] at noValue
  simp [scanState, noKey]

-- The induction is on the scans of the text in front of the comment: a scan that is the same leaves
-- the comment behind what it leaves, and a lexeme that runs on is another one.
theorem tokensFrom_comment_iff {before : List Char} (isComment : IsComment comment)
    (lineEnd : AtLineEnd rest) (lexed : Token.tokensFrom line (before ++ rest) = .ok ts) :
    Token.tokensFrom line (before ++ (comment ++ rest)) = .ok ts ↔ ¬RunsOn before := by
  have begins := isComment.beginsComment rest
  fun_induction Token.tokensFrom line before generalizing ts with
  | case1 line =>
    rw [List.nil_append] at lexed ⊢
    rw [tokensFrom_comment isComment lineEnd]
    exact iff_of_true lexed not_runsOn_nil
  | case2 line c cs cause scanned =>
    have faulty := lineEnd.scan_append c cs
    rw [scanned] at faulty
    rw [List.cons_append, tokensFrom_of_fault line faulty] at lexed
    cases lexed
  | case3 line c cs left scanned ih =>
    have scannedOn := lineEnd.scan_append c cs
    rw [scanned] at scannedOn
    rw [List.cons_append, tokensFrom_of_gap line scannedOn] at lexed
    rw [runsOn_of_gap scanned, List.cons_append]
    refine Iff.trans ?_ (ih lexed)
    rcases gap_append_of_scan scanned (comment ++ rest) with same | ⟨rfl, takenIn⟩
    · rw [tokensFrom_of_gap line same]
    · rw [lineEnd.dropWhile_append isComment.feed_not_mem] at takenIn
      rw [tokensFrom_of_gap line takenIn, List.nil_append, tokensFrom_comment isComment lineEnd]
  | case4 line c cs l left scanned ih =>
    have scannedOn := lineEnd.scan_append c cs
    rw [scanned] at scannedOn
    rw [List.cons_append, tokensFrom_of_found line scannedOn] at lexed
    obtain ⟨more, read, rfl⟩ := map_eq_ok lexed
    rw [runsOn_of_found scanned, List.cons_append]
    by_cases isRun : IsOpenRun (c :: cs)
    · refine iff_of_false (fun same => ?_) (fun none => none (.inl isRun))
      obtain ⟨p, lexeme, -, -, -, taken⟩ := isRun.scan
      have found := taken (comment ++ rest)
      rw [tokensFrom_of_found line found] at same
      obtain ⟨more', -, others⟩ := map_eq_ok same
      have sameLexeme := congrArg Token.lexeme (List.cons.inj others).1
      exact ne_of_isOpenRun begins isRun scanned found sameLexeme.symm
    · rw [or_iff_right isRun]
      refine Iff.trans ?_ (ih read)
      cases inFront_of_scan begins scanned with
      | runsOn isRun' => exact absurd isRun' isRun
      | same found =>
        rw [tokensFrom_of_found line found]
        cases Token.tokensFrom (l.lineAfter line) (left ++ (comment ++ rest)) <;> simp [Except.map]
      | stray more' isEquals noValue =>
        subst isEquals
        have faulty := lineEnd.scan_append '=' more'
        rw [scan_of_takeValue?_eq_none noValue] at faulty
        rw [List.cons_append, tokensFrom_of_fault _ faulty] at read
        cases read

end Tokens

/-- A comment at the end of a line leaves the tokens of a text as they are if and only if no weight,
and no state value without quotes, goes on up to it. -/
theorem Token.ofText_comment_iff {before comment rest : String} {ts : List Token}
    (lexed : ofText (before ++ rest) = .ok ts) (isComment : IsComment comment.toList)
    (lineEnd : AtLineEnd rest.toList) :
    ofText (before ++ comment ++ rest) = .ok ts ↔ ¬RunsOn before.toList := by
  rw [ofText, String.toList_append] at lexed
  rw [ofText, String.toList_append, String.toList_append, List.append_assoc]
  exact tokensFrom_comment_iff isComment lineEnd lexed

/-- A line that ends in a weight. -/
def halfLine : String := "R \x7b %50"

def halfNote : String := "# half"

def halfRest : String := "\n 'a' \x7d"

def halfTokens : List Token :=
  [⟨.name "R", 1⟩, ⟨.openBrace, 1⟩, ⟨.weight "50", 1⟩, ⟨.lineBreak .feed, 1⟩, ⟨.literal "a", 2⟩,
    ⟨.closeBrace, 2⟩, ⟨.endOfInput, 2⟩]

theorem isComment_halfNote : IsComment halfNote.toList :=
  ⟨" half".toList, by decide +kernel, .inl (by decide +kernel)⟩

theorem atLineEnd_halfRest : AtLineEnd halfRest.toList :=
  .inr ⟨" 'a' \x7d".toList, by decide +kernel⟩

theorem runsOn_halfLine : RunsOn halfLine.toList := by
  have chars : halfLine.toList = ['R', ' ', '\x7b', ' ', '%', '5', '0'] := by decide +kernel
  rw [chars]
  have name : scan 'R' [' ', '\x7b', ' ', '%', '5', '0'] =
      .found (.name "R") [' ', '\x7b', ' ', '%', '5', '0'] :=
    scan_of_isNameStart (by decide)
  refine ⟨[.name "R", .openBrace], ['%', '5', '0'], ?_, .weight (List.all_eq_true.mp (by decide))⟩
  exact .found name (.gap rfl (.found rfl (.gap rfl (.here _))))

/-- A blank in front of the comment ends the weight. -/
theorem Token.ofText_comment_iff_half :
    ¬RunsOn (halfLine ++ " ").toList ∧
      ofText (halfLine ++ halfNote ++ halfRest) ≠ .ok halfTokens := by
  constructor
  · exact (ofText_comment_iff (by decide +kernel) isComment_halfNote atLineEnd_halfRest).mp
      (show ofText (halfLine ++ " " ++ halfNote ++ halfRest) = .ok halfTokens by decide +kernel)
  · intro same
    exact (ofText_comment_iff (by decide +kernel) isComment_halfNote atLineEnd_halfRest).mp same
      runsOn_halfLine

/-- A comment is not invisible at every end of a line. -/
theorem Token.exists_comment_ne : ¬∀ (before comment rest : String) (ts : List Token),
    ofText (before ++ rest) = .ok ts → IsComment comment.toList → AtLineEnd rest.toList →
      ofText (before ++ comment ++ rest) = .ok ts := by
  intro invisible
  have same := invisible halfLine halfNote halfRest halfTokens (by decide +kernel)
    isComment_halfNote atLineEnd_halfRest
  have taken : ofText (halfLine ++ halfNote ++ halfRest) =
      .ok [⟨.name "R", 1⟩, ⟨.openBrace, 1⟩, ⟨.weight "50#", 1⟩, ⟨.name "half", 1⟩,
        ⟨.lineBreak .feed, 1⟩, ⟨.literal "a", 2⟩, ⟨.closeBrace, 2⟩, ⟨.endOfInput, 2⟩] := by
    decide +kernel
  rw [taken] at same
  exact absurd same (by decide +kernel)

end WeightedGrammar
