import WeightedGrammar.Proofs.Token.Written

/-!
Joined texts. No lexeme, blank or comment goes on behind a line feed, so a scan is the same with
another line behind the text (`scan_append_feed`). The tokens of two texts with a line feed between
them are those of the first one, a line break, and those of the second one on later lines
(`tokens_joined`).
-/

namespace WeightedGrammar
open Text Lexeme

/-! ### Scans in front of a line feed -/

section Runs
variable {p : Char → Bool} {tail : List Char}

theorem takeWhile_append_tail (stops : Stops p tail) (cs : List Char) :
    (cs ++ tail).takeWhile p = cs.takeWhile p := by
  induction cs with
  | nil => exact takeWhile_append_of_stops (by simp) stops
  | cons c cs ih => simp only [List.cons_append, List.takeWhile_cons, ih]

theorem dropWhile_append_tail (stops : Stops p tail) (cs : List Char) :
    (cs ++ tail).dropWhile p = cs.dropWhile p ++ tail := by
  induction cs with
  | nil => exact dropWhile_append_of_stops (by simp) stops
  | cons c cs ih =>
    simp only [List.cons_append, List.dropWhile_cons, ih]
    split <;> rfl

theorem stops_feed (more : List Char) (out : p '\n' = false) : Stops p ('\n' :: more) := by
  simpa [Stops] using out

end Runs

/-- The scan leaves this text, too. -/
def Lexeme.Scan.extend (tail : List Char) : Scan → Scan
  | gap rest => gap (rest ++ tail)
  | found lexeme rest => found lexeme (rest ++ tail)
  | fault cause => fault cause

section Scans
variable (more : List Char)

theorem takeQuoted?_append_feed {mark : Char} (quote : isQuote mark = true) (cs : List Char) :
    takeQuoted? mark (cs ++ '\n' :: more) =
      (takeQuoted? mark cs).map fun (body, rest) => (body, rest ++ '\n' :: more) := by
  have stops : Stops (fun c => c != mark && c != '\n') ('\n' :: more) := stops_feed more (by simp)
  have notFeed : ('\n' == mark) = false := by
    rw [beq_eq_false_iff_ne]
    rintro rfl
    cases quote
  unfold takeQuoted?
  dsimp only
  rw [takeWhile_append_tail stops, dropWhile_append_tail stops]
  cases dropped : cs.dropWhile fun c => c != mark && c != '\n' with
  | nil => simp [notFeed]
  | cons c rest =>
    simp only [List.cons_append]
    split <;> rfl

theorem takeValue?_append_feed (cs : List Char) :
    takeValue? (cs ++ '\n' :: more) =
      (takeValue? cs).map fun (value, rest) => (value, rest ++ '\n' :: more) := by
  have stops : Stops isValueChar ('\n' :: more) := stops_feed more (by decide)
  cases cs with
  | nil => rfl
  | cons c cs =>
    simp only [List.cons_append, takeValue?]
    split
    · rename_i quote
      exact takeQuoted?_append_feed more quote cs
    · split
      · rw [takeWhile_append_tail stops, dropWhile_append_tail stops]
        rfl
      · rfl

theorem scanState_append_feed (cs : List Char) :
    scanState (cs ++ '\n' :: more) = (scanState cs).extend ('\n' :: more) := by
  have stops : Stops isWord ('\n' :: more) := stops_feed more (by decide)
  unfold scanState
  dsimp only
  rw [takeWhile_append_tail stops, dropWhile_append_tail stops]
  split
  · rfl
  · cases dropped : cs.dropWhile isWord with
    | nil => rfl
    | cons c rest =>
      by_cases equals : c = '='
      · subst equals
        simp only [List.cons_append, takeValue?_append_feed]
        cases takeValue? rest <;> rfl
      · simp [equals, Scan.extend]

theorem scanSign_append_feed (c : Char) (cs : List Char) :
    scanSign c (cs ++ '\n' :: more) = (scanSign c cs).extend ('\n' :: more) := by
  -- A double sign wants the same character behind it, which the line feed is not.
  cases cs with
  | nil =>
    unfold scanSign
    split <;> simp_all [Scan.extend]
  | cons d ds =>
    unfold scanSign
    split <;> simp_all [Scan.extend]

/-- A scan does not look beyond the line. -/
theorem scan_append_feed (c : Char) (cs : List Char) :
    scan c (cs ++ '\n' :: more) = (scan c cs).extend ('\n' :: more) := by
  have slash : ((cs ++ '\n' :: more).head? == some '/') = (cs.head? == some '/') := by
    cases cs <;> simp
  have line : Stops (· != '\n') ('\n' :: more) := stops_feed more (by decide)
  have weight : Stops isWeightChar ('\n' :: more) := stops_feed more (by decide)
  have word : Stops isWord ('\n' :: more) := stops_feed more (by decide)
  unfold scan
  rw [slash, dropWhile_append_tail line, takeWhile_append_tail weight,
    dropWhile_append_tail weight, takeWhile_append_tail word, dropWhile_append_tail word,
    scanState_append_feed, scanSign_append_feed]
  split
  · rfl
  split
  · rfl
  split
  · rfl
  split
  · rfl
  split
  · rename_i quote
    rw [takeQuoted?_append_feed more quote]
    cases takeQuoted? c cs <;> rfl
  split
  · rfl
  split
  · rfl
  split <;> rfl

end Scans

/-! ### Line feeds -/

/-- The feeds of a text are those of what the scan leaves, and the one that it takes if it takes
one: they carry a line number on from lexeme to lexeme. -/
def Lexeme.Scan.CountsFeeds (feeds : Nat) : Scan → Prop
  | gap rest => rest.count '\n' = feeds
  | found lexeme rest => ∀ line, lexeme.lineAfter line + rest.count '\n' = line + feeds
  | fault _ => True

theorem count_feed_cons {c : Char} {p : Char → Bool} (inside : p c = true) (out : p '\n' = false)
    (cs : List Char) : (c :: cs).count '\n' = cs.count '\n' := by
  refine List.count_cons_of_ne ?_
  rintro rfl
  rw [out] at inside
  cases inside

theorem count_feed_dropWhile {p : Char → Bool} (out : p '\n' = false) (cs : List Char) :
    (cs.dropWhile p).count '\n' = cs.count '\n' := by
  induction cs with
  | nil => rfl
  | cons c cs ih =>
    rw [List.dropWhile_cons]
    split
    · rename_i inside
      rw [ih, count_feed_cons inside out]
    · rfl

section Feeds
variable {c : Char} {cs rest : List Char}

theorem count_feed_of_takeQuoted? {mark : Char} {body : List Char} (quote : isQuote mark = true)
    (h : takeQuoted? mark cs = some (body, rest)) : rest.count '\n' = cs.count '\n' := by
  have dropped := count_feed_dropWhile (p := fun c => c != mark && c != '\n') (by simp) cs
  unfold takeQuoted? at h
  dsimp only at h
  split at h
  · cases h
  · rename_i found
    split at h
    · rename_i isMark
      cases h
      rw [found, beq_iff_eq.mp isMark, count_feed_cons quote (by decide)] at dropped
      exact dropped
    · cases h

theorem count_feed_of_takeValue? {value : List Char} (h : takeValue? cs = some (value, rest)) :
    rest.count '\n' = cs.count '\n' := by
  cases cs with
  | nil => cases h
  | cons c cs =>
    simp only [takeValue?] at h
    split at h
    · rename_i quote
      rw [count_feed_of_takeQuoted? quote h, count_feed_cons quote (by decide)]
    · split at h
      · rename_i plain
        cases h
        rw [count_feed_dropWhile (by decide), count_feed_cons plain (by decide)]
      · cases h

/-- A lexeme carries a line number on over the feeds that it takes. -/
theorem lineAfter_of_found {l : Lexeme} (scanned : scan c cs = .found l rest) (line : Nat) :
    l.lineAfter line + rest.count '\n' = line + (c :: cs).count '\n' := by
  have behindWord := count_feed_dropWhile (p := isWord) (by decide) cs
  cases scan_eq_found_iff.mp scanned with
  | feed isFeed =>
    rw [isFeed, List.count_cons_self]
    show line + 1 + _ = _
    omega
  | semicolon isSemicolon =>
    rw [isSemicolon, List.count_cons_of_ne (by decide)]
    rfl
  | literal quote taken =>
    rw [count_feed_of_takeQuoted? quote taken, count_feed_cons quote (by decide)]
    rfl
  | weight percent =>
    rw [count_feed_dropWhile (by decide), percent, List.count_cons_of_ne (by decide)]
    rfl
  | state equals =>
    rw [behindWord, equals, List.count_cons_of_ne (by decide)]
    rfl
  | assigned equals _ behind taken =>
    rw [behind, List.count_cons_of_ne (by decide)] at behindWord
    rw [count_feed_of_takeValue? taken, behindWord, equals, List.count_cons_of_ne (by decide)]
    rfl
  | unassigned equals _ behind =>
    rw [← behind, behindWord, equals, List.count_cons_of_ne (by decide)]
    rfl
  | name start =>
    rw [behindWord, count_feed_cons start (by decide)]
    rfl
  | sign isSign =>
    unfold scanSign at isSign
    split at isSign <;> cases isSign <;> simp [lineAfter]

theorem count_feed_of_gap (scanned : scan c cs = .gap rest) :
    rest.count '\n' = (c :: cs).count '\n' := by
  cases scan_eq_gap_iff.mp scanned with
  | blank isBlank => exact (count_feed_cons isBlank (by decide) cs).symm
  | comment marked =>
    have notFeed : c ≠ '\n' := by
      rintro rfl
      simp at marked
    rw [count_feed_dropWhile (by decide), List.count_cons_of_ne notFeed]

theorem countsFeeds_scan (c : Char) (cs : List Char) :
    (scan c cs).CountsFeeds ((c :: cs).count '\n') := by
  cases scanned : scan c cs with
  | gap rest => exact count_feed_of_gap scanned
  | found l rest => exact lineAfter_of_found scanned
  | fault cause => trivial

end Feeds

/-! ### Tokens of joined texts -/

/-- The token so many lines further down. -/
def Token.lower (lines : Nat) (t : Token) : Token := ⟨t.lexeme, t.line + lines⟩

@[simp] theorem Token.lexeme_lower (lines : Nat) (t : Token) : (t.lower lines).lexeme = t.lexeme :=
  rfl

@[simp] theorem Token.line_lower (lines : Nat) (t : Token) :
    (t.lower lines).line = t.line + lines := rfl

theorem lineAfter_add (l : Lexeme) (line lines : Nat) :
    l.lineAfter (line + lines) = l.lineAfter line + lines := by
  unfold lineAfter
  split <;> omega

theorem tokensFrom_add {line : Nat} {cs : List Char} {ts : List Token}
    (h : Token.tokensFrom line cs = .ok ts) (lines : Nat) :
    Token.tokensFrom (line + lines) cs = .ok (ts.map (·.lower lines)) := by
  fun_induction Token.tokensFrom line cs generalizing ts with
  | case1 line =>
    cases h
    rw [Token.tokensFrom]
    rfl
  | case2 => cases h
  | case3 line c cs rest scanned ih =>
    rw [tokensFrom_of_gap _ scanned]
    exact ih h
  | case4 line c cs l rest scanned ih =>
    cases read : Token.tokensFrom (l.lineAfter line) rest with
    | error e => simp [read, Except.map] at h
    | ok behind =>
      rw [read] at h
      cases h
      rw [tokensFrom_of_found _ scanned, lineAfter_add, ih read]
      rfl

/-- The end of input stands on the line that the feeds lead to. Another line behind the text leaves
the tokens in front of the end as they are, and its own tokens follow the line break there. -/
theorem tokensFrom_append_feed {line : Nat} {cs : List Char} {ts : List Token}
    (h : Token.tokensFrom line cs = .ok ts) :
    ∃ front, ts = front ++ [⟨.endOfInput, line + cs.count '\n'⟩] ∧ ∀ more,
      Token.tokensFrom line (cs ++ '\n' :: more) =
        (Token.tokensFrom (line + cs.count '\n' + 1) more).map fun behind =>
          front ++ ⟨.lineBreak .feed, line + cs.count '\n'⟩ :: behind := by
  fun_induction Token.tokensFrom line cs generalizing ts with
  | case1 line =>
    cases h
    exact ⟨[], rfl, fun more => tokensFrom_of_found line rfl⟩
  | case2 => cases h
  | case3 line c cs rest scanned ih =>
    obtain ⟨front, rfl, joined⟩ := ih h
    have feeds : (scan c cs).CountsFeeds ((c :: cs).count '\n') := countsFeeds_scan c cs
    rw [scanned] at feeds
    rw [← show rest.count '\n' = (c :: cs).count '\n' from feeds]
    refine ⟨front, rfl, fun more => ?_⟩
    have scannedOn : scan c (cs ++ '\n' :: more) = .gap (rest ++ '\n' :: more) := by
      rw [scan_append_feed, scanned]
      rfl
    rw [List.cons_append, tokensFrom_of_gap line scannedOn, joined]
  | case4 line c cs l rest scanned ih =>
    cases read : Token.tokensFrom (l.lineAfter line) rest with
    | error e => simp [read, Except.map] at h
    | ok behind =>
      rw [read] at h
      cases h
      obtain ⟨front, rfl, joined⟩ := ih read
      have feeds : (scan c cs).CountsFeeds ((c :: cs).count '\n') := countsFeeds_scan c cs
      rw [scanned] at feeds
      rw [feeds line] at joined ⊢
      refine ⟨⟨l, line⟩ :: front, rfl, fun more => ?_⟩
      have scannedOn : scan c (cs ++ '\n' :: more) = .found l (rest ++ '\n' :: more) := by
        rw [scan_append_feed, scanned]
        rfl
      rw [List.cons_append, tokensFrom_of_found line scannedOn, joined]
      cases Token.tokensFrom (line + (c :: cs).count '\n' + 1) more <;> rfl

/-- The number of line feeds in a text. -/
def feeds (text : String) : Nat := text.toList.count '\n'

/-- The tokens of two texts on lines of their own: the end of the first one becomes a line break,
and the tokens of the second one are further down. -/
theorem tokens_joined {first second : String} {ts ts' : List Token}
    (lexed : Token.ofText first = .ok ts) (lexed' : Token.ofText second = .ok ts') :
    ∃ front, ts = front ++ [⟨.endOfInput, feeds first + 1⟩] ∧
      Token.ofText (first ++ "\n" ++ second) =
        .ok (front ++ ⟨.lineBreak .feed, feeds first + 1⟩ ::
          ts'.map (·.lower (feeds first + 1))) := by
  obtain ⟨front, isFront, joined⟩ := tokensFrom_append_feed lexed
  have behind := tokensFrom_add lexed' (feeds first + 1)
  rw [Nat.add_comm] at behind
  have sameLine : 1 + first.toList.count '\n' = feeds first + 1 := Nat.add_comm ..
  rw [sameLine] at isFront joined
  refine ⟨front, isFront, ?_⟩
  have text : (first ++ "\n" ++ second).toList = first.toList ++ '\n' :: second.toList := by simp
  rw [Token.ofText, text, joined, behind]
  rfl

end WeightedGrammar
