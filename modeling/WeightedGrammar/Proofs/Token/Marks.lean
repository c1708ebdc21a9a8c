import Mathlib.Data.List.Chain
import WeightedGrammar.Proofs.Token.Comment

/-!
Marks of line breaks. A line feed and a semicolon end the same lexemes, but for a weight, which
takes a semicolon for its own, and a comment, which only a feed ends. So with other marks a text has
the same lexemes up to these marks, where no weight stands directly in front of a line break
(`lexed_of_rebroken`).
-/

namespace WeightedGrammar
open Text Lexeme

def LineMark.char : LineMark → Char
  | feed => '\n'
  | semicolon => ';'

/-- The second text is the first one with other marks at any of its line breaks. What ends a comment
stays the same. -/
inductive Rebroken : List Char → List Char → Prop where
  | done : Rebroken [] []
  | lineBreak (mark mark' : LineMark) {rest rest' : List Char} (more : Rebroken rest rest') :
      Rebroken (mark.char :: rest) (mark'.char :: rest')
  | lexeme {c : Char} {taken rest rest' : List Char} {l : Lexeme}
      (scanned : scan c (taken ++ rest) = .found l rest) (more : Rebroken rest rest') :
      Rebroken (c :: (taken ++ rest)) (c :: (taken ++ rest'))
  | blank {c : Char} {rest rest' : List Char} (isBlank : isGap c = true)
      (more : Rebroken rest rest') : Rebroken (c :: rest) (c :: rest')
  | comment {comment rest rest' : List Char} (isComment : IsComment comment)
      (lineEnd : AtLineEnd rest) (kept : AtLineEnd rest') (more : Rebroken rest rest') :
      Rebroken (comment ++ rest) (comment ++ rest')

/-! ### What stands behind a lexeme -/

theorem Rebroken.head_cases {text text' : List Char} (h : Rebroken text text') :
    text'.head? = text.head? ∨
      (∃ mark rest, text = LineMark.char mark :: rest) ∧
        ∃ mark rest, text' = LineMark.char mark :: rest := by
  cases h with
  | done => exact .inl rfl
  | lineBreak mark mark' more => exact .inr ⟨⟨mark, _, rfl⟩, mark', _, rfl⟩
  | lexeme scanned more => exact .inl rfl
  | blank isBlank more => exact .inl rfl
  | comment isComment lineEnd kept more =>
    obtain ⟨body, -, rfl | rfl⟩ := isComment <;> exact .inl rfl

theorem Rebroken.stops {text text' : List Char} (h : Rebroken text text') {p : Char → Bool}
    (out : ∀ mark, p (LineMark.char mark) = false) (stops : Stops p text) : Stops p text' := by
  rcases h.head_cases with same | ⟨-, mark, rest, rfl⟩
  · unfold Stops
    rw [same]
    exact stops
  · rintro _ ⟨⟩
    exact out mark

theorem stops_equals_iff {cs : List Char} : Stops (· == '=') cs ↔ cs.head? ≠ some '=' := by
  constructor
  · intro stops isHead
    simpa using stops '=' isHead
  · rintro other c isHead
    rw [beq_eq_false_iff_ne]
    rintro rfl
    exact other isHead

theorem stops_dropWhile (p : Char → Bool) (cs : List Char) : Stops p (cs.dropWhile p) := by
  intro c isHead
  have first := List.head?_dropWhile_not p cs
  rw [Option.mem_def.mp isHead] at first
  simpa using first

section Scans
variable {c : Char} {cs taken rest rest' : List Char} {l : Lexeme}

/-- A run that is taken from a text is taken again in front of whatever stops it. -/
theorem run_again {p : Char → Bool} (whole : taken ++ rest = cs) (left : cs.dropWhile p = rest)
    (stops : Stops p rest → Stops p rest') :
    (taken ++ rest').takeWhile p = cs.takeWhile p ∧ (taken ++ rest').dropWhile p = rest' := by
  have same : taken ++ rest = cs.takeWhile p ++ rest := by
    rw [whole, ← left, List.takeWhile_append_dropWhile]
  have isRun : taken = cs.takeWhile p := List.append_cancel_right same
  have stopped : Stops p rest' := stops (left ▸ stops_dropWhile p cs)
  rw [isRun]
  exact ⟨takeWhile_append_of_stops all_takeWhile stopped,
    dropWhile_append_of_stops all_takeWhile stopped⟩

theorem takeQuoted?_eq_some {mark : Char} {body : List Char}
    (taken : takeQuoted? mark cs = some (body, rest)) :
    cs = body ++ mark :: rest ∧ mark ∉ body ∧ '\n' ∉ body := by
  unfold takeQuoted? at taken
  dsimp only at taken
  split at taken
  · cases taken
  · rename_i d more dropped
    split at taken
    · rename_i isMark
      obtain rfl := beq_iff_eq.mp isMark
      cases taken
      have inside : ∀ c ∈ cs.takeWhile (fun c => c != d && c != '\n'),
          (c != d && c != '\n') = true := all_takeWhile
      refine ⟨?_, fun member => by simpa using inside _ member,
        fun member => by simpa using inside _ member⟩
      rw [← dropped, List.takeWhile_append_dropWhile]
    · cases taken

theorem takeQuoted?_again {mark : Char} {body : List Char}
    (found : takeQuoted? mark (taken ++ rest) = some (body, rest)) (rest' : List Char) :
    takeQuoted? mark (taken ++ rest') = some (body, rest') := by
  obtain ⟨whole, noMark, noFeed⟩ := takeQuoted?_eq_some found
  have isBody : taken = body ++ [mark] :=
    List.append_cancel_right (whole.trans (by simp : _ = body ++ [mark] ++ rest))
  rw [isBody, List.append_assoc]
  exact takeQuoted?_append rest' noMark noFeed

theorem takeValue?_again {value : List Char}
    (found : takeValue? (taken ++ rest) = some (value, rest))
    (stops : Stops isValueChar rest → Stops isValueChar rest') :
    takeValue? (taken ++ rest') = some (value, rest') := by
  cases taken with
  | nil =>
    have shorter := length_of_takeValue? found
    simp at shorter
  | cons d taken =>
    simp only [List.cons_append, takeValue?] at found ⊢
    split at found
    · rename_i quote
      rw [if_pos quote]
      exact takeQuoted?_again found rest'
    · rename_i notQuote
      split at found
      · rename_i plain
        obtain ⟨rfl, left⟩ := Prod.mk.inj (Option.some.inj found)
        obtain ⟨run, behind⟩ := run_again rfl left stops
        rw [if_neg notQuote, if_pos plain, run, behind]
      · cases found

theorem scanSign_again (whole : taken ++ rest = cs) (isSign : scanSign c cs = .found l rest)
    (rest' : List Char) : scanSign c (taken ++ rest') = .found l rest' := by
  unfold scanSign at isSign
  split at isSign <;> cases isSign
  case h_1 =>
    obtain rfl : taken = ['&'] := List.append_cancel_right whole
    rfl
  case h_2 =>
    obtain rfl : taken = ['|'] := List.append_cancel_right whole
    rfl
  all_goals
    obtain rfl := List.append_left_eq_self.mp whole
    rfl

/-- A lexeme is found again in front of a text that stops the same runs. A weight runs on where a
line break may not, and the text behind must not begin with a stray equals sign. -/
theorem scan_again (scanned : scan c (taken ++ rest) = .found l rest)
    (alike : ∀ p : Char → Bool, (∀ mark, p (LineMark.char mark) = false) →
      Stops p rest → Stops p rest')
    (weight : ∀ text, l = .weight text → Stops isWeightChar rest → Stops isWeightChar rest')
    (valued : ∀ more, rest = '=' :: more → takeValue? more ≠ none) :
    scan c (taken ++ rest') = .found l rest' := by
  have word := alike isWord (by rintro (_ | _) <;> decide)
  have value := alike isValueChar (by rintro (_ | _) <;> decide)
  have equals := alike (· == '=') (by rintro (_ | _) <;> decide)
  generalize whole : taken ++ rest = cs at scanned
  cases scan_eq_found_iff.mp scanned with
  | feed isFeed =>
    obtain rfl := List.append_left_eq_self.mp whole
    exact scan_eq_found_iff.mpr (.feed isFeed)
  | semicolon isSemicolon =>
    obtain rfl := List.append_left_eq_self.mp whole
    exact scan_eq_found_iff.mpr (.semicolon isSemicolon)
  | literal quote found =>
    rw [← whole] at found
    exact scan_eq_found_iff.mpr (.literal quote (takeQuoted?_again found rest'))
  | weight percent =>
    obtain ⟨run, left⟩ := run_again whole rfl (weight _ rfl)
    have again : Finding c (taken ++ rest') _ _ := .weight percent
    rw [run, left] at again
    exact scan_eq_found_iff.mpr again
  | state isEquals named alone =>
    obtain ⟨run, left⟩ := run_again whole rfl word
    have alone' := stops_equals_iff.mpr alone
    have again : Finding c (taken ++ rest') _ _ :=
      .state isEquals (run.symm ▸ named) (left.symm ▸ stops_equals_iff.mp (equals alone'))
    rw [run, left] at again
    exact scan_eq_found_iff.mpr again
  | @assigned more _ _ isEquals named behind found =>
    obtain ⟨text, rfl⟩ := suffix_of_takeValue? found
    have same : taken ++ rest = cs.takeWhile isWord ++ '=' :: text ++ rest := by
      rw [whole, List.append_assoc, List.cons_append, ← behind, List.takeWhile_append_dropWhile]
    have isTaken : taken = cs.takeWhile isWord ++ '=' :: text := List.append_cancel_right same
    have key : ∀ d ∈ cs.takeWhile isWord, isWord d = true := all_takeWhile
    have stops : Stops isWord ('=' :: (text ++ rest')) := by
      rintro _ ⟨⟩
      decide
    have run := takeWhile_append_of_stops key stops
    have left := dropWhile_append_of_stops key stops
    have again : Finding c (cs.takeWhile isWord ++ '=' :: (text ++ rest')) _ _ :=
      .assigned isEquals (run.symm ▸ named) left (takeValue?_again found value)
    rw [run] at again
    rw [isTaken, List.append_assoc, List.cons_append]
    exact scan_eq_found_iff.mpr again
  | unassigned _ _ _ noValue => exact absurd noValue (valued _ rfl)
  | name start =>
    obtain ⟨run, left⟩ := run_again whole rfl word
    rw [scan_of_isNameStart start, run, left]
  | sign isSign =>
    exact scan_eq_found_iff.mpr (.sign (scanSign_again whole isSign rest'))

end Scans

/-! ### Lexemes up to marks -/

namespace Lexeme

def isWeight : Lexeme → Bool
  | weight _ => true
  | _ => false

def isLineBreak : Lexeme → Bool
  | lineBreak _ => true
  | _ => false

/-- The lexeme, with the feed for the mark of a line break. -/
def unmarked : Lexeme → Lexeme
  | lineBreak _ => lineBreak .feed
  | l => l

end Lexeme

/-- No weight stands directly in front of a line break. -/
def WeightsApart (ls : List Lexeme) : Prop :=
  ls.IsChain fun l l' => l.isWeight = true → l'.isLineBreak = false

section Lexemes
variable {text text' : List Char} {line : Nat} {ts : List Token}

theorem scan_mark (mark : LineMark) (cs : List Char) :
    scan mark.char cs = .found (.lineBreak mark) cs := by
  cases mark <;> rfl

theorem lexed_of_comment {comment rest : List Char} {ls : List Lexeme}
    (isComment : IsComment comment) (lineEnd : AtLineEnd rest) (lexed : Lexed rest ls) :
    Lexed (comment ++ rest) ls := by
  intro line
  rw [tokensFrom_comment isComment lineEnd]
  exact lexed line

theorem atLineEnd_dropWhile (cs : List Char) : AtLineEnd (cs.dropWhile (· != '\n')) := by
  cases left : cs.dropWhile (· != '\n') with
  | nil => exact .inl rfl
  | cons d more =>
    have isFeed := stops_dropWhile (· != '\n') cs d (by rw [left]; rfl)
    obtain rfl : d = '\n' := by simpa using isFeed
    exact .inr ⟨more, rfl⟩

theorem exists_comment_of_marked {c : Char} {cs : List Char}
    (marked : c = '#' ∨ c = '/' ∧ cs.head? = some '/') :
    ∃ comment, IsComment comment ∧ c :: cs = comment ++ cs.dropWhile (· != '\n') := by
  have onLine : ∀ cs : List Char, '\n' ∉ cs.takeWhile (· != '\n') :=
    fun cs member => by simpa using all_takeWhile _ member
  rcases marked with rfl | ⟨rfl, second⟩
  · refine ⟨'#' :: cs.takeWhile (· != '\n'), ⟨_, onLine cs, .inl rfl⟩, ?_⟩
    rw [List.cons_append, List.takeWhile_append_dropWhile]
  · obtain ⟨more, rfl⟩ := List.head?_eq_some_iff.mp second
    refine ⟨'/' :: '/' :: more.takeWhile (· != '\n'), ⟨_, onLine more, .inr rfl⟩, ?_⟩
    rw [List.dropWhile_cons_of_pos (by decide), List.cons_append, List.cons_append,
      List.takeWhile_append_dropWhile]

/-- What a weight does not run on into, it does not run on into with other marks. -/
theorem Rebroken.stops_isWeightChar (h : Rebroken text text')
    (lexed : Token.tokensFrom line text = .ok ts)
    (apart : ∀ l ∈ (ts.map (·.lexeme)).head?, l.isLineBreak = false)
    (stops : Stops isWeightChar text) : Stops isWeightChar text' := by
  rcases h.head_cases with same | ⟨⟨mark, rest, rfl⟩, -⟩
  · unfold Stops
    rw [same]
    exact stops
  · rw [tokensFrom_of_found line (scan_mark mark rest)] at lexed
    obtain ⟨more, -, rfl⟩ := map_eq_ok lexed
    cases apart _ rfl

/-- Every text that has tokens is one with other marks, all of them its own. -/
theorem rebroken_self (lexed : Token.tokensFrom line text = .ok ts) : Rebroken text text := by
  fun_induction Token.tokensFrom line text generalizing ts with
  | case1 => exact .done
  | case2 => cases lexed
  | case3 line c cs rest scanned ih =>
    have more := ih lexed
    cases scan_eq_gap_iff.mp scanned with
    | blank isBlank => exact .blank isBlank more
    | comment marked =>
      obtain ⟨comment, isComment, whole⟩ := exists_comment_of_marked marked
      rw [whole]
      exact .comment isComment (atLineEnd_dropWhile cs) (atLineEnd_dropWhile cs) more
  | case4 line c cs l rest scanned ih =>
    obtain ⟨more, read, rfl⟩ := map_eq_ok lexed
    obtain ⟨taken, rfl⟩ := suffix_of_found scanned
    exact .lexeme scanned (ih read)

-- The induction is on the change of the marks. A lexeme in front of the changed text is found
-- again, since what stops it is a line break as before or the same character.
theorem lexed_of_rebroken (h : Rebroken text text') (lexed : Token.tokensFrom line text = .ok ts)
    (apart : WeightsApart (ts.map (·.lexeme))) :
    ∃ ls, Lexed text' ls ∧ ls.map unmarked = (ts.map (·.lexeme)).map unmarked := by
  induction h generalizing line ts with
  | done =>
    rw [Token.tokensFrom] at lexed
    cases lexed
    exact ⟨_, lexed_nil, rfl⟩
  | lineBreak mark mark' _ ih =>
    rw [tokensFrom_of_found line (scan_mark mark _)] at lexed
    obtain ⟨more, read, rfl⟩ := map_eq_ok lexed
    obtain ⟨ls, lexed', same⟩ := ih read (List.isChain_cons.mp apart).2
    exact ⟨_, lexed_of_found (scan_mark mark' _) lexed', congrArg (_ :: ·) same⟩
  | lexeme scanned changed ih =>
    rw [tokensFrom_of_found line scanned] at lexed
    obtain ⟨more, read, rfl⟩ := map_eq_ok lexed
    obtain ⟨first, others⟩ := List.isChain_cons.mp apart
    obtain ⟨ls, lexed', same⟩ := ih read others
    refine ⟨_, lexed_of_found (scan_again scanned (fun p out => changed.stops out) ?_ ?_) lexed',
      congrArg (_ :: ·) same⟩
    · rintro text rfl
      exact changed.stops_isWeightChar read fun l isHead => first l isHead rfl
    · rintro tail rfl noValue
      rw [tokensFrom_of_fault _ (scan_of_takeValue?_eq_none noValue)] at read
      cases read
  | blank isBlank _ ih =>
    rw [tokensFrom_of_gap line (scan_eq_gap_iff.mpr (.blank isBlank))] at lexed
    obtain ⟨ls, lexed', same⟩ := ih lexed apart
    exact ⟨ls, lexed_of_gap (scan_eq_gap_iff.mpr (.blank isBlank)) lexed', same⟩
  | comment isComment lineEnd kept _ ih =>
    rw [tokensFrom_comment isComment lineEnd] at lexed
    obtain ⟨ls, lexed', same⟩ := ih lexed apart
    exact ⟨ls, lexed_of_comment isComment kept lexed', same⟩

end Lexemes

end WeightedGrammar
