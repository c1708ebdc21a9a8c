import WeightedGrammar.Proofs.Form.Settling
import WeightedGrammar.Token.Cursor

/-!
Cursors stay on tokens. Whatever is called on a cursor over the tokens of a text, it comes to the
end of input at the latest and stays there, so that it always stands on a token. No call checks
for the end of the row: it is the end of input that keeps the cursor inside
(`Cursor.serves_of_ofText`).
-/

namespace WeightedGrammar

/-- Line breaks are skipped up to a token in front of the end of the row. -/
theorem Token.Ends.exists_breaks {ts : List Token} (ends : Token.Ends ts) :
    ∃ breaks, ts = breaks ++ Token.skipBreaks ts ∧
      (∀ t ∈ breaks, t.lexeme.kind = .lineBreak) ∧ Token.Ends (Token.skipBreaks ts) ∧
      (Token.front (Token.skipBreaks ts)).lexeme.kind ≠ .lineBreak := by
  induction ts with
  | nil => exact absurd ends not_ends_nil
  | cons t ts ih =>
    obtain ⟨l, line⟩ := t
    cases l with
    | lineBreak mark =>
      -- A break is not the end of input, which is therefore still ahead.
      obtain ⟨breaks, split, areBreaks, endsBehind, stops⟩ := ih (ends.tail (by simp))
      refine ⟨⟨.lineBreak mark, line⟩ :: breaks, ?_, ?_, endsBehind, stops⟩
      · rw [List.cons_append, Token.skipBreaks, ← split]
      · exact List.forall_mem_cons.mpr ⟨rfl, areBreaks⟩
    | _ => exact ⟨[], rfl, by simp, ends, by simp [Token.skipBreaks, Token.front, Lexeme.kind]⟩

namespace Cursor

/-! ### Calls -/

/-- A call on a cursor: a look at the token that it stands on, a step over that token, a step over
it if it has the kind, or one over line breaks. -/
inductive Call where
  | peek
  | next
  | accept (kind : LexemeKind)
  | skipBreaks
  deriving DecidableEq, Repr

/-- The token that a call answers with, if any, and the cursor after it. The call fails when it has
to look at a token and there is none ahead. -/
def perform (c : Cursor) : Call → Option (Option Token × Cursor)
  | .peek => c.peek?.map fun t => (some t, c)
  | .next => c.peek?.map fun t => (some t, c.advance)
  | .accept kind => c.peek?.map fun _ => c.accept kind
  | .skipBreaks => c.skipBreaks.peek?.map fun _ => (none, c.skipBreaks)

/-- The cursor after some calls, if none of them fails. -/
def after? (c : Cursor) (calls : List Call) : Option Cursor :=
  calls.foldlM (fun c call => (c.perform call).map (·.2)) c

section
variable {c : Cursor} {t : Token} {rest : List Token}

theorem advance_of_ahead (ahead : c.ahead = t :: rest) :
    c.advance = if t.lexeme = .endOfInput then c else ⟨c.position + 1, rest⟩ := by
  simp [advance, ahead]

theorem accept_of_ahead (ahead : c.ahead = t :: rest) (kind : LexemeKind) :
    c.accept kind = if t.lexeme.kind = kind then (some t, c.advance) else (none, c) := by
  simp [accept, peek?, ahead]

end

/-! ### Standing in a row -/

/-- The cursor stands in a row of tokens: those ahead are the rest of the row behind its position,
which goes up to the end of input. -/
structure StandsIn (c : Cursor) (ts : List Token) : Prop where
  split : ∃ behind, ts = behind ++ c.ahead ∧ behind.length = c.position
  ends : Token.Ends c.ahead

/-- The cursor comes to another place of the row, no nearer to its front. From the end of input it
does not move. -/
structure MovesIn (ts : List Token) (c c' : Cursor) : Prop where
  stands : c'.StandsIn ts
  forward : c.position ≤ c'.position
  rests : (Token.front c.ahead).lexeme = .endOfInput → c' = c

section
variable {c c' c'' : Cursor} {t : Token} {ts rest : List Token}

theorem MovesIn.refl (stands : c.StandsIn ts) : MovesIn ts c c :=
  ⟨stands, Nat.le_refl _, fun _ => rfl⟩

theorem MovesIn.trans (first : MovesIn ts c c') (second : MovesIn ts c' c'') :
    MovesIn ts c c'' := by
  refine ⟨second.stands, Nat.le_trans first.forward second.forward, fun atEnd => ?_⟩
  obtain rfl := first.rests atEnd
  exact second.rests atEnd

theorem StandsIn.exists_ahead (stands : c.StandsIn ts) :
    ∃ t rest, c.ahead = t :: rest ∧ ts[c.position]? = some t := by
  obtain ⟨behind, split, length⟩ := stands.split
  obtain ⟨rest, ahead⟩ := stands.ends.eq_cons
  generalize Token.front c.ahead = t at ahead
  refine ⟨t, rest, ahead, ?_⟩
  rw [split, ahead, ← length]
  simp

theorem StandsIn.movesIn_advance (stands : c.StandsIn ts) : MovesIn ts c c.advance := by
  obtain ⟨behind, split, length⟩ := stands.split
  obtain ⟨t, rest, ahead, -⟩ := stands.exists_ahead
  rw [advance_of_ahead ahead]
  split
  · exact .refl stands
  · rename_i notEnd
    rw [ahead] at split
    refine ⟨⟨⟨behind ++ [t], by simp [split], by simp [length]⟩, ?_⟩, Nat.le_succ _, ?_⟩
    · exact (ahead ▸ stands.ends).tail notEnd
    · intro atEnd
      rw [ahead] at atEnd
      exact absurd atEnd notEnd

/-- Behind the breaks the cursor stands on the first other token. -/
theorem StandsIn.exists_breaks (stands : c.StandsIn ts) :
    ∃ breaks t rest, c.ahead = breaks ++ t :: rest ∧ (∀ u ∈ breaks, u.lexeme.kind = .lineBreak) ∧
      t.lexeme.kind ≠ .lineBreak ∧ Token.Ends (t :: rest) ∧
      c.skipBreaks = ⟨c.position + breaks.length, t :: rest⟩ := by
  obtain ⟨breaks, split, areBreaks, ends, stops⟩ := stands.ends.exists_breaks
  obtain ⟨rest, skipped⟩ := ends.eq_cons
  generalize Token.front (Token.skipBreaks c.ahead) = t at stops skipped
  have passed : c.ahead.length - (t :: rest).length = breaks.length := by
    rw [split, skipped]
    simp
  refine ⟨breaks, t, rest, skipped ▸ split, areBreaks, stops, skipped ▸ ends, ?_⟩
  rw [Cursor.skipBreaks, skipped, passed]

theorem StandsIn.movesIn_skipBreaks (stands : c.StandsIn ts) : MovesIn ts c c.skipBreaks := by
  obtain ⟨behind, split, length⟩ := stands.split
  obtain ⟨breaks, t, rest, ahead, areBreaks, -, ends, skips⟩ := stands.exists_breaks
  rw [skips]
  refine ⟨⟨⟨behind ++ breaks, by simp [split, ahead], by simp [length]⟩, ends⟩, Nat.le_add_right ..,
    fun atEnd => ?_⟩
  cases breaks with
  | nil => exact Cursor.mk.injEq .. ▸ ⟨rfl, ahead.symm⟩
  | cons u breaks =>
    have isBreak := areBreaks u List.mem_cons_self
    rw [ahead, List.cons_append, Token.front, List.headD_cons] at atEnd
    rw [atEnd] at isBreak
    cases isBreak

/-! ### Calls in a row -/

theorem StandsIn.perform_peek (stands : c.StandsIn ts) :
    c.perform .peek = some (ts[c.position]?, c) := by
  obtain ⟨t, rest, ahead, found⟩ := stands.exists_ahead
  simp [perform, peek?, ahead, found]

theorem StandsIn.perform_next (stands : c.StandsIn ts) :
    c.perform .next = some (ts[c.position]?, c.advance) := by
  obtain ⟨t, rest, ahead, found⟩ := stands.exists_ahead
  simp [perform, peek?, ahead, found]

theorem StandsIn.perform_accept (stands : c.StandsIn ts) (kind : LexemeKind) :
    c.perform (.accept kind) = some (c.accept kind) := by
  obtain ⟨t, rest, ahead, -⟩ := stands.exists_ahead
  simp [perform, peek?, ahead]

theorem StandsIn.perform_skipBreaks (stands : c.StandsIn ts) :
    c.perform .skipBreaks = some (none, c.skipBreaks) := by
  obtain ⟨t, rest, ahead, -⟩ := stands.movesIn_skipBreaks.stands.exists_ahead
  simp [perform, peek?, ahead]

/-- No call fails in a row, and the cursor moves on in it. -/
theorem StandsIn.exists_perform (stands : c.StandsIn ts) (call : Call) :
    ∃ answer c', c.perform call = some (answer, c') ∧ MovesIn ts c c' := by
  cases call with
  | peek => exact ⟨_, _, stands.perform_peek, .refl stands⟩
  | next => exact ⟨_, _, stands.perform_next, stands.movesIn_advance⟩
  | accept kind =>
    obtain ⟨t, rest, ahead, -⟩ := stands.exists_ahead
    refine ⟨(c.accept kind).1, (c.accept kind).2, stands.perform_accept kind, ?_⟩
    rw [accept_of_ahead ahead]
    split
    · exact stands.movesIn_advance
    · exact .refl stands
  | skipBreaks => exact ⟨_, _, stands.perform_skipBreaks, stands.movesIn_skipBreaks⟩

theorem StandsIn.exists_after (stands : c.StandsIn ts) (calls : List Call) :
    ∃ c', c.after? calls = some c' ∧ MovesIn ts c c' := by
  induction calls generalizing c with
  | nil => exact ⟨c, rfl, .refl stands⟩
  | cons call calls ih =>
    obtain ⟨answer, mid, performed, first⟩ := stands.exists_perform call
    obtain ⟨c', comes, second⟩ := ih first.stands
    refine ⟨c', ?_, first.trans second⟩
    rw [after?, List.foldlM_cons, performed]
    exact comes

/-! ### Cursors over a text -/

/-- The second place is that of the first token, from the first place on, that is no line break. -/
structure IsBehindBreaks (ts : List Token) (place place' : Nat) : Prop where
  forward : place ≤ place'
  breaks : ∀ i t, place ≤ i → i < place' → ts[i]? = some t → t.lexeme.kind = .lineBreak
  stops : ∃ t, ts[place']? = some t ∧ t.lexeme.kind ≠ .lineBreak

theorem StandsIn.isBehindBreaks (stands : c.StandsIn ts) :
    IsBehindBreaks ts c.position c.skipBreaks.position := by
  obtain ⟨behind, split, length⟩ := stands.split
  obtain ⟨breaks, t, rest, ahead, areBreaks, notBreak, -, skips⟩ := stands.exists_breaks
  rw [skips, split, ahead, ← length]
  refine ⟨Nat.le_add_right .., fun i u low high found => ?_, t, by simp, notBreak⟩
  dsimp only at high
  rw [List.getElem?_append_right low, List.getElem?_append_left (by omega)] at found
  exact areBreaks u (List.mem_of_getElem? found)

/-- The cursor stands on the token of the row at its position. This is what the calls answer with
there, and where they leave the cursor. -/
structure Serves (c : Cursor) (ts : List Token) (t : Token) : Prop where
  stands : ts[c.position]? = some t
  peek : c.perform .peek = some (some t, c)
  /-- The token is stepped over if it is not the end of input. -/
  next : ∃ c', c.perform .next = some (some t, c') ∧
    c'.position = if t.lexeme = .endOfInput then c.position else c.position + 1
  accept (kind : LexemeKind) : ∃ c',
    c.perform (.accept kind) = some (if t.lexeme.kind = kind then some t else none, c') ∧
      c'.position = if t.lexeme.kind = kind ∧ t.lexeme ≠ .endOfInput then c.position + 1
        else c.position
  skipBreaks : ∃ c', c.perform .skipBreaks = some (none, c') ∧
    IsBehindBreaks ts c.position c'.position

theorem StandsIn.serves (stands : c.StandsIn ts) : c.Serves ts (Token.front c.ahead) := by
  obtain ⟨t, rest, ahead, found⟩ := stands.exists_ahead
  have isFront : Token.front c.ahead = t := by rw [ahead]; rfl
  have advances : c.advance.position =
      if t.lexeme = .endOfInput then c.position else c.position + 1 := by
    rw [advance_of_ahead ahead]
    split <;> rfl
  rw [isFront]
  constructor
  case stands => exact found
  case peek => rw [stands.perform_peek, found]
  case next => exact ⟨_, by rw [stands.perform_next, found], advances⟩
  case accept =>
    intro kind
    rw [stands.perform_accept, accept_of_ahead ahead]
    by_cases fits : t.lexeme.kind = kind
    · simp [fits, advances]
    · simp [fits]
  case skipBreaks => exact ⟨_, stands.perform_skipBreaks, stands.isBehindBreaks⟩

end

/-- The tokens of a text end with the end of input, which stands nowhere else. Whatever is called
on a cursor over them, no call fails: it always stands on one of the tokens, never goes back, and
stays where it is once it has come to the end of input. -/
theorem serves_of_ofText {text : String} {ts : List Token} (lexed : Token.ofText text = .ok ts) :
    Token.Ends ts ∧ ∀ calls, ∃ c t, (ofTokens ts).after? calls = some c ∧ c.Serves ts t ∧
      ∀ more, ∃ c', c.after? more = some c' ∧ c.position ≤ c'.position ∧
        (t.lexeme = .endOfInput → c' = c) := by
  have ends : Token.Ends ts := endsInput_of_tokensFrom lexed
  have opens : (ofTokens ts).StandsIn ts := ⟨⟨[], rfl, rfl⟩, ends⟩
  refine ⟨ends, fun calls => ?_⟩
  obtain ⟨c, comes, moves⟩ := opens.exists_after calls
  refine ⟨c, _, comes, moves.stands.serves, fun more => ?_⟩
  obtain ⟨c', goesOn, moves'⟩ := moves.stands.exists_after more
  exact ⟨c', goesOn, moves'.forward, moves'.rests⟩

/-- The tokens of a rule that is broken into lines by a feed and by a semicolon. -/
def brokenTokens : List Token :=
  [⟨.name "A", 1⟩, ⟨.openBrace, 1⟩, ⟨.lineBreak .feed, 1⟩, ⟨.lineBreak .semicolon, 2⟩,
   ⟨.literal "x", 2⟩, ⟨.closeBrace, 2⟩, ⟨.endOfInput, 2⟩]

theorem serves_of_ofText_broken :
    Token.ofText "A \x7b\n; 'x' \x7d" = .ok brokenTokens ∧
      ∃ c, (ofTokens brokenTokens).after? [.next, .accept .openBrace, .skipBreaks] = some c ∧
        c.Serves brokenTokens ⟨.literal "x", 2⟩ := by
  have lexed : Token.ofText "A \x7b\n; 'x' \x7d" = .ok brokenTokens := by decide +kernel
  refine ⟨lexed, ?_⟩
  obtain ⟨-, serves⟩ := serves_of_ofText lexed
  obtain ⟨c, t, comes, serves, -⟩ := serves [.next, .accept .openBrace, .skipBreaks]
  have here : c.position = 4 := by
    cases comes
    rfl
  have stands := serves.stands
  rw [here] at stands
  cases stands
  exact ⟨c, comes, serves⟩

end Cursor

end WeightedGrammar
