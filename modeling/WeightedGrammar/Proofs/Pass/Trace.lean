import WeightedGrammar.Proofs.Pass.Simulation

/-!
Traced passes. A trace adds the lines of firings to the log and changes nothing else: the pass
without it does the same tasks, and its record is the one with these lines taken out
(`simulates_withTrace`). The lines are those of the rules that fire, in order, and the rules that
count as fired can be read off them (`Generator.isTraced_of_ofText`).
-/

namespace WeightedGrammar
variable {ω σ : Type}

/-! ### The lines of a trace -/

def Note.isFiring : Note → Bool
  | fired _ _ _ => true
  | warned _ => false

/-- The rule that a note says has fired, with what it has chosen. -/
def Note.write? : Note → Option (String × Option Nat)
  | fired _ rule choice => some (rule, choice)
  | warned _ => none

/-- The line that a firing leaves in the log of a traced pass. -/
def Firing.line (f : Firing ω) : String :=
  String.join (List.replicate f.depth "  ") ++ "fire " ++ f.rule.name ++ " -> " ++
    match f.choice with
    | none => "nothing"
    | some place => "item " ++ toString place

/-- The lines of firings in the log. -/
def Record.firingLines (r : Record) : List String :=
  (r.notes.toList.filter (·.isFiring)).map (·.text)

/-- The record without the lines of firings in its log. -/
def Record.untraced (r : Record) : Record := { r with notes := r.notes.filter (!·.isFiring) }

def Outcome.untraced (o : Outcome) : Outcome := { o with record := o.record.untraced }

def Generator.withTrace (gen : Generator σ ω) (trace : Bool) : Generator σ ω :=
  { gen with settings := { gen.settings with trace := trace } }

theorem join_replicate_blanks (depth : Nat) :
    String.join (List.replicate depth "  ") = String.ofList (List.replicate (2 * depth) ' ') := by
  induction depth with
  | zero => rfl
  | succ depth ih =>
    rw [List.replicate_succ, String.join_cons, ih, Nat.mul_succ, Nat.add_comm, List.replicate_add,
      String.ofList_append]
    rfl

theorem text_fired (f : Firing ω) : (Note.fired f.depth f.rule.name f.choice).text = f.line := by
  rw [Firing.line, join_replicate_blanks]
  dsimp only [Note.text]
  cases f.choice <;> simp [choiceText, String.append_assoc, ToString.toString]

/-- A traced firing is noted on one line, and its warnings behind it as without a trace. -/
theorem filter_notes_traced (f : Firing ω) :
    (f.notes true).filter (·.isFiring) = [.fired f.depth f.rule.name f.choice] ∧
      (f.notes true).filter (!·.isFiring) = f.notes false ∧
      (f.notes true).filterMap Note.write? = [f.write] := by
  simp [Firing.notes, Firing.write, Note.isFiring, Note.write?]

/-! ### With a trace and without -/

variable [Scalar ω] [Supply σ ω] {p q : Progress σ} {rule : Rule ω} {choice : Option Nat}

theorem chooseItem_untraced (h : rule.chooseItem p = .ok choice q) :
    rule.chooseItem (⟨p.record.untraced, p.supply⟩ : Progress σ) =
      .ok choice ⟨q.record.untraced, q.supply⟩ := by
  -- What is chosen depends on what has fired and on the draws, and neither on the log.
  obtain ⟨gated, taken, chooses, record⟩ := chooseItem_eq_ok_iff.mp h
  apply chooseItem_eq_ok_iff.mpr
  refine ⟨gated, taken, chooses, ?_⟩
  rw [record]
  rfl

omit [Scalar ω] [Supply σ ω] in
theorem enter_untraced (f : Firing ω) (r : Record) :
    (r.enter true f).untraced = r.untraced.enter false f := by
  have kept : (r.notes ++ (f.notes true).toArray).filter (!·.isFiring) =
      r.notes.filter (!·.isFiring) ++ (f.notes false).toArray := by
    rw [← Array.toList_inj, ← (filter_notes_traced f).2.1]
    simp
  simp only [Record.enter_eq, Record.untraced, kept]

theorem simulates_withTrace (gen : Generator σ ω) :
    (gen.withTrace true).Simulates (gen.withTrace false) fun p p' =>
      p' = ⟨p.record.untraced, p.supply⟩ := by
  refine ⟨rfl, rfl, rfl, ?_, ?_⟩
  · rintro p _ text rfl
    rfl
  · rintro p _ mid rule choice depth - rfl chooses
    refine ⟨_, chooseItem_untraced chooses, ?_⟩
    exact congrArg (Progress.mk · mid.supply) (enter_untraced ⟨depth, rule, choice⟩ mid.record).symm

omit [Scalar ω] in
theorem untraced_outcomeAt (s : Settings) (record : Record) (left : List (Task ω)) :
    (s.outcomeAt record left).untraced = s.outcomeAt record.untraced left := by
  unfold Settings.outcomeAt
  split <;> rfl

theorem Generator.Comes.notes_eq {gen : Generator σ ω} {start : List String}
    {es : List (Event ω)} {left : List (Task ω)} (h : gen.Comes start es left q) :
    q.record.fired = ({} : Register _).setAll ((es.filterMap Event.firing?).map (·.write)) ∧
      q.record.notes.toList =
        (es.filterMap Event.firing?).flatMap (·.notes gen.settings.trace) := by
  obtain ⟨⟨rules, -, proceeds⟩, -⟩ := h
  obtain ⟨-, fired, -, -, notes⟩ := proceeds.plays.record_eq
  refine ⟨fired, ?_⟩
  rw [notes]
  simp

omit [Scalar ω] in
theorem notes_of_firings (firings : List (Firing ω)) :
    ((firings.flatMap (·.notes true)).filter (·.isFiring)).map (·.text) =
        firings.map Firing.line ∧
      (firings.flatMap (·.notes true)).filterMap Note.write? = firings.map (·.write) := by
  induction firings with
  | nil => exact ⟨rfl, rfl⟩
  | cons f firings ih =>
    obtain ⟨fires, -, writes⟩ := filter_notes_traced f
    obtain ⟨lines, allWrites⟩ := ih
    constructor
    · rw [List.flatMap_cons, List.filter_append, fires, List.map_append, lines, List.map_singleton,
        text_fired]
      rfl
    · rw [List.flatMap_cons, List.filterMap_append, writes, allWrites]
      rfl

/-! ### Traced passes -/

/-- What a trace shows of a pass, and that it does nothing else. -/
structure Generator.IsTraced (gen : Generator σ ω) (start : List String) (unguarded : Nat) :
    Prop where
  /-- Without the trace the pass comes out the same way, after the same draws and with the same log
  but for the lines of firings. -/
  same : let traced := (gen.withTrace true).generateWithin unguarded start
    (gen.withTrace false).generateWithin unguarded start =
      (traced.1.untraced, traced.2.withTrace false)
  /-- These are the lines of the rules that fire, one after the other, up to where the pass comes
  out. -/
  lines : let traced := (gen.withTrace true).generateWithin unguarded start
    (∃ e, gen.grammar.startRules start = .error e ∧ traced.1 = ⟨{}, some e⟩) ∨
      ∃ es left, (gen.withTrace true).Comes start es left ⟨traced.1.record, traced.2.supply⟩ ∧
        RestsAt (gen.settings.room unguarded) left ∧
        traced.1 = gen.settings.outcomeAt traced.1.record left ∧
        traced.1.record.firingLines = (es.filterMap Event.firing?).map Firing.line
  /-- The rules on these lines count as fired, in the order of their first lines and each with what
  its last line says. -/
  fired : let traced := (gen.withTrace true).generateWithin unguarded start
    traced.1.record.fired =
      ({} : Register _).setAll (traced.1.record.notes.toList.filterMap Note.write?)

/-- A trace only observes the pass over a loaded grammar. -/
theorem Generator.isTraced_of_ofText {gen : Generator σ ω} {text name : String}
    (loaded : Grammar.ofText text name = .ok gen.grammar) (start : List String)
    (unguarded : Nat) : gen.IsTraced start unguarded := by
  have sound : (gen.withTrace true).grammar.IsSound := Grammar.isSound_of_ofText loaded
  rcases (simulates_withTrace gen).generateWithin_cases sound start unguarded with
    ⟨e, failed, traced, plain⟩ | ⟨es, left, q, q', comes, rfl, rests, traced, plain⟩
  · constructor
    case same => rw [traced, plain]; rfl
    case lines => rw [traced]; exact .inl ⟨e, failed, rfl⟩
    case fired => rw [traced]; rfl
  · obtain ⟨fired, notes⟩ := comes.notes_eq
    obtain ⟨lines, writes⟩ := notes_of_firings (es.filterMap Event.firing?)
    -- The firings on the way there are those of the log: no other event leaves a note.
    constructor
    case same =>
      rw [traced, plain]
      exact Prod.ext (untraced_outcomeAt ..).symm rfl
    case lines =>
      rw [traced]
      simp only [record_outcomeAt, Record.firingLines, notes]
      exact .inr ⟨es, left, comes, rests, rfl, lines⟩
    case fired =>
      rw [traced]
      simp only [record_outcomeAt, fired, notes]
      exact congrArg _ writes.symm

/-- The tale is cut at its third level, with two lines in its log. -/
theorem Generator.isTraced_of_ofText_tale :
    let gen : Generator (Cycle Float) Float :=
      ⟨tale Float, ⟨#[0.25], Nat.one_pos, 0⟩, { maxDepth := some 2 }⟩
    let traced := (gen.withTrace true).generateWithin 0 []
    Grammar.ofText taleText = .ok gen.grammar ∧
      traced.1.error = some (.depthExceeded "Hero" 2) ∧
      traced.1.record.firingLines = ["fire Hero -> item 0", "  fire Tale -> item 0"] ∧
      gen.IsTraced [] 0 := by
  intro gen traced
  have cut : traced.1.error = some (.depthExceeded "Hero" 2) := by decide +kernel
  have lines :
      traced.1.record.firingLines = ["fire Hero -> item 0", "  fire Tale -> item 0"] := by
    decide +kernel
  exact ⟨ofText_tale, cut, lines, isTraced_of_ofText ofText_tale [] 0⟩

end WeightedGrammar
