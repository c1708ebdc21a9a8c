import Mathlib.Data.List.Basic
import WeightedGrammar.Number.Double
import WeightedGrammar.Proofs.Form.Loading

/-!
States on the lines of a text. Line breaks and braces cut the lexemes of a text into stretches. In a
body each of them is a `Stretch`: states, then the rest of an item with its condition, then states
(`Block.exists_stretches`, `GatedBody.exists_lines`). The states at the front go to the body, and
those at the end to the item (`Grammar.states_of_ofText`).
-/

namespace WeightedGrammar

/-! ### Stretches of lexemes -/

namespace Lexeme

/-- A line break or a brace. -/
def divides : Lexeme → Bool
  | lineBreak _ | openBrace | closeBrace => true
  | _ => false

theorem divides_of_isItemPart {l : Lexeme} (part : l.isItemPart = true) : l.divides = false := by
  cases l <;> first | rfl | cases part

theorem isState_of_isItemPart {l : Lexeme} (part : l.isItemPart = true) : l.isState = false := by
  cases l <;> first | rfl | cases part

end Lexeme

def stretches (ls : List Lexeme) : List (List Lexeme) := ls.splitOnP Lexeme.divides

def StatesLast (run : List Lexeme) : Prop :=
  run.Pairwise fun l l' => l.isState = true → l'.isItemPart = false

theorem stretches_divided {run : List Lexeme} (whole : ∀ l ∈ run, l.divides = false) {l : Lexeme}
    (divides : l.divides = true) (ls : List Lexeme) :
    stretches (run ++ l :: ls) = run :: stretches ls :=
  List.splitOnP_append_cons_of_forall_mem whole l divides ls

theorem stretches_cons {l : Lexeme} (inside : l.divides = false) (ls : List Lexeme) :
    stretches (l :: ls) = (stretches ls).modifyHead (l :: ·) := by
  rw [stretches, List.splitOnP_cons_eq_if_modifyHead, if_neg (by simp [inside])]
  rfl

theorem stretches_cons_of_divides {l : Lexeme} (divides : l.divides = true) (ls : List Lexeme) :
    stretches (l :: ls) = [] :: stretches ls := by
  show stretches ([] ++ l :: ls) = _
  exact stretches_divided (by simp) divides ls

/-- What ends a line begins with an empty stretch. -/
theorem stretches_of_endsLine {ls : List Lexeme} (ends : endsLine ls = true) {run : List Lexeme}
    (whole : ∀ l ∈ run, l.divides = false) (tail : List Lexeme) :
    stretches (run ++ (ls ++ tail)) = run :: (stretches (ls ++ tail)).tail := by
  obtain ⟨l, ls, rfl, divides⟩ : ∃ l ls', ls = l :: ls' ∧ l.divides = true := by
    unfold endsLine at ends
    split at ends
    · exact ⟨_, _, rfl, rfl⟩
    · exact ⟨_, _, rfl, rfl⟩
    · cases ends
  rw [List.cons_append, stretches_divided whole divides, stretches_cons_of_divides divides]
  rfl

theorem not_endsLine {run : List Lexeme} (filled : run ≠ []) (whole : ∀ l ∈ run, l.divides = false)
    (ls : List Lexeme) : endsLine (run ++ ls) ≠ true := by
  cases run with
  | nil => exact absurd rfl filled
  | cons l run =>
    have inside := (List.forall_mem_cons.mp whole).1
    cases l <;> first | exact Bool.false_ne_true | cases inside

/-! ### Stretches of a body -/

/-- What may stand between two line breaks or braces of a body: states, a condition, and an item. -/
structure Stretch where
  lead : List StateExpr := []
  gate : List Lexeme := []
  item : Option (ItemForm String) := none

theorem ItemForm.core_ne_nil {f : ItemForm String} (opens : f.opensLine = true) : f.core ≠ [] := by
  intro noCore
  obtain ⟨noWeight, noWords⟩ := List.append_eq_nil_iff.mp noCore
  cases weight : f.weight with
  | none => simp [opensLine, weight, List.map_eq_nil_iff.mp noWords] at opens
  | some text => simp [weight] at noWeight

namespace Stretch

def core (s : Stretch) : List Lexeme := s.gate ++ (s.item.map (·.core)).getD []

def trail (s : Stretch) : List StateExpr := (s.item.map (·.states)).getD []

def lexemes (s : Stretch) : List Lexeme :=
  s.lead.map (·.lexeme) ++ (s.core ++ s.trail.map (·.lexeme))

/-- The condition is one, and an item that begins with a state has a condition. -/
structure Fits (s : Stretch) : Prop where
  gate : ∀ l ∈ s.gate, l.isItemPart = true
  trail : s.core = [] → s.trail = []

theorem fits_lead (lead : List StateExpr) : Fits { lead } := ⟨by simp, fun _ => rfl⟩

theorem Fits.withLead {s : Stretch} (fits : s.Fits) (lead : List StateExpr) :
    Fits { s with lead } := ⟨fits.gate, fits.trail⟩

theorem Fits.core {s : Stretch} (fits : s.Fits) : ∀ l ∈ s.core, l.isItemPart = true := by
  rw [Stretch.core, List.forall_mem_append]
  refine ⟨fits.gate, ?_⟩
  cases s.item with
  | none => simp
  | some f => exact ItemForm.isItemPart_of_mem_core

end Stretch

def BodyForm.ofStretches (ss : List Stretch) : BodyForm String :=
  ⟨ss.filterMap (·.item), ss.flatMap (·.lead)⟩

theorem ItemForm.divides_of_mem {f : ItemForm String} : ∀ l ∈ f.lexemes, l.divides = false := by
  intro l member
  rcases f.part_of_mem l member with part | isState
  · exact Lexeme.divides_of_isItemPart part
  · cases l <;> first | rfl | cases isState

-- A state joins the stretch that goes on behind it, so the first stretch is given apart. An item fills
-- its stretch: behind it the line ends, and the stretch that is given there is empty.
theorem Block.exists_stretches {condition : Option Condition} {ls : List Lexeme}
    {body : BodyForm String} (h : Block condition ls body) :
    ∃ first more, body = .ofStretches (first :: more) ∧ (∀ s ∈ first :: more, s.Fits) ∧
      (endsLine ls = true → first = {}) ∧
      ∀ tail, stretches (ls ++ tail) = (first :: more).map (·.lexemes) ++ stretches tail := by
  induction h with
  | close =>
    refine ⟨{}, [], rfl, by simpa using Stretch.fits_lead [], fun _ => rfl, fun tail => ?_⟩
    exact stretches_cons_of_divides rfl tail
  | @lineBreak mark ls body more ih =>
    obtain ⟨first, others, rfl, fits, -, split⟩ := ih
    refine ⟨{}, first :: others, rfl, List.forall_mem_cons.mpr ⟨Stretch.fits_lead [], fits⟩,
      fun _ => rfl, fun tail => ?_⟩
    rw [List.cons_append, stretches_cons_of_divides rfl, split]
    rfl
  | @state s ls body more ih =>
    obtain ⟨first, others, rfl, fits, -, split⟩ := ih
    rw [List.forall_mem_cons] at fits
    refine ⟨{ first with lead := s :: first.lead }, others, rfl,
      List.forall_mem_cons.mpr ⟨fits.1.withLead _, fits.2⟩, ?_, fun tail => ?_⟩
    · intro ends
      cases ends
    · rw [List.cons_append, stretches_cons rfl, split]
      rfl
  | @item f ls body under opens filled ends more ih =>
    obtain ⟨first, others, rfl, fits, empty, split⟩ := ih
    obtain rfl := empty ends
    rw [List.forall_mem_cons] at fits
    refine ⟨{ item := some f }, others, rfl,
      List.forall_mem_cons.mpr ⟨⟨by simp, fun noCore => ?_⟩, fits.2⟩, ?_, fun tail => ?_⟩
    · exact absurd noCore (ItemForm.core_ne_nil opens)
    · exact fun ends' => absurd ends' (not_endsLine (ItemForm.lexemes_ne_nil filled)
        ItemForm.divides_of_mem ls)
    · rw [List.append_assoc, stretches_of_endsLine ends ItemForm.divides_of_mem, split]
      rfl

/-! ### Stretches of a conditional body -/

/-- A stretch of a conditional body, and those of the block that its condition opens. -/
structure GatedLine where
  stretch : Stretch
  block : List Stretch := []

namespace GatedLine

def runs (line : GatedLine) : List (List Lexeme) :=
  line.stretch.lexemes :: line.block.map (·.lexemes)

def items (rule : String) (line : GatedLine) : List (ItemForm String) :=
  line.stretch.item.toList ++ (BodyForm.ofStretches line.block).spread rule

structure Fits (line : GatedLine) : Prop where
  stretch : line.stretch.Fits
  block : ∀ s ∈ line.block, s.Fits
  holds : line.block ≠ [] → (BodyForm.ofStretches line.block).items ≠ []

theorem Fits.single {s : Stretch} (fits : s.Fits) : Fits ⟨s, []⟩ :=
  ⟨fits, by simp, by simp⟩

end GatedLine

def BodyForm.ofLines (rule : String) (lines : List GatedLine) : BodyForm String :=
  ⟨lines.flatMap (·.items rule), lines.flatMap (·.stretch.lead)⟩

theorem ne_nil_of_expresses {level : Condition.Level} {ls : List Lexeme} {c : Condition}
    (h : Condition.Expresses .tree level ls c) : ls ≠ [] := by
  induction h with
  | operand _ ih => exact ih
  | conjunction _ ih => exact ih
  | _ => simp

theorem GatedBody.exists_lines {rule : String} {ls : List Lexeme} {body : BodyForm String}
    (h : GatedBody rule ls body) :
    ∃ first more, body = .ofLines rule (first :: more) ∧ (∀ line ∈ first :: more, line.Fits) ∧
      (endsLine ls = true → first = ⟨{}, []⟩) ∧
      ∀ tail, stretches (ls ++ tail) = (first :: more).flatMap (·.runs) ++ stretches tail := by
  have emptyFits : GatedLine.Fits ⟨{}, []⟩ := .single (Stretch.fits_lead [])
  induction h with
  | close =>
    refine ⟨⟨{}, []⟩, [], rfl, List.forall_mem_singleton.mpr emptyFits, fun _ => rfl,
      fun tail => ?_⟩
    exact stretches_cons_of_divides rfl tail
  | @lineBreak mark ls body more ih =>
    obtain ⟨first, others, rfl, fits, -, split⟩ := ih
    refine ⟨⟨{}, []⟩, first :: others, rfl, List.forall_mem_cons.mpr ⟨emptyFits, fits⟩,
      fun _ => rfl, fun tail => ?_⟩
    rw [List.cons_append, stretches_cons_of_divides rfl, split]
    rfl
  | @state s ls body more ih =>
    obtain ⟨⟨stretch, block⟩, others, rfl, fits, -, split⟩ := ih
    obtain ⟨⟨stretchFits, blockFits, holds⟩, othersFit⟩ := List.forall_mem_cons.mp fits
    refine ⟨⟨{ stretch with lead := s :: stretch.lead }, block⟩, others, rfl,
      List.forall_mem_cons.mpr ⟨⟨stretchFits.withLead _, blockFits, holds⟩, othersFit⟩, ?_,
      fun tail => ?_⟩
    · intro ends
      cases ends
    · rw [List.cons_append, stretches_cons rfl, split]
      rfl
  | @block c cs bs ls block body gate lines holds more ih =>
    obtain ⟨first, others, rfl, fits, -, split⟩ := ih
    obtain ⟨inner, inners, rfl, innerFits, -, innerSplit⟩ := lines.exists_stretches
    have parts := isItemPart_of_expresses gate
    have whole := fun l member => Lexeme.divides_of_isItemPart (parts l member)
    refine ⟨⟨{ gate := cs }, inner :: inners⟩, first :: others, rfl,
      List.forall_mem_cons.mpr ⟨⟨⟨parts, fun _ => rfl⟩, innerFits, fun _ => holds⟩, fits⟩, ?_,
      fun tail => ?_⟩
    · exact fun ends => absurd ends (not_endsLine (ne_nil_of_expresses gate) whole _)
    · rw [List.append_assoc, List.cons_append, stretches_divided whole rfl, List.append_assoc,
        innerSplit, split]
      simp [GatedLine.runs, Stretch.lexemes, Stretch.core, Stretch.trail]
  | @item c cs ls f body gate under filled ends more ih =>
    obtain ⟨first, others, rfl, fits, empty, split⟩ := ih
    obtain rfl := empty ends
    have parts := isItemPart_of_expresses gate
    have whole : ∀ l ∈ cs ++ f.lexemes, l.divides = false :=
      List.forall_mem_append.mpr
        ⟨fun l member => Lexeme.divides_of_isItemPart (parts l member), ItemForm.divides_of_mem⟩
    have filledGate := ne_nil_of_expresses gate
    refine ⟨⟨{ gate := cs, item := some f }, []⟩, others, rfl,
      List.forall_mem_cons.mpr
        ⟨.single ⟨parts, fun noCore => absurd (List.append_eq_nil_iff.mp noCore).1 filledGate⟩,
          (List.forall_mem_cons.mp fits).2⟩, ?_, fun tail => ?_⟩
    · rw [← List.append_assoc]
      exact fun ends' => absurd ends' (not_endsLine (by simp [filledGate]) whole ls)
    · rw [← List.append_assoc, List.append_assoc, stretches_of_endsLine ends whole, split]
      simp [GatedLine.runs, Stretch.lexemes, Stretch.core, Stretch.trail, ItemForm.lexemes_eq]

/-! ### Where states go -/

/-- The states at the front of a stretch are states of the rule, or of an item, where they take the
name of the rule for want of a value; the states at its end are the last ones of an item. -/
structure StatesGo (rule : String) (states : List StateExpr) (items : List (List StateExpr))
    (lead trail : List StateExpr) : Prop where
  lead : lead <:+: states ∨ ∃ own ∈ items, lead.map (·.orValue rule) <:+: own
  trail : trail ≠ [] → ∃ own ∈ items, trail <:+ own

def RuleForm.StatesGo {α : Type} (r : RuleForm α) : List StateExpr → List StateExpr → Prop :=
  WeightedGrammar.StatesGo r.name r.body.states (r.body.items.map (·.states))

def RuleForm.Holds (r : RuleForm String) (run : List Lexeme) : Prop :=
  ∃ s : Stretch, run = s.lexemes ∧ s.Fits ∧ r.StatesGo s.lead s.trail

theorem Stretch.exists_of_trail {s : Stretch} (filled : s.trail ≠ []) :
    ∃ f, s.item = some f ∧ s.trail = f.states := by
  cases isItem : s.item with
  | none => simp [trail, isItem] at filled
  | some f => exact ⟨f, rfl, by simp [trail, isItem]⟩

theorem statesGo_of_mem {name : String} {ss : List Stretch} {s : Stretch} (member : s ∈ ss) :
    RuleForm.StatesGo ⟨name, false, .ofStretches ss⟩ s.lead s.trail := by
  refine ⟨.inl (List.infix_of_mem_flatten (List.mem_map_of_mem member)), fun filled => ?_⟩
  obtain ⟨f, isItem, isTrail⟩ := s.exists_of_trail filled
  refine ⟨f.states, List.mem_map_of_mem (List.mem_filterMap.mpr ⟨s, member, isItem⟩), ?_⟩
  exact isTrail ▸ List.suffix_rfl

theorem statesGo_of_mem_lines {name : String} {lines : List GatedLine} {line : GatedLine}
    (member : line ∈ lines) :
    RuleForm.StatesGo ⟨name, true, .ofLines name lines⟩ line.stretch.lead line.stretch.trail := by
  refine ⟨.inl (List.infix_of_mem_flatten (List.mem_map_of_mem member)), fun filled => ?_⟩
  obtain ⟨f, isItem, isTrail⟩ := line.stretch.exists_of_trail filled
  refine ⟨f.states, List.mem_map_of_mem (List.mem_flatMap.mpr ⟨line, member, ?_⟩), ?_⟩
  · simp [GatedLine.items, isItem]
  · exact isTrail ▸ List.suffix_rfl

theorem statesGo_of_mem_block {name : String} {lines : List GatedLine} {line : GatedLine}
    (member : line ∈ lines) (fits : line.Fits) {s : Stretch} (inside : s ∈ line.block) :
    RuleForm.StatesGo ⟨name, true, .ofLines name lines⟩ s.lead s.trail := by
  let states := (BodyForm.ofStretches line.block).states.map (·.orValue name)
  have spread : ∀ f ∈ (BodyForm.ofStretches line.block).items,
      states ++ f.states ∈ (BodyForm.ofLines name lines).items.map (·.states) := by
    intro f isItem
    refine List.mem_map.mpr ⟨f.withStates states, List.mem_flatMap.mpr ⟨line, member, ?_⟩, rfl⟩
    exact List.mem_append_right _ (List.mem_map_of_mem isItem)
  constructor
  · obtain ⟨f, isItem⟩ := List.exists_mem_of_ne_nil _ (fits.holds (List.ne_nil_of_mem inside))
    have part : s.lead <:+: (BodyForm.ofStretches line.block).states :=
      List.infix_of_mem_flatten (List.mem_map_of_mem inside)
    exact .inr ⟨_, spread f isItem, (part.map _).trans (List.prefix_append ..).isInfix⟩
  · intro filled
    obtain ⟨f, isItem, isTrail⟩ := s.exists_of_trail filled
    rw [isTrail]
    exact ⟨_, spread f (List.mem_filterMap.mpr ⟨s, inside, isItem⟩), List.suffix_append ..⟩

/-- The stretches of a rule, and one in front of them that holds no state. -/
theorem RuleText.exists_stretches {ls : List Lexeme} {form : RuleForm String}
    (h : RuleText ls form) (tail : List Lexeme) :
    ∃ head runs, stretches (ls ++ tail) = head :: runs ++ stretches tail ∧
      (∀ l ∈ head, l.isState = false) ∧ ∀ run ∈ runs, form.Holds run := by
  cases h with
  | plain name lines =>
    obtain ⟨first, more, rfl, fits, -, split⟩ := lines.exists_stretches
    refine ⟨[.name name], (first :: more).map (·.lexemes), ?_, by simp [Lexeme.isState], ?_⟩
    · rw [List.cons_append, List.cons_append, List.cons_append, ← split]
      show stretches ([.name name] ++ .openBrace :: _) = _
      exact stretches_divided (by simp [Lexeme.divides]) rfl _
    · rw [List.forall_mem_map]
      exact fun s member => ⟨s, rfl, fits s member, statesGo_of_mem member⟩
  | gated name lines =>
    obtain ⟨first, more, rfl, fits, -, split⟩ := lines.exists_lines
    refine ⟨[.name name, .question], (first :: more).flatMap (·.runs), ?_,
      by simp [Lexeme.isState], ?_⟩
    · rw [List.cons_append, List.cons_append, List.cons_append, List.cons_append, ← split]
      show stretches ([.name name, .question] ++ .openBrace :: _) = _
      exact stretches_divided (by simp [Lexeme.divides]) rfl _
    · intro run member
      obtain ⟨line, isLine, isRun⟩ := List.mem_flatMap.mp member
      rcases List.mem_cons.mp isRun with rfl | inside
      · exact ⟨_, rfl, (fits line isLine).stretch, statesGo_of_mem_lines isLine⟩
      · obtain ⟨s, isStretch, rfl⟩ := List.mem_map.mp inside
        exact ⟨s, rfl, (fits line isLine).block s isStretch,
          statesGo_of_mem_block isLine (fits line isLine) isStretch⟩

theorem RulesText.holds {ls : List Lexeme} {forms : List (RuleForm String)}
    (h : RulesText ls forms) : ∀ run ∈ stretches ls,
      (∀ l ∈ run, l.isState = false) ∨ ∃ form ∈ forms, form.Holds run := by
  induction h with
  | endOfInput =>
    intro run member
    rw [stretches, List.splitOnP_eq_singleton (by simp [Lexeme.divides])] at member
    obtain rfl := List.mem_singleton.mp member
    exact .inl (by simp [Lexeme.isState])
  | lineBreak mark more ih =>
    rw [stretches_cons_of_divides rfl]
    exact List.forall_mem_cons.mpr ⟨.inl (by simp), ih⟩
  | rule first more ih =>
    obtain ⟨head, runs, split, noState, holds⟩ := first.exists_stretches _
    rw [split, List.cons_append]
    refine List.forall_mem_cons.mpr ⟨.inl noState, List.forall_mem_append.mpr ⟨?_, ?_⟩⟩
    · exact fun run member => .inr ⟨_, List.mem_cons_self, holds run member⟩
    · intro run member
      refine (ih run member).imp_right ?_
      rintro ⟨form, isForm, held⟩
      exact ⟨form, List.mem_cons_of_mem _ isForm, held⟩

theorem statesLast_iff {lead core trail : List Lexeme} (leadStates : ∀ l ∈ lead, l.isState = true)
    (coreParts : lead ≠ [] → ∀ l ∈ core, l.isItemPart = true)
    (noStates : ∀ l ∈ core, l.isState = false) (trailStates : ∀ l ∈ trail, l.isState = true) :
    StatesLast (lead ++ (core ++ trail)) ↔ lead = [] ∨ core = [] := by
  have notPart : ∀ l : Lexeme, l.isState = true → l.isItemPart = false := by
    intro l isState
    cases l <;> first | rfl | cases isState
  unfold StatesLast
  constructor
  · intro last
    by_cases begins : lead = []
    · exact .inl begins
    · right
      obtain ⟨s, isLead⟩ := List.exists_mem_of_ne_nil _ begins
      refine List.eq_nil_iff_forall_not_mem.mpr fun l isCore => ?_
      have apart := (List.pairwise_append.mp last).2.2 s isLead l (List.mem_append_left _ isCore)
        (leadStates s isLead)
      rw [coreParts begins l isCore] at apart
      cases apart
  · rintro (rfl | rfl)
    · rw [List.nil_append]
      refine List.pairwise_append.mpr ⟨?_, ?_, fun l isCore _ _ isState => ?_⟩
      · refine List.pairwise_of_forall_mem_list fun l isCore _ _ isState => ?_
        rw [noStates l isCore] at isState
        cases isState
      · exact List.pairwise_of_forall_mem_list
          fun _ _ l isTrail _ => notPart l (trailStates l isTrail)
      · rw [noStates l isCore] at isState
        cases isState
    · refine List.pairwise_of_forall_mem_list fun _ _ l isLead _ => notPart l ?_
      exact (List.mem_append.mp isLead).elim (leadStates l) (trailStates l)

variable {ω : Type} [Scalar ω]

def Rule.StatesGo (rule : Rule ω) : List StateExpr → List StateExpr → Prop :=
  WeightedGrammar.StatesGo rule.name rule.states (rule.items.map (·.states))

/-- In an accepted text, a stretch between line breaks and braces is states, then parts of an item,
then states. No state stands in front of a part if and only if there are none at the front, or no
parts. -/
theorem Grammar.states_of_ofText {text name : String} {g : Grammar ω} {tokens : List Token}
    (loaded : Grammar.ofText text name = .ok g) (lexed : Token.ofText text = .ok tokens)
    {run : List Lexeme} (isStretch : run ∈ stretches (tokens.map (·.lexeme))) :
    ∃ (lead : List StateExpr) (core : List Lexeme) (trail : List StateExpr),
      run = lead.map (·.lexeme) ++ (core ++ trail.map (·.lexeme)) ∧
      (∀ l ∈ core, l.isState = false) ∧ (core = [] → trail = []) ∧
      (StatesLast run ↔ lead = [] ∨ core = []) ∧
      (lead ≠ [] ∨ trail ≠ [] → ∃ rule ∈ g.rules, rule.StatesGo lead trail) := by
  obtain ⟨tokens', forms, lexed', derives, -, rfl⟩ := Grammar.ofText_eq_ok_iff.mp loaded
  obtain rfl : tokens = tokens' := Except.ok.inj (lexed.symm.trans lexed')
  rcases derives.holds run isStretch with noState | ⟨form, isForm, s, rfl, fits, go⟩
  · have last : StatesLast ([] ++ (run ++ [])) ↔ _ :=
      statesLast_iff (by simp) (by simp) noState (by simp)
    refine ⟨[], run, [], by simp, noState, fun _ => rfl, ?_, by simp⟩
    simpa using last
  · have noState := fun l member => Lexeme.isState_of_isItemPart (fits.core l member)
    have isState : ∀ states : List StateExpr, ∀ l ∈ states.map (·.lexeme), l.isState = true := by
      simp [StateExpr.lexeme, Lexeme.isState]
    refine ⟨s.lead, s.core, s.trail, rfl, noState, fits.trail, ?_, fun _ => ?_⟩
    · rw [← List.map_eq_nil_iff (f := (·.lexeme))]
      exact statesLast_iff (isState s.lead) (fun _ => fits.core) noState (isState s.trail)
    · refine ⟨_, List.mem_map_of_mem (List.mem_map_of_mem isForm), ?_⟩
      simpa [Rule.StatesGo, RuleForm.StatesGo, RuleForm.rule, RuleForm.valued, BodyForm.valued,
        ItemForm.valued, ItemForm.item, Function.comp_def] using go

def leadingText : String := "R \x7b\n =X 'a'\n\x7d"

def leadingTokens : List Token :=
  [⟨.name "R", 1⟩, ⟨.openBrace, 1⟩, ⟨.lineBreak .feed, 1⟩, ⟨.state "X" none, 2⟩, ⟨.literal "a", 2⟩,
    ⟨.lineBreak .feed, 2⟩, ⟨.closeBrace, 3⟩, ⟨.endOfInput, 3⟩]

theorem ofText_leadingText : Token.ofText leadingText = .ok leadingTokens := by decide +kernel

theorem exists_ofText_leadingText : ∃ g : Grammar Float, Grammar.ofText leadingText = .ok g :=
  exists_ok_of_isOk (by decide +kernel)

theorem mem_stretches_leadingTokens :
    [.state "X" none, .literal "a"] ∈ stretches (leadingTokens.map (·.lexeme)) := by
  decide +kernel

theorem not_statesLast_leading : ¬StatesLast [.state "X" none, .literal "a"] := by
  simp [StatesLast, Lexeme.isState, Lexeme.isItemPart]

theorem Grammar.states_of_ofText_leading :
    ∃ g : Grammar Float, Grammar.ofText leadingText = .ok g ∧
      ∃ (lead : List StateExpr) (core : List Lexeme) (trail : List StateExpr),
        [.state "X" none, .literal "a"] = lead.map (·.lexeme) ++ (core ++ trail.map (·.lexeme)) ∧
        lead ≠ [] ∧ core ≠ [] ∧ ∃ rule ∈ g.rules, rule.StatesGo lead trail := by
  obtain ⟨g, loaded⟩ := exists_ofText_leadingText
  obtain ⟨lead, core, trail, split, -, -, last, go⟩ :=
    Grammar.states_of_ofText loaded ofText_leadingText mem_stretches_leadingTokens
  obtain ⟨begins, goesOn⟩ := not_or.mp (mt last.mpr not_statesLast_leading)
  exact ⟨g, loaded, lead, core, trail, split, begins, goesOn, go (.inl begins)⟩

/-- A state may stand in front of an item on its line. -/
theorem Grammar.exists_state_first : ¬∀ (text : String) (g : Grammar Float) (tokens : List Token),
    Grammar.ofText text = .ok g → Token.ofText text = .ok tokens →
      ∀ run ∈ stretches (tokens.map (·.lexeme)), StatesLast run := by
  intro always
  obtain ⟨g, loaded⟩ := exists_ofText_leadingText
  exact not_statesLast_leading (always leadingText g leadingTokens loaded ofText_leadingText _
    mem_stretches_leadingTokens)

end WeightedGrammar
