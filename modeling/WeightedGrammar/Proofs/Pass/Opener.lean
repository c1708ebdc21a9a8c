import WeightedGrammar.Proofs.Condition.Truth
import WeightedGrammar.Proofs.Grammar.Opener
import WeightedGrammar.Proofs.Grammar.WellFormed

/-!
Passes behind an opener. A pass from the opener of some rules takes one draw, and goes on as the
pass from those rules does, one level deeper and with one more rule in its history
(`Generator.opens_of_ofText`). It is followed step by step (`PassM.Follows`): the opener is in no
condition, so that all choices are the same.
-/

namespace WeightedGrammar
variable {ω σ : Type}

/-! ### What stands behind a firing of the opener -/

def Note.deeper : Note → Note
  | fired depth rule choice => .fired (depth + 1) rule choice
  | warned warning => .warned warning

def PassError.deeper : PassError → PassError
  | depthExceeded rule limit => .depthExceeded rule (limit + 1)
  | e => e

/-- The guard one level deeper. -/
def Settings.deeper (s : Settings) : Settings := { s with maxDepth := s.maxDepth.map (· + 1) }

def openerNotes (opener : String) (trace : Bool) : Array Note :=
  if trace then #[.fired 0 opener (some 0)] else #[]

/-- The record behind a draw of the opener, which is fired with its only item. -/
def Record.behind (opener : String) (trace : Bool) (r : Record) : Record where
  tokens := r.tokens
  states := r.states
  fired := ⟨(opener, some 0) :: r.fired.entries⟩
  warnings := r.warnings
  notes := openerNotes opener trace ++ r.notes.map .deeper
  draws := r.draws + 1

/-- The outcome behind the opener. A result stays a result, and a pass that is cut is cut at the same
rule, under a limit that is one level deeper. -/
def Outcome.behind (opener : String) (trace : Bool) (o : Outcome) : Outcome :=
  ⟨o.record.behind opener trace, o.error.map .deeper⟩

def Progress.behind (opener : String) (trace : Bool) (p : Progress σ) : Progress σ :=
  { p with record := p.record.behind opener trace }

def resultBehind {α : Type} (opener : String) (trace : Bool) :
    EStateM.Result PassError (Progress σ) α → EStateM.Result PassError (Progress σ) α
  | .ok a q => .ok a (q.behind opener trace)
  | .error e q => .error e.deeper (q.behind opener trace)

section Records
variable {opener : String} {trace : Bool}

theorem hasFired_behind (r : Record) (name : String) :
    (r.behind opener trace).hasFired name = (opener == name || r.hasFired name) := rfl

theorem emit_behind (r : Record) (token : String) :
    (r.behind opener trace).emit token = (r.emit token).behind opener trace := rfl

theorem fire_behind (r : Record) {name : String} (other : name ≠ opener) (choice : Option Nat) :
    (r.behind opener trace).fire name choice = (r.fire name choice).behind opener trace := by
  simp [Record.fire, Record.behind, Register.set, Register.put, Ne.symm other]

theorem note_behind (r : Record) (n : Note) :
    (r.behind opener trace).note n.deeper = (r.note n).behind opener trace := by
  simp [Record.note, Record.behind]

theorem warn_behind (r : Record) (w : Warning) :
    (r.behind opener trace).warn w = (r.warn w).behind opener trace := by
  simp [Record.warn, Record.behind, Note.deeper]

theorem setState_behind (rule : Rule ω) (item : Option (Item ω)) (r : Record) (s : StateExpr) :
    Record.setState rule item (r.behind opener trace) s =
      (Record.setState rule item r s).behind opener trace := by
  unfold Record.setState
  split
  · rfl
  · rfl
  · split
    · exact warn_behind r _
    · split
      · rfl
      · exact warn_behind r _

theorem foldl_setState_behind (rule : Rule ω) (item : Option (Item ω)) (states : List StateExpr)
    (r : Record) :
    states.foldl (Record.setState rule item) (r.behind opener trace) =
      (states.foldl (Record.setState rule item) r).behind opener trace := by
  induction states generalizing r with
  | nil => rfl
  | cons s states ih => rw [List.foldl_cons, List.foldl_cons, setState_behind, ih]

end Records

/-! ### Following a pass -/

/-- Behind the opener the second computation does what the first one does without it. -/
def PassM.Follows {α : Type} (opener : String) (trace : Bool) (m m' : PassM σ α) : Prop :=
  ∀ p : Progress σ, m' (p.behind opener trace) = resultBehind opener trace (m p)

section Follows
variable {opener : String} {trace : Bool} {α β : Type}

theorem follows_pure (a : α) : PassM.Follows opener trace (pure a : PassM σ α) (pure a) :=
  fun _ => rfl

theorem follows_throw (e : PassError) :
    PassM.Follows opener trace (throw e : PassM σ α) (throw e.deeper) :=
  fun _ => rfl

theorem follows_update {f f' : Record → Record}
    (same : ∀ r, f' (r.behind opener trace) = (f r).behind opener trace) :
    PassM.Follows opener trace (PassM.update f : PassM σ Unit) (PassM.update f') := by
  intro p
  show EStateM.Result.ok () (Progress.mk (f' (p.record.behind opener trace)) p.supply) = _
  rw [same]
  rfl

/-- What comes next is followed for all that the first computation can give. -/
theorem PassM.Follows.bind {m m' : PassM σ α} {k k' : α → PassM σ β}
    (first : PassM.Follows opener trace m m')
    (next : ∀ a p q, m p = .ok a q → PassM.Follows opener trace (k a) (k' a)) :
    PassM.Follows opener trace (m >>= k) (m' >>= k') := by
  intro p
  show EStateM.bind m' k' _ = resultBehind opener trace (EStateM.bind m k p)
  rw [EStateM.bind, EStateM.bind, first p]
  cases came : m p with
  | error e q => rfl
  | ok a q => exact next a p q came q

theorem follows_forM {γ : Type} {f f' : γ → PassM σ Unit} {xs : List γ}
    (each : ∀ x ∈ xs, PassM.Follows opener trace (f x) (f' x)) :
    PassM.Follows opener trace (xs.forM f) (xs.forM f') := by
  induction xs with
  | nil => exact follows_pure ()
  | cons x xs ih =>
    obtain ⟨one, others⟩ := List.forall_mem_cons.mp each
    rw [List.forM_eq_forM] at ih ⊢
    rw [List.forM_cons, List.forM_cons]
    exact one.bind fun _ _ _ _ => ih others

end Follows

/-! ### Choosing -/

section Choosing
variable [Scalar ω] {opener : String} {trace : Bool} {rule : Rule ω}
  {hasFired later : String → Bool}

theorem ballot?_congr
    (same : ∀ item ∈ rule.items, ∀ c ∈ item.condition, ∀ name ∈ c.names,
      later name = hasFired name) : rule.ballot? later = rule.ballot? hasFired := by
  have satisfied : rule.satisfied later = rule.satisfied hasFired := by
    refine List.filterMap_congr fun ⟨item, place⟩ member => ?_
    have isItem := List.mem_of_getElem? (List.mk_mem_zipIdx_iff_getElem?.mp member)
    have evaluates : item.condition.any (·.evaluate later) =
        item.condition.any (·.evaluate hasFired) := by
      cases under : item.condition with
      | none => rfl
      | some c => exact Condition.evaluate_congr (same item isItem c under)
    dsimp only
    rw [evaluates]
  rw [Rule.ballot?, Rule.ballot?, satisfied]

variable [Supply σ ω]

theorem chooseItem_eq (rule : Rule ω) (p : Progress σ) :
    rule.chooseItem p =
      if rule.conditional && rule.items.any (·.condition.isNone) then
        .error (.illFormed rule.name .noCondition) p
      else
        match rule.ballot? p.record.hasFired with
        | none => .ok none p
        | some ballot =>
          .ok (ballot.pick (Supply.draw p.supply).1)
            ⟨p.record.countDraw, (Supply.draw p.supply).2⟩ := by
  unfold Rule.chooseItem
  split
  · rfl
  · show (match rule.ballot? p.record.hasFired with
      | none => pure none
      | some ballot => do return ballot.pick (← PassM.draw) : PassM σ (Option Nat)) p = _
    cases rule.ballot? p.record.hasFired <;> rfl

/-- The rule is another one than the opener, and has no condition on it. -/
structure Rule.Ignores (opener : String) (rule : Rule ω) : Prop where
  other : rule.name ≠ opener
  unmentioned : ∀ item ∈ rule.items, ∀ c ∈ item.condition, opener ∉ c.names

theorem follows_chooseItem (ignores : rule.Ignores opener) :
    PassM.Follows opener trace (rule.chooseItem : PassM σ (Option Nat)) rule.chooseItem := by
  intro p
  have same : rule.ballot? (p.behind opener trace).record.hasFired =
      rule.ballot? p.record.hasFired := by
    apply ballot?_congr
    intro item isItem c under name isName
    have other : (opener == name) = false := by
      rw [beq_eq_false_iff_ne]
      rintro rfl
      exact ignores.unmentioned item isItem c under isName
    show (p.record.behind opener trace).hasFired name = _
    rw [hasFired_behind, other, Bool.false_or]
  rw [chooseItem_eq, chooseItem_eq, same]
  split
  · rfl
  · split <;> rfl

end Choosing

/-! ### Firing -/

section Firing
variable {opener : String} {trace : Bool} {rule : Rule ω}

theorem follows_setStates (item : Option (Item ω)) (states : List StateExpr) :
    PassM.Follows opener trace (PassM.setStates rule item states : PassM σ Unit)
      (PassM.setStates rule item states) :=
  follows_update (foldl_setState_behind rule item states)

/-- What is left of the opening of a rule that has fired: its states are set, and those of the item
that it has chosen. -/
def Rule.settle (rule : Rule ω) (choice : Option Nat) : PassM σ (List Element) := do
  PassM.setStates rule none rule.states
  match choice with
  | none => return []
  | some place =>
    match rule.items[place]? with
    | none => throw (.illFormed rule.name (.noItem place))
    | some item =>
      PassM.setStates rule (some item) item.states
      return item.elements

theorem follows_settle (choice : Option Nat) :
    PassM.Follows opener trace (rule.settle choice : PassM σ (List Element))
      (rule.settle choice) := by
  refine (follows_setStates none rule.states).bind fun _ _ _ _ => ?_
  cases choice with
  | none => exact follows_pure []
  | some place =>
    dsimp only
    cases rule.items[place]? with
    | none => exact follows_throw _
    | some item =>
      exact (follows_setStates (some item) item.states).bind fun _ _ _ _ => follows_pure _

variable [Scalar ω] [Supply σ ω]

theorem follows_enter (ignores : rule.Ignores opener) (s : Settings) (depth : Nat) :
    PassM.Follows opener trace (rule.enter s depth : PassM σ (List Element))
      (rule.enter s.deeper (depth + 1)) := by
  have choosing : PassM.Follows opener trace (rule.chooseItem : PassM σ _) rule.chooseItem :=
    follows_chooseItem ignores
  unfold Rule.enter
  refine choosing.bind fun choice _ _ _ => ?_
  refine (follows_update fun r => fire_behind r ignores.other choice).bind fun _ _ _ _ => ?_
  show PassM.Follows opener trace
    (if s.trace then do
      PassM.update (·.note (.fired depth rule.name choice))
      rule.settle choice
    else rule.settle choice)
    (if s.trace then do
      PassM.update (·.note (.fired (depth + 1) rule.name choice))
      rule.settle choice
    else rule.settle choice)
  split
  · refine (follows_update fun r => ?_).bind fun _ _ _ _ => follows_settle choice
    exact note_behind r (.fired depth rule.name choice)
  · exact follows_settle choice

theorem cut_deeper (s : Settings) (name : String) : s.deeper.cut name = (s.cut name).deeper := by
  unfold Settings.cut Settings.deeper
  cases s.maxDepth <;> rfl

omit [Scalar ω] [Supply σ ω] in
theorem getElem?_of_prefix {α : Type} {xs ys : List α} {place : Nat} {a : α} (front : xs <+: ys)
    (found : xs[place]? = some a) : ys[place]? = some a := by
  obtain ⟨inside, rfl⟩ := List.getElem?_eq_some_iff.mp found
  exact List.prefix_iff_getElem?.mp front place inside

/-- Rules of a grammar are followed one level deeper in one that has more rules behind them. -/
theorem follows_fire {g g' : Grammar ω} (sound : g.IsSound)
    (ignores : ∀ rule ∈ g.rules, rule.Ignores opener)
    (front : g.rules <+: g'.rules) (s : Settings) (room : Nat) {depth : Nat}
    (isRule : rule ∈ g.rules) :
    PassM.Follows opener trace (g.fire s room depth rule : PassM σ Unit)
      (g'.fire s.deeper room (depth + 1) rule) := by
  induction room generalizing depth rule with
  | zero =>
    rw [Grammar.fire, Grammar.fire, cut_deeper]
    exact follows_throw _
  | succ room ih =>
    refine (follows_enter (ignores rule isRule) s depth).bind fun elements p q entered => ?_
    obtain ⟨choice, -, -, -, rfl, -⟩ := enter_eq_ok_iff.mp entered
    apply follows_forM
    intro element isElement
    cases element with
    | literal text =>
      rw [Grammar.expand, Grammar.expand]
      exact follows_update fun r => emit_behind r text
    | ref name index =>
      obtain ⟨next, found, isNext⟩ := sound.exists_rule_of_elementsOf isRule isElement
      rw [Grammar.expand, Grammar.expand, found, getElem?_of_prefix front found]
      exact ih isNext

end Firing

/-! ### Passes from an opener -/

section Opener
variable [Scalar ω] [Supply σ ω] {g : Grammar ω} {name opener : String} {start : List String}

theorem ignores_of_fresh (wellFormed : g.IsWellFormed) (fresh : opener ∉ g.names) :
    ∀ rule ∈ g.rules, rule.Ignores opener := by
  intro rule isRule
  constructor
  case other =>
    rintro rfl
    exact fresh (List.mem_map_of_mem isRule)
  case unmentioned =>
    intro item isItem c under mentions
    exact fresh (((wellFormed.rules rule isRule).items item isItem).known c under opener mentions)

theorem startRules_opener :
    (g.withOpener name opener start).startRules [opener] = .ok [g.opener opener start] := by
  rw [startRules_eq_ok_iff]
  simp [Grammar.starts, Grammar.withOpener, Grammar.lookup?, Grammar.opener]

omit [Scalar ω] [Supply σ ω] in
/-- References to the start rules are followed as the rules themselves. -/
theorem follows_roots {g' : Grammar ω} {m m' : Rule ω → PassM σ Unit} {trace : Bool}
    (distinct : g.names.Nodup) (front : g.rules <+: g'.rules) {roots : List (Rule ω)}
    (started : roots.map some = start.map g.lookup?)
    (each : ∀ rule ∈ roots, PassM.Follows opener trace (m rule) (m' rule)) :
    PassM.Follows opener trace (roots.forM m)
      ((start.map fun n => Element.ref n (g.names.idxOf n)).forM (g'.expand m')) := by
  induction start generalizing roots with
  | nil =>
    obtain rfl := List.map_eq_nil_iff.mp started
    exact follows_pure ()
  | cons n start ih =>
    obtain ⟨root, others, rfl, isRoot, areOthers⟩ := List.map_eq_cons_iff.mp started
    obtain ⟨one, more⟩ := List.forall_mem_cons.mp each
    have found : g'.rules[g.names.idxOf n]? = some root := by
      rw [eq_comm, Grammar.lookup?_eq_bind_idxOf? distinct] at isRoot
      obtain ⟨place, position, found⟩ := Option.bind_eq_some_iff.mp isRoot
      rw [List.idxOf_eq_getD_idxOf?, position]
      exact getElem?_of_prefix front found
    rw [List.map_cons, List.forM_eq_forM, List.forM_eq_forM, List.forM_cons, List.forM_cons]
    refine PassM.Follows.bind ?_ fun _ _ _ _ => ih areOthers more
    rw [Grammar.expand, found]
    exact one

/-- The opener takes one draw and leaves the start rules to expand. -/
theorem enter_opener (alone : FillsAlone ω) (s : Settings) (supply : σ) :
    (g.opener opener start).enter s 0 ⟨{}, supply⟩ =
      .ok (start.map fun n => .ref n (g.names.idxOf n))
        (Progress.behind opener s.trace ⟨{}, (Supply.draw supply).2⟩) := by
  obtain ⟨place, inside, picked⟩ := exists_pick_of_isFull alone.full (Supply.draw supply).1
  obtain rfl : place = 0 := by simpa using inside
  have chooses : (g.opener opener start).chooseItem (⟨{}, supply⟩ : Progress σ) =
      .ok (some 0) ⟨({} : Record).countDraw, (Supply.draw supply).2⟩ := by
    rw [chooseItem_eq, ballot?_of_plain rfl]
    exact congrArg (EStateM.Result.ok · _) picked
  refine enter_eq_ok_iff.mpr ⟨some 0, _, chooses, by simp [Grammar.opener], rfl, ?_⟩
  cases trace : s.trace <;>
    simp [Progress.behind, Record.behind, openerNotes, Record.enter, Record.fire, Record.note,
      Record.countDraw, Register.set, Register.put, Rule.chosen?, Grammar.opener]

/-- A pass from the opener of some rules follows the pass from those rules. -/
theorem run_opener (sound : g.IsSound) (ignores : ∀ rule ∈ g.rules, rule.Ignores opener)
    (alone : FillsAlone ω) (inhabited : start ≠ []) (defined : ∀ n ∈ start, n ∈ g.names)
    (s : Settings) (room : Nat) (supply : σ) (name : String) :
    (g.withOpener name opener start).run s.deeper (room + 1) [opener] ⟨{}, supply⟩ =
      resultBehind opener s.trace (g.run s room start ⟨{}, (Supply.draw supply).2⟩) := by
  obtain ⟨roots, started⟩ := exists_startRules inhabited defined
  have areRoots : roots.map some = g.starts start := startRules_eq_ok_iff.mp started
  have front : g.rules <+: (g.withOpener name opener start).rules := List.prefix_append ..
  have follows : PassM.Follows opener s.trace (roots.forM (g.fire s room 0) : PassM σ Unit)
      ((start.map fun n => Element.ref n (g.names.idxOf n)).forM
        ((g.withOpener name opener start).expand
          ((g.withOpener name opener start).fire s.deeper room 1))) := by
    apply follows_roots sound.distinct front
    · rw [areRoots, Grammar.starts, if_neg (by simpa using inhabited)]
    · intro rule isRoot
      exact follows_fire sound ignores front s room (mem_rules_of_starts areRoots rule isRoot)
  unfold Grammar.run
  rw [startRules_opener, started]
  show ([g.opener opener start].forM ((g.withOpener name opener start).fire s.deeper (room + 1) 0))
      ⟨{}, supply⟩ =
    resultBehind opener s.trace (roots.forM (g.fire s room 0) ⟨{}, (Supply.draw supply).2⟩)
  rw [List.forM_eq_forM, List.forM_cons, List.forM_nil, bind_pure_unit, Grammar.fire]
  show EStateM.bind ((g.opener opener start).enter s.deeper 0) _ _ = _
  rw [EStateM.bind, enter_opener alone]
  exact follows _

end Opener

/-! ### Outcomes -/

section Injective
variable {opener : String} {trace : Bool}

theorem Note.deeper_injective : Function.Injective Note.deeper := by
  intro m n same
  cases m <;> cases n <;> simp_all [Note.deeper]

theorem PassError.deeper_injective : Function.Injective PassError.deeper := by
  intro e f same
  cases e <;> cases f <;> simp_all [PassError.deeper]

theorem Record.behind_injective : Function.Injective (Record.behind opener trace) := by
  intro r r' same
  obtain ⟨tokens, states, ⟨entries⟩, warnings, notes, draws⟩ := r
  obtain ⟨tokens', states', ⟨entries'⟩, warnings', notes', draws'⟩ := r'
  simp only [Record.behind, Record.mk.injEq, Register.mk.injEq, List.cons.injEq, true_and,
    Nat.add_right_cancel_iff, Array.append_right_inj] at same
  obtain ⟨rfl, rfl, rfl, rfl, sameNotes, rfl⟩ := same
  obtain rfl := (Array.map_inj_right fun _ _ equal => Note.deeper_injective equal).mp sameNotes
  rfl

theorem Outcome.behind_injective : Function.Injective (Outcome.behind opener trace) := by
  intro o o' same
  obtain ⟨sameRecord, sameError⟩ := Outcome.mk.inj same
  rw [Outcome.mk.injEq]
  exact ⟨Record.behind_injective sameRecord,
    Option.map_injective PassError.deeper_injective sameError⟩

end Injective

section Passes
variable [Scalar ω] [Supply σ ω]

theorem room_deeper {s : Settings} (nonneg : ∀ limit ∈ s.maxDepth, 0 ≤ limit) (unguarded : Nat) :
    s.deeper.room (unguarded + 1) = s.room unguarded + 1 := by
  unfold Settings.room Settings.deeper
  cases guard : s.maxDepth with
  | none => rfl
  | some limit =>
    have isLimit := nonneg limit guard
    simp only [Option.map_some]
    omega

/-- A generator with an opener for the start of another one. It is guarded one level deeper, and the
draws of the other one come behind its first draw. -/
structure Generator.Opens (gen gen' : Generator σ ω) (start : List String) (opener : String) :
    Prop where
  /-- With room for one level more it comes out with the same, behind the opener. -/
  runs (unguarded : Nat) :
    gen'.generateWithin (unguarded + 1) [opener] =
      ((gen.generateWithin unguarded start).1.behind opener gen.settings.trace,
        { gen' with supply := (gen.generateWithin unguarded start).2.supply })
  /-- It ends, with a result or an error, exactly where the other one does. -/
  ends (outcome : Outcome) (left : σ) :
    gen.Ends start outcome { gen with supply := left } ↔
      gen'.Ends [opener] (outcome.behind opener gen.settings.trace) { gen' with supply := left }
  /-- There is nothing else that it ends with. -/
  only (outcome' : Outcome) (after' : Generator σ ω) :
    gen'.Ends [opener] outcome' after' → ∃ outcome : Outcome,
      outcome' = outcome.behind opener gen.settings.trace ∧
        after' = { gen' with supply := after'.supply }

variable {gen gen' : Generator σ ω} {start : List String} {opener : String}

/-- A pass leaves a generator as it is but for the draws. -/
theorem opens_of_runs
    (runs : ∀ unguarded, gen'.generateWithin (unguarded + 1) [opener] =
      ((gen.generateWithin unguarded start).1.behind opener gen.settings.trace,
        { gen' with supply := (gen.generateWithin unguarded start).2.supply })) :
    gen.Opens gen' start opener := by
  refine ⟨runs, ?_, ?_⟩
  · intro outcome left
    constructor
    · intro ends
      obtain ⟨enough, ends⟩ := ends
      refine ⟨enough + 1, fun unguarded suffices' => ?_⟩
      obtain ⟨below, rfl⟩ := Nat.exists_eq_add_of_le' (Nat.le_of_add_left_le suffices')
      rw [runs, ends below (by omega)]
    · intro ends
      obtain ⟨enough, ends⟩ := ends
      refine ⟨enough, fun unguarded suffices' => ?_⟩
      have comesOut := ends (unguarded + 1) (Nat.le_succ_of_le suffices')
      rw [runs, Prod.mk.injEq, Generator.mk.injEq] at comesOut
      obtain ⟨sameOutcome, -, sameSupply, -⟩ := comesOut
      refine Prod.ext (Outcome.behind_injective sameOutcome) ?_
      rw [generateWithin_snd, sameSupply]
  · intro outcome' after' ends
    obtain ⟨enough, ends⟩ := ends
    have comesOut := ends (enough + 1) (Nat.le_succ enough)
    rw [runs, Prod.mk.injEq] at comesOut
    obtain ⟨rfl, rfl⟩ := comesOut
    exact ⟨_, rfl, rfl⟩

/-- The opener of some rules opens passes from them, with any draw in front and under any guard that
is not negative, or none. -/
theorem opens_withOpener (sound : gen.grammar.IsSound)
    (ignores : ∀ rule ∈ gen.grammar.rules, rule.Ignores opener) (alone : FillsAlone ω)
    (inhabited : start ≠ []) (defined : ∀ n ∈ start, n ∈ gen.grammar.names)
    (nonneg : ∀ limit ∈ gen.settings.maxDepth, 0 ≤ limit) {supply : σ}
    (first : (Supply.draw supply).2 = gen.supply) (other : String) :
    gen.Opens ⟨gen.grammar.withOpener other opener start, supply, gen.settings.deeper⟩ start
      opener := by
  apply opens_of_runs
  intro unguarded
  have runs := run_opener sound ignores alone inhabited defined gen.settings
    (gen.settings.room unguarded) supply other
  rw [first] at runs
  unfold Generator.generateWithin EStateM.run
  rw [room_deeper nonneg, runs]
  cases gen.grammar.run gen.settings (gen.settings.room unguarded) start ⟨{}, gen.supply⟩ <;> rfl

end Passes

/-! ### Loaded grammars -/

/-- The opener of some rules of a loaded grammar, written below its text, opens passes from those
rules, with any draw in front and under any guard that is not negative, or none. -/
theorem Generator.opens_of_ofText {σ : Type} [Supply σ Float] {gen : Generator σ Float}
    {text name opener : String} {start : List String}
    (loaded : Grammar.ofText text name = .ok gen.grammar) (inhabited : start ≠ [])
    (defined : ∀ n ∈ start, n ∈ gen.grammar.names) (isName : IsName opener)
    (fresh : opener ∉ gen.grammar.names) {supply : σ} (first : (Supply.draw supply).2 = gen.supply)
    (nonneg : ∀ limit ∈ gen.settings.maxDepth, 0 ≤ limit) (other : String) :
    ∃ g, Grammar.ofText (text ++ "\n" ++ openerText opener start) other = .ok g ∧
      gen.Opens ⟨g, supply, gen.settings.deeper⟩ start opener := by
  have sound := Grammar.isSound_of_ofText loaded
  have ignores := ignores_of_fresh (wellFormed_of_ofText loaded) fresh
  refine ⟨gen.grammar.withOpener other opener start, ?_, ?_⟩
  · exact Grammar.ofText_opener loaded fillsAlone_float inhabited defined isName fresh other
  · exact opens_withOpener sound ignores fillsAlone_float inhabited defined nonneg first other

/-- An opener for the tale, under a guard that cuts it. -/
theorem Generator.opens_of_ofText_tale :
    let cycle : Cycle Float := ⟨#[0.5, 0.25], Nat.two_pos, 0⟩
    let gen : Generator (Cycle Float) Float := ⟨tale Float, cycle.advance, { maxDepth := some 2 }⟩
    Grammar.ofText taleText = .ok gen.grammar ∧
      ∃ g, Grammar.ofText (taleText ++ "\nStory \x7b Tale Hero Tale \x7d") = .ok g ∧
        gen.Opens ⟨g, cycle, { maxDepth := some 3 }⟩ ["Tale", "Hero", "Tale"] "Story" := by
  intro cycle gen
  have names : gen.grammar.names = ["Hero", "Tale"] := by decide +kernel
  have isName : IsName "Story" :=
    ⟨'S', ['t', 'o', 'r', 'y'], rfl, by decide, List.all_eq_true.mp (by decide)⟩
  have defined : ∀ n ∈ ["Tale", "Hero", "Tale"], n ∈ gen.grammar.names := by
    rw [names]
    decide
  have fresh : "Story" ∉ gen.grammar.names := by
    rw [names]
    decide
  have nonneg : ∀ limit ∈ gen.settings.maxDepth, 0 ≤ limit := by
    decide
  refine ⟨ofText_tale, ?_⟩
  exact gen.opens_of_ofText ofText_tale (by decide) defined isName fresh rfl nonneg ""

end WeightedGrammar
