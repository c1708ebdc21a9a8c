import WeightedGrammar.Proofs.Pass.Agenda

/-!
How far a pass comes, and how it ends. `Generator.Comes` speaks of every moment of a pass, also of one
that is aborted or never ends. The room of an unguarded pass is a bound of the recursion and not of
the pass: a run of the grammar in any room goes through moments up to the one that it comes out at
(`generateWithin_cases`), and every moment is one of the runs that have room for it
(`Generator.Comes.exists_run`). So a pass ends when its agenda is cleared (`ends_ok_iff`) or when the
next task is a rule that the guard does not permit (`ends_depthExceeded_iff`).
-/

namespace WeightedGrammar
variable {ω σ : Type}

/-! ### Guards -/

theorem Settings.permits_of_le {s t : Settings} {depth : Nat} (h : s.Permits depth)
    (le : ∀ limit ∈ t.maxDepth, ∃ lower ∈ s.maxDepth, lower ≤ limit) : t.Permits depth := by
  intro limit guarded
  obtain ⟨lower, isLower, lowerLe⟩ := le limit guarded
  exact Int.lt_of_lt_of_le (h lower isLower) lowerLe

/-- Events that are permitted are above the bottom of some room, and of every larger one. -/
theorem exists_room_below {s : Settings} {es : List (Event ω)}
    (permitted : ∀ f ∈ es.filterMap Event.firing?, s.Permits f.depth) :
    ∃ enough, ∀ unguarded, enough ≤ unguarded → Below (s.room unguarded) es := by
  cases guard : s.maxDepth with
  | none =>
    obtain ⟨bottom, below⟩ := exists_below es
    refine ⟨bottom, fun unguarded enough => ?_⟩
    simpa only [Settings.room, guard] using below.mono enough
  | some limit =>
    refine ⟨0, fun unguarded _ f member => ?_⟩
    have within := permitted f member limit guard
    simp only [Settings.room, guard]
    omega

variable [Scalar ω] [Supply σ ω]

/-! ### Passes with any room -/

theorem generateWithin_snd {gen : Generator σ ω} {start : List String} (unguarded : Nat) :
    (gen.generateWithin unguarded start).2 =
      { gen with supply := (gen.generateWithin unguarded start).2.supply } := by
  unfold Generator.generateWithin
  split <;> rfl

/-- The guard alone bounds the room of a guarded pass. -/
theorem generateWithin_of_guarded {gen : Generator σ ω} {limit : Int}
    (guarded : gen.settings.maxDepth = some limit) (unguarded other : Nat) (start : List String) :
    gen.generateWithin unguarded start = gen.generateWithin other start := by
  simp only [Generator.generateWithin, Settings.room, guarded]

theorem ends_of_guarded {gen : Generator σ ω} {limit : Int}
    (guarded : gen.settings.maxDepth = some limit) (unguarded : Nat) (start : List String) :
    gen.Ends start (gen.generateWithin unguarded start).1 (gen.generateWithin unguarded start).2 :=
  ⟨0, fun other _ => generateWithin_of_guarded guarded other unguarded start⟩

/-! ### How far a pass comes -/

/-- After the events, the pass is in the state and has the agenda left. The guard permits every rule
that has fired. -/
def Generator.Comes (gen : Generator σ ω) (start : List String) (es : List (Event ω))
    (left : List (Task ω)) (q : Progress σ) : Prop :=
  (∃ rules : List (Rule ω), rules.map some = gen.grammar.starts start ∧
    Proceeds gen.grammar gen.settings (rules.map (.fire 0)) ⟨{}, gen.supply⟩ es left q) ∧
  ∀ f ∈ es.filterMap Event.firing?, gen.settings.Permits f.depth

variable {gen after : Generator σ ω} {start : List String} {es : List (Event ω)}
  {left : List (Task ω)} {q : Progress σ} {record : Record}

theorem Generator.Comes.proceeds (h : gen.Comes start es left q) {rules : List (Rule ω)}
    (started : rules.map some = gen.grammar.starts start) :
    Proceeds gen.grammar gen.settings (rules.map (.fire 0)) ⟨{}, gen.supply⟩ es left q := by
  obtain ⟨⟨rules', started', proceeds⟩, -⟩ := h
  rwa [map_some_inj (started.trans started'.symm)]

theorem comes_nil {rules : List (Rule ω)} (started : rules.map some = gen.grammar.starts start) :
    gen.Comes start [] (rules.map (.fire 0)) ⟨{}, gen.supply⟩ :=
  ⟨⟨rules, started, .nil _ _⟩, fun _ member => absurd member List.not_mem_nil⟩

/-- The moment after the next firing, where the guard permits it. -/
theorem Generator.Comes.fire {depth : Nat} {rule : Rule ω} {choice : Option Nat} {mid : Progress σ}
    (h : gen.Comes start es (.fire depth rule :: left) q)
    (permitted : gen.settings.Permits depth) (chooses : rule.chooseItem q = .ok choice mid) :
    gen.Comes start (es ++ [.firing ⟨depth, rule, choice⟩])
      (gen.grammar.tasks (depth + 1) (rule.elementsOf choice) ++ left)
      ⟨mid.record.enter gen.settings.trace ⟨depth, rule, choice⟩, mid.supply⟩ := by
  obtain ⟨⟨rules, started, proceeds⟩, allPermitted⟩ := h
  refine ⟨⟨rules, started, proceeds.append (.fire chooses (.nil _ _))⟩, ?_⟩
  rw [List.filterMap_append, List.forall_mem_append]
  exact ⟨allPermitted, fun f member => by rwa [List.mem_singleton.mp member]⟩

/-- A pass that comes to the bottom goes through all that it comes to above. -/
theorem Generator.Comes.exists_rest {bottom : Nat} (h : gen.Comes start es left q)
    (atBottom : AtBottom bottom left) {es' : List (Event ω)} {left' : List (Task ω)}
    {q' : Progress σ} (h' : gen.Comes start es' left' q') (below' : Below bottom es') :
    ∃ more, es = es' ++ more ∧ Proceeds gen.grammar gen.settings left' q' more left q := by
  obtain ⟨⟨rules, started, proceeds⟩, -⟩ := h
  exact proceeds.exists_rest atBottom (h'.proceeds started) below'

theorem Generator.Comes.within {bottom : Nat} (h : gen.Comes start es left q)
    (below : Below bottom es) : Within bottom left := by
  obtain ⟨⟨rules, -, proceeds⟩, -⟩ := h
  refine proceeds.within below fun depth rule member => ?_
  obtain ⟨_, -, same⟩ := List.mem_map.mp member
  cases same
  exact Nat.zero_le bottom

/-! ### Start rules -/

omit [Scalar ω] [Supply σ ω] in
theorem lookup_mapM_eq_error_iff {g : Grammar ω} {e : PassError} :
    start.mapM (fun name => match g.lookup? name with
        | some rule => Except.ok rule
        | none => .error (PassError.unknownStart name)) = .error e ↔
      ∃ name, start.find? (!g.contains ·) = some name ∧ e = .unknownStart name := by
  induction start with
  | nil => simp [pure, Except.pure]
  | cons name start ih =>
    rw [List.mapM_cons]
    cases found : g.lookup? name with
    | none => simp [bind, Except.bind, Grammar.lookup?_eq_none_iff.mp found, eq_comm]
    | some rule =>
      have known : g.contains name = true := by
        rw [← Bool.not_eq_false, ← Grammar.lookup?_eq_none_iff, found]
        simp
      rw [List.find?_cons_of_neg (by simp [known]), ← ih]
      simp [bind_eq_error_iff, pure, Except.pure]

omit [Scalar ω] [Supply σ ω] in
/-- There is no start if a name is not that of a rule, or if there is neither a name nor a rule. -/
theorem startRules_eq_error_iff {g : Grammar ω} {e : PassError} :
    g.startRules start = .error e ↔
      (∃ name, start.find? (!g.contains ·) = some name ∧ e = .unknownStart name) ∨
        start = [] ∧ g.rules = [] ∧ e = .noRules := by
  unfold Grammar.startRules Grammar.top?
  cases start with
  | nil => cases g.rules <;> simp [eq_comm]
  | cons name start =>
    rw [if_neg (by simp)]
    exact lookup_mapM_eq_error_iff.trans (by simp)

omit [Scalar ω] [Supply σ ω] in
/-- Names of rules have start rules. -/
theorem exists_startRules {g : Grammar ω} (inhabited : start ≠ [])
    (defined : ∀ name ∈ start, name ∈ g.names) : ∃ rules, g.startRules start = .ok rules := by
  cases started : g.startRules start with
  | ok rules => exact ⟨rules, rfl⟩
  | error e =>
    rcases startRules_eq_error_iff.mp started with ⟨name, found, -⟩ | ⟨empty, -, -⟩
    · have unknown := List.find?_some found
      have isName := defined name (List.mem_of_find?_eq_some found)
      obtain ⟨rule, isRule, named⟩ := List.mem_map.mp isName
      simp only [Grammar.contains, Bool.not_eq_true', List.any_eq_false, beq_iff_eq] at unknown
      exact absurd named (unknown rule isRule)
    · exact absurd empty inhabited

theorem generateWithin_of_startRules_eq_error {e : PassError}
    (failed : gen.grammar.startRules start = .error e) (unguarded : Nat) :
    gen.generateWithin unguarded start = (⟨{}, some e⟩, gen) := by
  have runs : gen.grammar.run gen.settings (gen.settings.room unguarded) start
      ⟨{}, gen.supply⟩ = .error e ⟨{}, gen.supply⟩ := by
    unfold Grammar.run
    rw [failed]
    rfl
  simp only [Generator.generateWithin, EStateM.run, runs]

/-! ### Moments and runs -/

/-- The outcome of a pass that goes no further. -/
def Settings.outcomeAt (s : Settings) (record : Record) : List (Task ω) → Outcome
  | .fire _ rule :: _ => ⟨record, some (s.cut rule.name)⟩
  | _ => ⟨record, none⟩

omit [Scalar ω] in
@[simp] theorem record_outcomeAt (s : Settings) (record : Record) (left : List (Task ω)) :
    (s.outcomeAt record left).record = record := by
  unfold Settings.outcomeAt
  split <;> rfl

omit [Scalar ω] in
theorem outcomeAt_congr {s t : Settings} (same : t.maxDepth = s.maxDepth) (record : Record)
    (left : List (Task ω)) : t.outcomeAt record left = s.outcomeAt record left := by
  unfold Settings.outcomeAt Settings.cut
  rw [same]

/-- A pass that comes to the bottom of its room comes out there. -/
theorem generateWithin_of_comes (sound : gen.grammar.IsSound) {unguarded : Nat}
    (h : gen.Comes start es left q) (atBottom : AtBottom (gen.settings.room unguarded) left)
    (below : Below (gen.settings.room unguarded) es) :
    gen.generateWithin unguarded start =
      (gen.settings.outcomeAt q.record left, { gen with supply := q.supply }) := by
  obtain ⟨⟨rules, started, proceeds⟩, -⟩ := h
  have concludes := run_concludes sound gen.settings (gen.settings.room unguarded) started
    (⟨{}, gen.supply⟩ : Progress σ)
  unfold Generator.generateWithin EStateM.run
  cases ran : gen.grammar.run gen.settings (gen.settings.room unguarded) start ⟨{}, gen.supply⟩ with
  | ok u q' =>
    rw [ran] at concludes
    obtain ⟨es', proceeds', below'⟩ := concludes
    obtain ⟨-, rfl, rfl⟩ := proceeds.unique atBottom below proceeds' trivial below'
    rfl
  | error e q' =>
    rw [ran] at concludes
    obtain ⟨es', rule, others, proceeds', below', rfl⟩ := concludes
    obtain ⟨-, rfl, rfl⟩ := proceeds.unique atBottom below proceeds' (Nat.le_refl _) below'
    rfl

/-- Nothing is left, or the next task is a rule right at the bottom. -/
def RestsAt (bottom : Nat) (left : List (Task ω)) : Prop :=
  left = [] ∨ ∃ rule others, left = .fire bottom rule :: others

omit [Scalar ω] in
theorem RestsAt.atBottom {bottom : Nat} (h : RestsAt bottom left) : AtBottom bottom left := by
  rcases h with rfl | ⟨rule, others, rfl⟩
  · trivial
  · exact Nat.le_refl bottom

/-- A pass that has its start rules comes to the bottom of any room. -/
theorem exists_comes (sound : gen.grammar.IsSound) {rules : List (Rule ω)}
    (started : gen.grammar.startRules start = .ok rules) (unguarded : Nat) :
    ∃ es left q, gen.Comes start es left q ∧ Below (gen.settings.room unguarded) es ∧
      RestsAt (gen.settings.room unguarded) left := by
  have roots := startRules_eq_ok_iff.mp started
  have concludes := run_concludes sound gen.settings (gen.settings.room unguarded) roots
    (⟨{}, gen.supply⟩ : Progress σ)
  cases ran : gen.grammar.run gen.settings (gen.settings.room unguarded) start ⟨{}, gen.supply⟩ with
  | ok u q =>
    rw [ran] at concludes
    obtain ⟨es, proceeds, below⟩ := concludes
    refine ⟨es, [], q, ⟨⟨rules, roots, proceeds⟩, fun f member => ?_⟩, below, .inl rfl⟩
    exact Settings.permits_of_lt_room (below f member)
  | error e q =>
    rw [ran] at concludes
    obtain ⟨es, rule, others, proceeds, below, rfl⟩ := concludes
    refine ⟨es, _, q, ⟨⟨rules, roots, proceeds⟩, fun f member => ?_⟩, below,
      .inr ⟨rule, others, rfl⟩⟩
    exact Settings.permits_of_lt_room (below f member)

/-- The events that a pass goes through in its room, until nothing is left to do or the next rule is
at the bottom. It comes out in the state that they lead to. -/
def Generator.RunsThrough (gen : Generator σ ω) (unguarded : Nat) (start : List String)
    (es : List (Event ω)) : Prop :=
  ∃ left q, gen.Comes start es left q ∧ Below (gen.settings.room unguarded) es ∧
    RestsAt (gen.settings.room unguarded) left ∧
    gen.generateWithin unguarded start =
      (gen.settings.outcomeAt q.record left, { gen with supply := q.supply })

theorem exists_runsThrough (sound : gen.grammar.IsSound) {rules : List (Rule ω)}
    (started : gen.grammar.startRules start = .ok rules) (unguarded : Nat) :
    ∃ es, gen.RunsThrough unguarded start es := by
  obtain ⟨es, left, q, comes, below, rests⟩ := exists_comes sound started unguarded
  exact ⟨es, left, q, comes, below, rests,
    generateWithin_of_comes sound comes rests.atBottom below⟩

/-- Every way in which a pass can come out of its room. -/
theorem generateWithin_cases (sound : gen.grammar.IsSound) (start : List String)
    (unguarded : Nat) :
    (∃ e, gen.grammar.startRules start = .error e ∧
        gen.generateWithin unguarded start = (⟨{}, some e⟩, gen)) ∨
      ∃ es, gen.RunsThrough unguarded start es := by
  cases started : gen.grammar.startRules start with
  | error e => exact .inl ⟨e, rfl, generateWithin_of_startRules_eq_error started unguarded⟩
  | ok rules => exact .inr (exists_runsThrough sound started unguarded)

/-- A run comes to every part of its events, from the first one on. -/
theorem Generator.RunsThrough.exists_comes {unguarded : Nat}
    (h : gen.RunsThrough unguarded start es) {earlier : List (Event ω)} (part : earlier <+: es) :
    ∃ left p, gen.Comes start earlier left p := by
  obtain ⟨later, rfl⟩ := part
  obtain ⟨_, _, ⟨⟨rules, started, proceeds⟩, permitted⟩, -⟩ := h
  obtain ⟨left, p, first, -⟩ := exists_proceeds_of_append proceeds
  rw [List.filterMap_append, List.forall_mem_append] at permitted
  exact ⟨left, p, ⟨rules, started, first⟩, permitted.1⟩

/-- Every moment of a pass is one that its runs go through when they have room for it. -/
theorem Generator.Comes.exists_run (h : gen.Comes start es left q) (sound : gen.grammar.IsSound) :
    ∃ enough, ∀ unguarded, enough ≤ unguarded →
      ∃ more, gen.RunsThrough unguarded start (es ++ more) := by
  obtain ⟨rules, roots, -⟩ := h.1
  have started : gen.grammar.startRules start = .ok rules := startRules_eq_ok_iff.mpr roots
  obtain ⟨enough, below⟩ := exists_room_below h.2
  refine ⟨enough, fun unguarded suffices' => ?_⟩
  obtain ⟨es', runs⟩ := exists_runsThrough sound started unguarded
  have ⟨left', q', comes, _, rests, _⟩ := runs
  obtain ⟨more, rfl, -⟩ := comes.exists_rest rests.atBottom h (below unguarded suffices')
  exact ⟨more, runs⟩

/-! ### Endings -/

/-- A pass ends with a result exactly if it comes to clear its agenda. -/
theorem ends_ok_iff (sound : gen.grammar.IsSound) :
    gen.Ends start ⟨record, none⟩ after ↔
      (∃ es, gen.Comes start es [] ⟨record, after.supply⟩) ∧
        after = { gen with supply := after.supply } := by
  constructor
  · rintro ⟨enough, ends⟩
    have out := ends enough (Nat.le_refl enough)
    rcases generateWithin_cases sound start enough with
      ⟨e, -, failed⟩ | ⟨es, left, q, comes, -, rfl | ⟨rule, others, rfl⟩, comesOut⟩
    · rw [failed] at out
      cases out
    · rw [comesOut] at out
      cases out
      exact ⟨⟨es, comes⟩, rfl⟩
    · rw [comesOut] at out
      cases out
  · rintro ⟨⟨es, comes⟩, unchanged⟩
    obtain ⟨enough, below⟩ := exists_room_below comes.2
    refine ⟨enough, fun unguarded suffices' => ?_⟩
    rw [generateWithin_of_comes sound comes trivial (below unguarded suffices'), unchanged]
    rfl

/-- A pass ends at its guard exactly if it comes to a rule at the depth of the limit. -/
theorem ends_depthExceeded_iff (sound : gen.grammar.IsSound) {name : String} {limit : Int} :
    gen.Ends start ⟨record, some (.depthExceeded name limit)⟩ after ↔
      gen.settings.maxDepth = some limit ∧
        (∃ es rule left, rule.name = name ∧
          gen.Comes start es (.fire limit.toNat rule :: left) ⟨record, after.supply⟩) ∧
        after = { gen with supply := after.supply } := by
  constructor
  · rintro ⟨enough, ends⟩
    have out := ends enough (Nat.le_refl enough)
    rcases generateWithin_cases sound start enough with
      ⟨e, failed, comesOut⟩ | ⟨es, left, q, comes, -, rfl | ⟨rule, others, rfl⟩, comesOut⟩
    · rw [comesOut] at out
      cases out
      rcases startRules_eq_error_iff.mp failed with ⟨_, -, other⟩ | ⟨-, -, other⟩ <;> cases other
    · rw [comesOut] at out
      cases out
    · rw [comesOut] at out
      simp only [Settings.outcomeAt, Settings.cut, Settings.room] at out comes
      cases guard : gen.settings.maxDepth with
      | none =>
        rw [guard] at out
        cases out
      | some bound =>
        rw [guard] at out comes
        cases out
        exact ⟨rfl, ⟨es, rule, others, rfl, comes⟩, rfl⟩
  · rintro ⟨guard, ⟨es, rule, left, rfl, comes⟩, unchanged⟩
    obtain ⟨enough, below⟩ := exists_room_below comes.2
    refine ⟨enough, fun unguarded suffices' => ?_⟩
    have bottom : gen.settings.room unguarded = limit.toNat := by simp [Settings.room, guard]
    have atBottom : AtBottom (gen.settings.room unguarded) (.fire limit.toNat rule :: left) :=
      Nat.le_of_eq bottom
    rw [generateWithin_of_comes sound comes atBottom (below unguarded suffices'), unchanged]
    simp [Settings.outcomeAt, Settings.cut, guard]

/-- A pass that is cut goes on with at least one draw when it is given more room. -/
theorem draws_lt_of_more_room {bottom lower : Nat}
    {rule rule' : Rule ω} {others others' : List (Task ω)} {es' : List (Event ω)}
    {q' : Progress σ} (lt : bottom < lower)
    (h : gen.Comes start es (.fire bottom rule :: others) q) (below : Below bottom es)
    (h' : gen.Comes start es' (.fire lower rule' :: others') q') :
    q.record.draws < q'.record.draws := by
  have atBottom : AtBottom lower (.fire lower rule' :: others') := Nat.le_refl lower
  obtain ⟨more, -, proceeds⟩ := h'.exists_rest atBottom h (below.mono (Nat.le_of_lt lt))
  rcases proceeds.draws with drawn | ⟨-, suffix⟩
  · exact drawn
  · have deep := h.within below lower rule' (suffix.subset List.mem_cons_self)
    omega

/-- The only errors that a pass ends with are those of its start and that of its guard. -/
theorem ends_error_cases (sound : gen.grammar.IsSound) {e : PassError}
    (h : gen.Ends start ⟨record, some e⟩ after) :
    gen.grammar.startRules start = .error e ∧ record = {} ∧ after = gen ∨
      ∃ name limit, e = .depthExceeded name limit ∧ gen.settings.maxDepth = some limit := by
  obtain ⟨enough, ends⟩ := h
  cases started : gen.grammar.startRules start with
  | error e' =>
    have out := ends enough (Nat.le_refl enough)
    rw [generateWithin_of_startRules_eq_error started] at out
    cases out
    exact .inl ⟨rfl, rfl, rfl⟩
  | ok rules =>
    have cut : ∀ unguarded, enough ≤ unguarded → ∃ es rule others q,
        gen.Comes start es (.fire (gen.settings.room unguarded) rule :: others) q ∧
          Below (gen.settings.room unguarded) es ∧ q.record = record ∧
          e = gen.settings.cut rule.name := by
      intro unguarded suffices'
      have out := ends unguarded suffices'
      obtain ⟨es, left, q, comes, below, rests, comesOut⟩ :=
        exists_runsThrough sound started unguarded
      rw [comesOut] at out
      rcases rests with rfl | ⟨rule, others, rfl⟩
      · cases out
      · cases out
        exact ⟨es, rule, others, q, comes, below, rfl, rfl⟩
    obtain ⟨es, rule, others, q, comes, below, rfl, rfl⟩ := cut enough (Nat.le_refl enough)
    cases guard : gen.settings.maxDepth with
    | some limit => exact .inr ⟨rule.name, limit, by simp [Settings.cut, guard], rfl⟩
    | none =>
      -- With one level more the pass would come out somewhere else.
      obtain ⟨es', rule', others', q', comes', -, same, -⟩ := cut (enough + 1) (Nat.le_succ enough)
      simp only [Settings.room, guard] at comes comes' below
      have drawn := draws_lt_of_more_room (Nat.lt_succ_self enough) comes below comes'
      rw [same] at drawn
      exact absurd drawn (Nat.lt_irrefl _)

end WeightedGrammar
