import WeightedGrammar.Proofs.Pass.Derivation
import WeightedGrammar.Proofs.Selection.Contenders

/-!
Passes task by task. An agenda holds what a pass has left to do; `Proceeds` does its first task again
and again, so that it also speaks of a pass that has not come to its end. `run_concludes` says how
the recursion over a sound grammar comes out: the agenda is cleared, or a rule is cut at the bottom.
-/

namespace WeightedGrammar
variable {ω σ : Type}

/-! ### Agendas -/

/-- A thing left to do: a text to emit, or a rule to fire at a depth. -/
inductive Task (ω : Type) where
  | emit (text : String)
  | fire (depth : Nat) (rule : Rule ω)

def Grammar.elementTasks (g : Grammar ω) (depth : Nat) : Element → List (Task ω)
  | .literal text => [.emit text]
  | .ref _ index => (g.rules[index]?.map (.fire depth)).toList

/-- The tasks that elements leave to do at a depth. -/
def Grammar.tasks (g : Grammar ω) (depth : Nat) (elements : List Element) : List (Task ω) :=
  elements.flatMap (g.elementTasks depth)

/-- All firings among the events are above the bottom. -/
def Below (bottom : Nat) (es : List (Event ω)) : Prop :=
  ∀ f ∈ es.filterMap Event.firing?, f.depth < bottom

/-- Nothing is left, or the next task is a rule that is not above the bottom. -/
def AtBottom (bottom : Nat) : List (Task ω) → Prop
  | [] => True
  | .emit _ :: _ => False
  | .fire depth _ :: _ => bottom ≤ depth

theorem below_nil (bottom : Nat) : Below bottom ([] : List (Event ω)) := by simp [Below]

theorem below_append_iff {bottom : Nat} {xs ys : List (Event ω)} :
    Below bottom (xs ++ ys) ↔ Below bottom xs ∧ Below bottom ys := by
  simp [Below, or_imp, forall_and]

theorem below_firing_iff {bottom : Nat} {f : Firing ω} {es : List (Event ω)} :
    Below bottom (.firing f :: es) ↔ f.depth < bottom ∧ Below bottom es := by
  simp only [Below, Event.firing?_firing, List.forall_mem_cons]

theorem Below.mono {bottom lower : Nat} {es : List (Event ω)} (h : Below bottom es)
    (le : bottom ≤ lower) : Below lower es :=
  fun f member => Nat.lt_of_lt_of_le (h f member) le

theorem exists_below (es : List (Event ω)) : ∃ bottom, Below bottom es := by
  induction es with
  | nil => exact ⟨0, below_nil 0⟩
  | cons e es ih =>
    obtain ⟨bottom, below⟩ := ih
    cases e with
    | token text => exact ⟨bottom, below⟩
    | firing f =>
      refine ⟨max (f.depth + 1) bottom, below_firing_iff.mpr ⟨by omega, below.mono (by omega)⟩⟩

/-! ### Doing the first task -/

section Proceeding
variable [Scalar ω] [Supply σ ω]

/-- The events take the pass from one agenda and state to another. A rule that fires leaves the
elements of its item in front of the other tasks, one level deeper. -/
inductive Proceeds (g : Grammar ω) (s : Settings) : List (Task ω) → Progress σ → List (Event ω) →
    List (Task ω) → Progress σ → Prop where
  | nil (agenda : List (Task ω)) (p : Progress σ) : Proceeds g s agenda p [] agenda p
  | emit {text : String} {agenda left : List (Task ω)} {es : List (Event ω)} {p q : Progress σ}
      (rest : Proceeds g s agenda { p with record := p.record.emit text } es left q) :
      Proceeds g s (.emit text :: agenda) p (.token text :: es) left q
  | fire {depth : Nat} {rule : Rule ω} {choice : Option Nat} {agenda left : List (Task ω)}
      {es : List (Event ω)} {p mid q : Progress σ} (chooses : rule.chooseItem p = .ok choice mid)
      (rest : Proceeds g s (g.tasks (depth + 1) (rule.elementsOf choice) ++ agenda)
        ⟨mid.record.enter s.trace ⟨depth, rule, choice⟩, mid.supply⟩ es left q) :
      Proceeds g s (.fire depth rule :: agenda) p (.firing ⟨depth, rule, choice⟩ :: es) left q

variable {g : Grammar ω} {s : Settings} {agenda left mid more : List (Task ω)}
  {es xs ys : List (Event ω)} {p q r : Progress σ} {bottom : Nat}

theorem Proceeds.plays (h : Proceeds g s agenda p es left q) : Plays s p es q := by
  induction h with
  | nil agenda p => exact .nil p
  | emit _ ih => exact .token ih
  | fire chooses _ ih => exact .firing chooses ih

theorem Proceeds.append (first : Proceeds g s agenda p xs mid r)
    (second : Proceeds g s mid r ys left q) : Proceeds g s agenda p (xs ++ ys) left q := by
  induction first with
  | nil => exact second
  | emit _ ih => exact .emit (ih second)
  | fire chooses _ ih => exact .fire chooses (ih second)

theorem exists_proceeds_of_append (h : Proceeds g s agenda p (xs ++ ys) left q) :
    ∃ mid r, Proceeds g s agenda p xs mid r ∧ Proceeds g s mid r ys left q := by
  induction xs generalizing agenda p with
  | nil => exact ⟨agenda, p, .nil agenda p, h⟩
  | cons e xs ih =>
    cases h with
    | emit rest =>
      obtain ⟨mid, r, first, second⟩ := ih rest
      exact ⟨mid, r, .emit first, second⟩
    | fire chooses rest =>
      obtain ⟨mid, r, first, second⟩ := ih rest
      exact ⟨mid, r, .fire chooses first, second⟩

/-- Tasks behind the agenda stay where they are. -/
theorem Proceeds.frame (h : Proceeds g s agenda p es left q) (more : List (Task ω)) :
    Proceeds g s (agenda ++ more) p es (left ++ more) q := by
  induction h with
  | nil => exact .nil _ _
  | emit _ ih => exact .emit ih
  | fire chooses _ ih =>
    rw [List.append_assoc] at ih
    exact .fire chooses ih

theorem Proceeds.of_trace_eq {t : Settings} (same : t.trace = s.trace)
    (h : Proceeds g s agenda p es left q) : Proceeds g t agenda p es left q := by
  induction h with
  | nil => exact .nil _ _
  | emit _ ih => exact .emit ih
  | fire chooses _ ih =>
    rw [← same] at ih
    exact .fire chooses ih

/-- A pass is determined: of two stretches from the same start, one goes on where the other stops. -/
theorem Proceeds.comparable (h : Proceeds g s agenda p es left q) {es' : List (Event ω)}
    {left' : List (Task ω)} {q' : Progress σ} (h' : Proceeds g s agenda p es' left' q') :
    (∃ more, es = es' ++ more ∧ Proceeds g s left' q' more left q) ∨
      ∃ more, es' = es ++ more ∧ Proceeds g s left q more left' q' := by
  -- Over the first stretch: the other one does the same tasks until one of the two stops.
  induction h generalizing es' with
  | nil => exact .inr ⟨es', rfl, h'⟩
  | emit rest ih =>
    cases h' with
    | nil => exact .inl ⟨_, rfl, .emit rest⟩
    | emit rest' =>
      rcases ih rest' with ⟨more, rfl, proceeds⟩ | ⟨more, rfl, proceeds⟩
      · exact .inl ⟨more, rfl, proceeds⟩
      · exact .inr ⟨more, rfl, proceeds⟩
  | fire chooses rest ih =>
    cases h' with
    | nil => exact .inl ⟨_, rfl, .fire chooses rest⟩
    | fire chooses' rest' =>
      rw [chooses] at chooses'
      cases chooses'
      rcases ih rest' with ⟨more, rfl, proceeds⟩ | ⟨more, rfl, proceeds⟩
      · exact .inl ⟨more, rfl, proceeds⟩
      · exact .inr ⟨more, rfl, proceeds⟩

theorem proceeds_nil_iff : Proceeds g s agenda p [] left q ↔ left = agenda ∧ q = p := by
  constructor
  · intro h
    cases h
    exact ⟨rfl, rfl⟩
  · rintro ⟨rfl, rfl⟩
    exact .nil _ _

theorem Proceeds.functional (h : Proceeds g s agenda p es left q) {left' : List (Task ω)}
    {q' : Progress σ} (h' : Proceeds g s agenda p es left' q') : left' = left ∧ q' = q := by
  rcases h.comparable h' with ⟨more, same, rest⟩ | ⟨more, same, rest⟩
  · obtain rfl : more = [] := by simpa using same
    obtain ⟨rfl, rfl⟩ := proceeds_nil_iff.mp rest
    exact ⟨rfl, rfl⟩
  · obtain rfl : more = [] := by simpa using same
    exact proceeds_nil_iff.mp rest

/-- Nothing is done above the bottom once the pass has come to it. -/
theorem Proceeds.eq_nil_of_atBottom (h : Proceeds g s agenda p es left q)
    (atBottom : AtBottom bottom agenda) (below : Below bottom es) :
    es = [] ∧ left = agenda ∧ q = p := by
  cases h with
  | nil => exact ⟨rfl, rfl, rfl⟩
  | emit _ => exact atBottom.elim
  | fire _ _ => exact absurd atBottom (Nat.not_le.mpr (below_firing_iff.mp below).1)

/-- A pass that comes to the bottom goes through whatever is done above it from the same start. -/
theorem Proceeds.exists_rest (h : Proceeds g s agenda p es left q) (atBottom : AtBottom bottom left)
    {es' : List (Event ω)} {left' : List (Task ω)} {q' : Progress σ}
    (h' : Proceeds g s agenda p es' left' q') (below' : Below bottom es') :
    ∃ more, es = es' ++ more ∧ Proceeds g s left' q' more left q := by
  rcases h.comparable h' with shorter | ⟨more, rfl, proceeds⟩
  · exact shorter
  · obtain ⟨rfl, rfl, rfl⟩ :=
      proceeds.eq_nil_of_atBottom atBottom (below_append_iff.mp below').2
    exact ⟨[], by simp, .nil _ _⟩

theorem Proceeds.unique (h : Proceeds g s agenda p es left q) (atBottom : AtBottom bottom left)
    (below : Below bottom es) {es' : List (Event ω)} {left' : List (Task ω)} {q' : Progress σ}
    (h' : Proceeds g s agenda p es' left' q') (atBottom' : AtBottom bottom left')
    (below' : Below bottom es') : es' = es ∧ left' = left ∧ q' = q := by
  obtain ⟨more, rfl, proceeds⟩ := h.exists_rest atBottom h' below'
  obtain ⟨rfl, rfl, rfl⟩ := proceeds.eq_nil_of_atBottom atBottom' (below_append_iff.mp below).2
  exact ⟨(List.append_nil es').symm, rfl, rfl⟩

/-! ### Depths and draws -/

omit [Scalar ω] [Supply σ ω] in
/-- A rule that elements leave to fire is one that they refer to. -/
theorem exists_ref_of_mem_tasks {depth d : Nat} {rule : Rule ω} {elements : List Element}
    (h : .fire d rule ∈ g.tasks depth elements) :
    d = depth ∧ ∃ name index, .ref name index ∈ elements ∧ g.rules[index]? = some rule := by
  obtain ⟨element, isElement, member⟩ := List.mem_flatMap.mp h
  cases element with
  | literal text => simp [Grammar.elementTasks] at member
  | ref name index =>
    simp only [Grammar.elementTasks, Option.mem_toList, Option.map_eq_some_iff,
      Task.fire.injEq] at member
    obtain ⟨_, found, rfl, rfl⟩ := member
    exact ⟨rfl, name, index, isElement, found⟩

/-- What holds of the rules on the agenda, and passes from a rule that fires to the rules of its
item, holds of all rules that fire and of all that are left. -/
theorem Proceeds.forall_rules {P : Nat → Rule ω → Prop} (h : Proceeds g s agenda p es left q)
    (passes : ∀ f ∈ es.filterMap Event.firing?, P f.depth f.rule → ∀ next,
      .fire (f.depth + 1) next ∈ g.tasks (f.depth + 1) (f.rule.elementsOf f.choice) →
        P (f.depth + 1) next)
    (holds : ∀ depth rule, .fire depth rule ∈ agenda → P depth rule) :
    (∀ f ∈ es.filterMap Event.firing?, P f.depth f.rule) ∧
      ∀ depth rule, .fire depth rule ∈ left → P depth rule := by
  induction h with
  | nil => exact ⟨fun f member => absurd member List.not_mem_nil, holds⟩
  | emit _ ih =>
    exact ih passes fun depth rule member => holds depth rule (List.mem_cons_of_mem _ member)
  | @fire depth rule choice agenda _ es _ _ _ _ _ ih =>
    have fired : P depth rule := holds depth rule List.mem_cons_self
    rw [Event.firing?_firing] at passes
    obtain ⟨now, later⟩ := List.forall_mem_cons.mp passes
    have next : ∀ d r, .fire d r ∈ g.tasks (depth + 1) (rule.elementsOf choice) ++ agenda →
        P d r := by
      intro d r member
      rcases List.mem_append.mp member with fresh | old
      · obtain ⟨rfl, -⟩ := exists_ref_of_mem_tasks fresh
        exact now fired r fresh
      · exact holds d r (List.mem_cons_of_mem _ old)
    obtain ⟨fires, rest⟩ := ih later next
    rw [Event.firing?_firing]
    exact ⟨List.forall_mem_cons.mpr ⟨fired, fires⟩, rest⟩

/-- No rule of the agenda is below the bottom. -/
def Within (bottom : Nat) (agenda : List (Task ω)) : Prop :=
  ∀ depth rule, .fire depth rule ∈ agenda → depth ≤ bottom

theorem Proceeds.within (h : Proceeds g s agenda p es left q) (below : Below bottom es)
    (within : Within bottom agenda) : Within bottom left :=
  (h.forall_rules (fun f fires _ _ _ => below f fires) within).2

/-- All rules of the agenda are those of the grammar. -/
def Known (g : Grammar ω) (agenda : List (Task ω)) : Prop :=
  ∀ depth rule, .fire depth rule ∈ agenda → rule ∈ g.rules

omit [Scalar ω] [Supply σ ω] in
theorem known_tasks (g : Grammar ω) (depth : Nat) (elements : List Element) :
    Known g (g.tasks depth elements) := by
  intro d next isTask
  obtain ⟨-, _, _, -, found⟩ := exists_ref_of_mem_tasks isTask
  exact List.mem_of_getElem? found

omit [Scalar ω] [Supply σ ω] in
/-- The first rule of the agenda is known, and so are those that it refers to. -/
theorem Known.fire {depth : Nat} {rule : Rule ω} (known : Known g (.fire depth rule :: agenda))
    (elements : List Element) :
    rule ∈ g.rules ∧ Known g (g.tasks (depth + 1) elements ++ agenda) := by
  refine ⟨known depth rule List.mem_cons_self, fun d next isTask => ?_⟩
  rcases List.mem_append.mp isTask with fresh | old
  · exact known_tasks g _ elements d next fresh
  · exact known d next (List.mem_cons_of_mem _ old)

theorem Proceeds.known (h : Proceeds g s agenda p es left q) (known : Known g agenda) :
    Known g left :=
  (h.forall_rules (fun _ _ _ next fresh => known_tasks g _ _ _ next fresh) known).2

theorem chooseItem_draws {rule : Rule ω} {choice : Option Nat}
    (h : rule.chooseItem p = .ok choice q) :
    p.record.draws < q.record.draws ∨
      choice = none ∧ q.record.draws = p.record.draws ∧ q.supply = p.supply := by
  obtain ⟨-, taken, chooses, record⟩ := chooseItem_eq_ok_iff.mp h
  rw [record]
  cases competing : rule.ballot? p.record.hasFired with
  | none =>
    obtain ⟨nothing, rfl, same⟩ := (chooses_iff_of_none competing).mp chooses
    exact .inr ⟨nothing, rfl, same⟩
  | some ballot =>
    obtain ⟨-, rfl, -⟩ := (chooses_iff_of_some competing).mp chooses
    exact .inl (Nat.lt_succ_self _)

/-- Every item that is chosen is drawn: without a draw nothing joins the agenda. -/
theorem Proceeds.draws (h : Proceeds g s agenda p es left q) :
    p.record.draws < q.record.draws ∨ p.record.draws = q.record.draws ∧ left <:+ agenda := by
  induction h with
  | nil agenda p => exact .inr ⟨rfl, List.suffix_refl agenda⟩
  | emit _ ih => exact ih.imp_right fun ⟨same, suffix⟩ => ⟨same, suffix.trans (List.suffix_cons ..)⟩
  | fire chooses _ ih =>
    simp only [Record.enter_eq] at ih
    rcases chooseItem_draws chooses with drawn | ⟨rfl, same, -⟩
    · exact .inl (by omega)
    · rw [same] at ih
      exact ih.imp_right fun ⟨same, suffix⟩ => ⟨same, suffix.trans (List.suffix_cons ..)⟩

/-! ### Choosing in a sound grammar -/

omit [Supply σ ω] in
theorem Rule.IsSound.isGated {names : List String} {rule : Rule ω} (sound : rule.IsSound names) :
    rule.IsGated := by
  intro conditional item isItem
  rw [sound.gated item isItem, conditional]

theorem Rule.IsGated.exists_chooseItem {rule : Rule ω} (gated : rule.IsGated) (p : Progress σ) :
    ∃ choice mid, rule.chooseItem p = .ok choice mid := by
  cases ballot : rule.ballot? p.record.hasFired with
  | none =>
    exact ⟨none, p, chooseItem_eq_ok_iff.mpr ⟨gated, 0, .nothing ballot, rfl⟩⟩
  | some b =>
    exact ⟨_, ⟨p.record.countDraw, _⟩,
      chooseItem_eq_ok_iff.mpr ⟨gated, 1, .drawn ballot, rfl⟩⟩

/-- A rule that chooses an item has a contender at its place. -/
theorem Rule.IsSound.contender_of_chooseItem {names : List String} {rule : Rule ω}
    (sound : rule.IsSound names) {place : Nat} (h : rule.chooseItem p = .ok (some place) q) :
    ∃ weight, (place, weight) ∈ rule.contenders p.record.hasFired := by
  obtain ⟨-, taken, chooses, -⟩ := chooseItem_eq_ok_iff.mp h
  cases competing : rule.ballot? p.record.hasFired with
  | none => exact absurd ((chooses_iff_of_none competing).mp chooses).1 (by simp)
  | some ballot =>
    have picked := ((chooses_iff_of_some competing).mp chooses).1
    exact (sound.of_ballot? competing).2 place (mem_items_of_pick picked.symm)

theorem Rule.IsSound.lt_of_chooseItem {names : List String} {rule : Rule ω}
    (sound : rule.IsSound names) {choice : Option Nat} (h : rule.chooseItem p = .ok choice q) :
    ∀ place ∈ choice, place < rule.items.length := by
  rintro place rfl
  obtain ⟨weight, contender⟩ := sound.contender_of_chooseItem h
  obtain ⟨item, found, -⟩ := getElem?_of_mem_contenders contender
  exact (List.getElem?_eq_some_iff.mp found).1

omit [Supply σ ω] in
theorem Grammar.IsSound.exists_rule_of_elementsOf (sound : g.IsSound) {rule : Rule ω}
    (isRule : rule ∈ g.rules) {choice : Option Nat} {name : String} {index : Nat}
    (member : .ref name index ∈ rule.elementsOf choice) :
    ∃ next, g.rules[index]? = some next ∧ next ∈ g.rules := by
  cases chosen : rule.chosen? choice with
  | none => simp [Rule.elementsOf, chosen] at member
  | some item =>
    obtain ⟨place, -, found⟩ := Option.bind_eq_some_iff.mp chosen
    have isElement : .ref name index ∈ item.elements := by
      simpa [Rule.elementsOf, chosen] using member
    exact sound.exists_rule isRule (List.mem_of_getElem? found) isElement

/-- A sound rule can always be entered. -/
theorem Rule.IsSound.exists_enter {names : List String} {rule : Rule ω}
    (sound : rule.IsSound names) (s : Settings) (depth : Nat) (p : Progress σ) :
    ∃ choice mid, rule.chooseItem p = .ok choice mid ∧
      rule.enter s depth p = .ok (rule.elementsOf choice)
        ⟨mid.record.enter s.trace ⟨depth, rule, choice⟩, mid.supply⟩ := by
  obtain ⟨choice, mid, chooses⟩ := sound.isGated.exists_chooseItem p
  exact ⟨choice, mid, chooses,
    enter_eq_ok_iff.mpr ⟨choice, mid, chooses, sound.lt_of_chooseItem chooses, rfl, rfl⟩⟩

/-! ### How runs come out -/

/-- The run clears the agenda, or it is cut at a rule at the bottom. -/
def Concludes (g : Grammar ω) (s : Settings) (bottom : Nat) (agenda : List (Task ω))
    (p : Progress σ) : EStateM.Result PassError (Progress σ) Unit → Prop
  | .ok _ q => ∃ es, Proceeds g s agenda p es [] q ∧ Below bottom es
  | .error e q => ∃ es rule left, Proceeds g s agenda p es (.fire bottom rule :: left) q ∧
      Below bottom es ∧ e = s.cut rule.name

theorem concludes_nil (p : Progress σ) : Concludes g s bottom [] p (.ok () p) :=
  ⟨[], .nil [] p, below_nil bottom⟩

/-- Events may stand in front of a run. -/
theorem Concludes.after {result : EStateM.Result PassError (Progress σ) Unit}
    (h : Concludes g s bottom mid r result) (first : Proceeds g s agenda p xs mid r)
    (below : Below bottom xs) : Concludes g s bottom agenda p result := by
  cases result with
  | ok u q =>
    obtain ⟨ys, second, belowSecond⟩ := h
    exact ⟨xs ++ ys, first.append second, below_append_iff.mpr ⟨below, belowSecond⟩⟩
  | error e q =>
    obtain ⟨ys, rule, left, second, belowSecond, cut⟩ := h
    exact ⟨xs ++ ys, rule, left, first.append second,
      below_append_iff.mpr ⟨below, belowSecond⟩, cut⟩

theorem concludes_bind {m : PassM σ Unit} {k : Unit → PassM σ Unit}
    (first : Concludes g s bottom agenda p (m p))
    (second : ∀ q, Concludes g s bottom more q (k () q)) :
    Concludes g s bottom (agenda ++ more) p ((m >>= k) p) := by
  show Concludes g s bottom (agenda ++ more) p (EStateM.bind m k p)
  unfold EStateM.bind
  cases ran : m p with
  | ok u q =>
    rw [ran] at first
    obtain ⟨es, proceeds, below⟩ := first
    exact (second q).after (proceeds.frame more) below
  | error e q =>
    rw [ran] at first
    obtain ⟨es, rule, left, proceeds, below, cut⟩ := first
    exact ⟨es, rule, left ++ more, proceeds.frame more, below, cut⟩

/-- Runs one after the other, each over an agenda of its own. -/
theorem concludes_forM {α : Type} {act : α → PassM σ Unit} {tasks : α → List (Task ω)}
    {xs : List α} (each : ∀ x ∈ xs, ∀ p, Concludes g s bottom (tasks x) p (act x p))
    (p : Progress σ) : Concludes g s bottom (xs.flatMap tasks) p (xs.forM act p) := by
  induction xs generalizing p with
  | nil => exact concludes_nil p
  | cons x xs ih =>
    obtain ⟨first, others⟩ := List.forall_mem_cons.mp each
    rw [List.forM_eq_forM, List.forM_cons, List.flatMap_cons, ← List.forM_eq_forM]
    exact concludes_bind (first p) (ih others)

theorem concludes_expand (fire : Rule ω → PassM σ Unit) {depth : Nat} {element : Element}
    (found : ∀ name index, element = .ref name index → ∃ rule, g.rules[index]? = some rule ∧
      ∀ p, Concludes g s bottom [.fire depth rule] p (fire rule p)) (p : Progress σ) :
    Concludes g s bottom (g.elementTasks depth element) p (g.expand fire element p) := by
  cases element with
  | literal text => exact ⟨[.token text], .emit (.nil [] _), below_nil bottom⟩
  | ref name index =>
    obtain ⟨rule, root, fires⟩ := found name index rfl
    simp only [Grammar.elementTasks, Grammar.expand, root]
    exact fires p

/-- Firing a rule of a sound grammar clears it or is cut where the room ends. -/
theorem fire_concludes (sound : g.IsSound) (s : Settings) {room depth : Nat} {rule : Rule ω}
    (isRule : rule ∈ g.rules) (p : Progress σ) :
    Concludes g s (depth + room) [.fire depth rule] p (g.fire s room depth rule p) := by
  -- Over the room. A level deeper there is one level less, so the bottom stays where it is.
  induction room generalizing depth rule p with
  | zero => exact ⟨[], rule, [], .nil _ _, below_nil _, rfl⟩
  | succ room ih =>
    obtain ⟨choice, mid, chooses, entered⟩ :=
      (sound.rules rule isRule).exists_enter s depth p
    have fired : Proceeds g s [.fire depth rule] p [.firing ⟨depth, rule, choice⟩]
        (g.tasks (depth + 1) (rule.elementsOf choice))
        ⟨mid.record.enter s.trace ⟨depth, rule, choice⟩, mid.supply⟩ := by
      refine .fire chooses ?_
      rw [List.append_nil]
      exact .nil _ _
    have above : Below (depth + (room + 1)) [Event.firing ⟨depth, rule, choice⟩] :=
      below_firing_iff.mpr ⟨by simp, below_nil _⟩
    have rest : Concludes g s (depth + (room + 1)) (g.tasks (depth + 1) (rule.elementsOf choice))
        ⟨mid.record.enter s.trace ⟨depth, rule, choice⟩, mid.supply⟩
        ((rule.elementsOf choice).forM (g.expand (g.fire s room (depth + 1)))
          ⟨mid.record.enter s.trace ⟨depth, rule, choice⟩, mid.supply⟩) := by
      refine concludes_forM (fun element member => concludes_expand _ ?_) _
      rintro name index rfl
      obtain ⟨next, found, isNext⟩ := sound.exists_rule_of_elementsOf isRule member
      refine ⟨next, found, fun p => ?_⟩
      have deeper : Concludes g s (depth + 1 + room) [.fire (depth + 1) next] p
          (g.fire s room (depth + 1) next p) := ih isNext p
      rwa [Nat.add_assoc, Nat.add_comm 1 room] at deeper
    show Concludes g s _ _ p (EStateM.bind (rule.enter s depth)
      (fun elements => elements.forM (g.expand (g.fire s room (depth + 1)))) p)
    rw [EStateM.bind, entered]
    exact rest.after fired above

omit [Scalar ω] [Supply σ ω] in
theorem mem_rules_of_starts {start : List String} {rules : List (Rule ω)}
    (started : rules.map some = g.starts start) : ∀ rule ∈ rules, rule ∈ g.rules := by
  intro rule isStart
  have member : some rule ∈ g.starts start := started ▸ List.mem_map_of_mem isStart
  unfold Grammar.starts at member
  split at member
  · exact List.mem_of_head? (List.mem_singleton.mp member).symm
  · obtain ⟨name, -, found⟩ := List.mem_map.mp member
    exact List.mem_reverse.mp (List.mem_of_find?_eq_some found)

omit [Scalar ω] [Supply σ ω] in
theorem known_of_starts {start : List String} {rules : List (Rule ω)}
    (started : rules.map some = g.starts start) : Known g (rules.map (.fire 0)) := by
  intro depth rule isTask
  obtain ⟨root, isRoot, same⟩ := List.mem_map.mp isTask
  cases same
  exact mem_rules_of_starts started _ isRoot

/-- A pass over a sound grammar fires its start rules one after the other. -/
theorem run_concludes (sound : g.IsSound) (s : Settings) (room : Nat) {start : List String}
    {rules : List (Rule ω)} (started : rules.map some = g.starts start) (p : Progress σ) :
    Concludes g s room (rules.map (.fire 0)) p (g.run s room start p) := by
  have runs : g.run s room start p = rules.forM (g.fire s room 0) p := by
    unfold Grammar.run
    rw [startRules_eq_ok_iff.mpr started]
    rfl
  have each : ∀ rule ∈ rules, ∀ p : Progress σ,
      Concludes g s room [.fire 0 rule] p (g.fire s room 0 rule p) := by
    intro rule isStart p
    have fires : Concludes g s (0 + room) [.fire 0 rule] p (g.fire s room 0 rule p) :=
      fire_concludes sound s (mem_rules_of_starts started rule isStart) p
    rwa [Nat.zero_add] at fires
  rw [runs, ← List.flatMap_singleton' (rules.map _), List.flatMap_map]
  exact concludes_forM each p

end Proceeding

end WeightedGrammar
