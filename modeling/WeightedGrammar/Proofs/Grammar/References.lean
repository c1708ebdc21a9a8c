import Mathlib.Data.List.Nodup
import Mathlib.Data.List.Perm.Subperm
import Mathlib.Logic.Relation
import WeightedGrammar.Proofs.Grammar.Sound
import WeightedGrammar.Proofs.Pass.Forest

/-!
The graph of references. The place of a rule refers to the places of the rules that items of it
name. Where no place that is reached from the start comes back to itself, no way along references
takes as many references as the grammar has rules (`Way.length_lt`).
-/

namespace WeightedGrammar
variable {ω : Type}

/-! ### References -/

def Element.place? : Element → Option Nat
  | .literal _ => none
  | .ref _ index => some index

/-- The places that the items of the rule refer to. -/
def Rule.references (rule : Rule ω) : List Nat :=
  rule.items.flatMap fun item => item.elements.filterMap Element.place?

/-- The places that the rule at a place refers to. -/
def Grammar.references (g : Grammar ω) (place : Nat) : List Nat :=
  (g.rules[place]?.map Rule.references).getD []

def Grammar.Refers (g : Grammar ω) (place next : Nat) : Prop := next ∈ g.references place

/-- The places that a pass starts from. There is none for a name that no rule has; the top rule
stands at the first place, if there is one. -/
def Grammar.startPlaces (g : Grammar ω) (start : List String) : List (Option Nat) :=
  if start.isEmpty then [some 0] else start.map fun name => g.names.idxOf? name

/-- References lead from a start place to the place. -/
def Grammar.Reaches (g : Grammar ω) (start : List String) (place : Nat) : Prop :=
  ∃ root, some root ∈ g.startPlaces start ∧ Relation.ReflTransGen g.Refers root place

/-- No place that is reached from the start comes back to itself. -/
def Grammar.IsAcyclicFrom (g : Grammar ω) (start : List String) : Prop :=
  ∀ place, g.Reaches start place → ¬Relation.TransGen g.Refers place place

section
variable {g : Grammar ω} {start : List String} {place next : Nat} {rule : Rule ω}

theorem references_of_getElem? (found : g.rules[place]? = some rule) :
    g.references place = rule.references := by
  rw [Grammar.references, found, Option.map_some, Option.getD_some]

theorem lt_of_refers (refers : g.Refers place next) : place < g.rules.length := by
  by_contra outside
  rw [Grammar.Refers, Grammar.references,
    List.getElem?_eq_none (Nat.not_lt.mp outside)] at refers
  exact absurd refers List.not_mem_nil

theorem mem_references_of_elementsOf {choice : Option Nat} {name : String}
    (member : .ref name next ∈ rule.elementsOf choice) : next ∈ rule.references := by
  cases chosen : rule.chosen? choice with
  | none => simp [Rule.elementsOf, chosen] at member
  | some item =>
    obtain ⟨index, -, found⟩ := Option.bind_eq_some_iff.mp chosen
    have isElement : .ref name next ∈ item.elements := by
      simpa [Rule.elementsOf, chosen] using member
    exact List.mem_flatMap.mpr ⟨item, List.mem_of_getElem? found,
      List.mem_filterMap.mpr ⟨_, isElement, rfl⟩⟩

theorem Grammar.Reaches.step (reached : g.Reaches start place) (refers : g.Refers place next) :
    g.Reaches start next := by
  obtain ⟨root, isRoot, leads⟩ := reached
  exact ⟨root, isRoot, leads.tail refers⟩

/-- What holds of the start places and passes on along references holds of all places reached. -/
theorem Grammar.Reaches.of_closed {P : Nat → Prop} (reached : g.Reaches start place)
    (roots : ∀ root, some root ∈ g.startPlaces start → P root)
    (closed : ∀ place, P place → ∀ next ∈ g.references place, P next) : P place := by
  obtain ⟨root, isRoot, leads⟩ := reached
  induction leads with
  | refl => exact roots root isRoot
  | tail _ refers ih => exact closed _ ih _ refers

/-- References that only lead further on make no cycle. -/
theorem isAcyclicFrom_of_forward
    (forward : ∀ place, g.Reaches start place → ∀ next ∈ g.references place, place < next) :
    g.IsAcyclicFrom start := by
  have further : ∀ place next, g.Reaches start place → Relation.TransGen g.Refers place next →
      place < next ∧ g.Reaches start next := by
    intro place next reached leads
    induction leads with
    | single refers => exact ⟨forward place reached _ refers, reached.step refers⟩
    | tail _ refers ih =>
      exact ⟨Nat.lt_trans ih.1 (forward _ ih.2 _ refers), ih.2.step refers⟩
  intro place reached cycle
  exact Nat.lt_irrefl place (further place place reached cycle).1

/-! ### Looking rules up -/

theorem Grammar.lookup?_eq_some_of_mem (distinct : g.names.Nodup) (isRule : rule ∈ g.rules) :
    g.lookup? rule.name = some rule := by
  cases found : g.lookup? rule.name with
  | none =>
    have absent := List.find?_eq_none.mp found rule (List.mem_reverse.mpr isRule)
    exact absurd (beq_self_eq_true rule.name) absent
  | some other =>
    unfold Grammar.lookup? at found
    have isOther := List.mem_reverse.mp (List.mem_of_find?_eq_some found)
    have sameName : other.name = rule.name := by simpa using List.find?_some found
    rw [List.inj_on_of_nodup_map distinct isOther isRule sameName]

/-- A rule is found under its name at the place of the name. -/
theorem Grammar.lookup?_eq_bind_idxOf? (distinct : g.names.Nodup) (name : String) :
    g.lookup? name = (g.names.idxOf? name).bind (g.rules[·]?) := by
  cases position : g.names.idxOf? name with
  | none =>
    rw [Option.bind_none, Grammar.lookup?_eq_none_iff]
    have absent := List.idxOf?_eq_none_iff.mp position
    simpa [Grammar.contains, Grammar.names] using absent
  | some place =>
    obtain ⟨inside, named, -⟩ := List.idxOf?_eq_some_iff.mp position
    rw [Grammar.names, List.length_map] at inside
    have named : g.rules[place].name = name := by simpa [Grammar.names] using named
    rw [Option.bind_some, List.getElem?_eq_getElem inside, ← named]
    exact Grammar.lookup?_eq_some_of_mem distinct (List.getElem_mem inside)

/-- The start rules are those at the start places. -/
theorem Grammar.starts_eq_map_startPlaces (distinct : g.names.Nodup) (start : List String) :
    g.starts start = (g.startPlaces start).map (·.bind (g.rules[·]?)) := by
  unfold Grammar.starts Grammar.startPlaces
  split
  · simp [Grammar.top?, List.head?_eq_getElem?]
  · rw [List.map_map]
    exact List.map_congr_left fun name _ => Grammar.lookup?_eq_bind_idxOf? distinct name

theorem exists_startPlace (distinct : g.names.Nodup) {roots : List (Rule ω)}
    (started : roots.map some = g.starts start) (isRoot : rule ∈ roots) :
    ∃ root, some root ∈ g.startPlaces start ∧ g.rules[root]? = some rule := by
  have member : some rule ∈ g.starts start := started ▸ List.mem_map_of_mem isRoot
  rw [Grammar.starts_eq_map_startPlaces distinct] at member
  obtain ⟨root?, isStart, found⟩ := List.mem_map.mp member
  obtain ⟨root, rfl, found⟩ := Option.bind_eq_some_iff.mp found
  exact ⟨root, isStart, found⟩

/-! ### Ways along references -/

/-- A way along references from a start place; the place that it comes to stands in front. -/
inductive Grammar.Way (g : Grammar ω) (start : List String) : List Nat → Prop where
  | root {root : Nat} (isStart : some root ∈ g.startPlaces start) : g.Way start [root]
  | step {place next : Nat} {path : List Nat} (way : g.Way start (place :: path))
      (refers : g.Refers place next) : g.Way start (next :: place :: path)

variable {path : List Nat}

theorem Grammar.Way.reaches (way : g.Way start path) : ∀ place ∈ path, g.Reaches start place := by
  induction way with
  | root isStart => exact List.forall_mem_singleton.mpr ⟨_, isStart, .refl⟩
  | step _ refers ih =>
    have last := ih _ List.mem_cons_self
    exact List.forall_mem_cons.mpr ⟨last.step refers, ih⟩

/-- Each place on a way leads to all that come after it. -/
theorem Grammar.Way.pairwise (way : g.Way start path) :
    path.Pairwise fun later earlier => Relation.TransGen g.Refers earlier later := by
  induction way with
  | root isStart => exact List.pairwise_singleton _ _
  | @step place next path _ refers ih =>
    refine List.pairwise_cons.mpr ⟨?_, ih⟩
    refine List.forall_mem_cons.mpr ⟨.single refers, fun earlier isEarlier => ?_⟩
    exact ((List.pairwise_cons.mp ih).1 earlier isEarlier).tail refers

/-- Without cycles no way comes to a place twice. -/
theorem Grammar.Way.nodup (acyclic : g.IsAcyclicFrom start) (way : g.Way start path) :
    path.Nodup := by
  refine way.pairwise.imp_of_mem fun {later earlier} isLater _ leads same => ?_
  subst same
  exact acyclic later (way.reaches later isLater) leads

/-- Without cycles a way to a rule takes fewer references than there are rules. -/
theorem Grammar.Way.length_lt (acyclic : g.IsAcyclicFrom start)
    (way : g.Way start (place :: path)) (inside : place < g.rules.length) :
    path.length < g.rules.length := by
  have earlierInside : ∀ earlier ∈ path, earlier < g.rules.length := by
    intro earlier isEarlier
    have leads := (List.pairwise_cons.mp way.pairwise).1 earlier isEarlier
    obtain ⟨next, refers, -⟩ := Relation.TransGen.head'_iff.mp leads
    exact lt_of_refers refers
  have among : place :: path ⊆ List.range g.rules.length := by
    refine List.cons_subset.mpr ⟨List.mem_range.mpr inside, fun earlier isEarlier => ?_⟩
    exact List.mem_range.mpr (earlierInside earlier isEarlier)
  have fits := ((way.nodup acyclic).subperm among).length_le
  rwa [List.length_range] at fits

end

/-! ### An example -/

/-- A house of four rules, and what is hidden behind them. Whether its window is lit depends on a
rule that is hidden too. -/
def houseText (hidden : String) : String :=
  "Hall \x7b %60 Door Window; 'dark' \x7d\nDoor \x7b 'shut'; Key 'open' \x7d\n" ++
    "Window ? \x7b !Mirror 'lit' Key\n Mirror 'gone' \x7d\nKey \x7b 'brass' \x7d\n" ++ hidden

/-- A mirror that comes back to itself and leads to the hall. -/
def mirrorText : String := houseText "Mirror \x7b Mirror Hall \x7d"

def mirrorHouse : Grammar Float := (Grammar.ofText mirrorText).toOption.getD ⟨[], ""⟩

theorem ofText_mirrorText : Grammar.ofText mirrorText = .ok mirrorHouse :=
  eq_ok_getD_of_isOk (by decide +kernel) _

theorem mirrorHouse_forward :
    ∀ place < 4, ∀ next ∈ mirrorHouse.references place, place < next ∧ next < 4 := by
  decide +kernel

theorem lt_of_mirrorHouse_reaches {place : Nat} (reached : mirrorHouse.Reaches ["Hall"] place) :
    place < 4 := by
  have hall : mirrorHouse.startPlaces ["Hall"] = [some 0] := by decide +kernel
  refine reached.of_closed (fun root isRoot => ?_)
    fun place inside next refers => (mirrorHouse_forward place inside next refers).2
  rw [hall] at isRoot
  cases List.mem_singleton.mp isRoot
  exact Nat.succ_pos 3

theorem isAcyclicFrom_mirrorHouse : mirrorHouse.IsAcyclicFrom ["Hall"] :=
  isAcyclicFrom_of_forward fun place reached next refers =>
    (mirrorHouse_forward place (lt_of_mirrorHouse_reaches reached) next refers).1

end WeightedGrammar
