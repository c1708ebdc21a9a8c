import WeightedGrammar.Proofs.Pass.Ending

/-!
Guards only cut. A pass under a guard is a part of the pass under a higher guard or none
(`Comes.withGuard`): where it ends with a result the other one ends with the same, and where it is
cut the other one comes to the rule that it is cut at (`Generator.ends_withGuard_of_ofText`).
-/

namespace WeightedGrammar
variable {ω σ : Type}

/-! ### Limits -/

/-- A limit is no higher than another; to have none is the highest. -/
def LimitLe (lower higher : Option Int) : Prop :=
  ∀ limit ∈ higher, ∃ least ∈ lower, least ≤ limit

def Generator.withGuard (gen : Generator σ ω) (limit : Option Int) : Generator σ ω :=
  { gen with settings := { gen.settings with maxDepth := limit } }

variable [Scalar ω] [Supply σ ω] {gen : Generator σ ω} {start : List String} {es : List (Event ω)}
  {left : List (Task ω)} {p q : Progress σ} {lower higher : Option Int} {depth : Nat}
  {rule : Rule ω}

/-- A pass comes at least as far under a higher guard. -/
theorem Generator.Comes.withGuard (h : (gen.withGuard lower).Comes start es left q)
    (le : LimitLe lower higher) : (gen.withGuard higher).Comes start es left q := by
  obtain ⟨⟨rules, started, proceeds⟩, permitted⟩ := h
  have same : (gen.withGuard higher).settings.trace = (gen.withGuard lower).settings.trace := rfl
  refine ⟨⟨rules, started, proceeds.of_trace_eq same⟩, ?_⟩
  intro f member
  exact Settings.permits_of_le (permitted f member) le

/-! ### Coming to a depth -/

/-- After the events the pass is about to fire the rule, the first one at the depth. -/
structure Generator.FirstAt (gen : Generator σ ω) (start : List String) (depth : Nat)
    (rule : Rule ω) (es : List (Event ω)) (q : Progress σ) : Prop where
  comes : ∃ left, gen.Comes start es (.fire depth rule :: left) q
  first : ∀ es' rule' left' q', gen.Comes start es' (.fire depth rule' :: left') q' → es <+: es'

theorem Generator.Comes.firstAt (h : gen.Comes start es (.fire depth rule :: left) q)
    (below : Below depth es) : gen.FirstAt start depth rule es q := by
  refine ⟨⟨left, h⟩, ?_⟩
  intro es' rule' left' q' h'
  have atBottom : AtBottom depth (.fire depth rule' :: left') := Nat.le_refl depth
  obtain ⟨more, rfl, -⟩ := h'.exists_rest atBottom h below
  exact List.prefix_append es more

/-- All that fires under a guard is above its limit. -/
theorem Generator.Comes.below {limit : Int} (h : gen.Comes start es left q)
    (guarded : gen.settings.maxDepth = some limit) : Below limit.toNat es := by
  intro f member
  have permitted : (f.depth : Int) < limit := h.2 f member limit guarded
  omega

/-- A rule that a pass over a sound grammar comes to fires next, where the guard permits it. -/
theorem Generator.Comes.exists_firing (sound : gen.grammar.IsSound)
    (h : gen.Comes start es (.fire depth rule :: left) p)
    (permitted : gen.settings.Permits depth) :
    ∃ choice left' q,
      gen.Comes start (es ++ [.firing ⟨depth, rule, choice⟩]) left' q := by
  obtain ⟨rules, started, proceeds⟩ := h.1
  have isRule : rule ∈ gen.grammar.rules :=
    proceeds.known (known_of_starts started) depth rule List.mem_cons_self
  obtain ⟨choice, mid, chooses⟩ := (sound.rules rule isRule).isGated.exists_chooseItem p
  exact ⟨choice, _, _, h.fire permitted chooses⟩

/-! ### Two guards -/

/-- A pass over a loaded grammar under two guards. What ends with a result under the lower guard
ends with it under the higher one. What is cut under the lower guard is cut at the first rule that
the other pass comes to at the depth of the limit, in the state in which that one comes to it; and
there it fires if the higher guard permits that. -/
theorem Generator.ends_withGuard_of_ofText {text name : String}
    (loaded : Grammar.ofText text name = .ok gen.grammar) (le : LimitLe lower higher)
    (start : List String) (record : Record) (after : Generator σ ω) :
    ((gen.withGuard lower).Ends start ⟨record, none⟩ after →
      (gen.withGuard higher).Ends start ⟨record, none⟩ (after.withGuard higher)) ∧
    ∀ rule limit, (gen.withGuard lower).Ends start ⟨record, some (.depthExceeded rule limit)⟩ after →
      lower = some limit ∧
        ∃ es cut, cut.name = rule ∧
          (gen.withGuard lower).FirstAt start limit.toNat cut es ⟨record, after.supply⟩ ∧
          (gen.withGuard higher).FirstAt start limit.toNat cut es ⟨record, after.supply⟩ ∧
          ((gen.withGuard higher).settings.Permits limit.toNat →
            ∃ choice left' q, (gen.withGuard higher).Comes start
              (es ++ [.firing ⟨limit.toNat, cut, choice⟩]) left' q) := by
  have sound : gen.grammar.IsSound := Grammar.isSound_of_ofText loaded
  have soundLower : (gen.withGuard lower).grammar.IsSound := sound
  have soundHigher : (gen.withGuard higher).grammar.IsSound := sound
  constructor
  · intro ends
    obtain ⟨⟨es, comes⟩, unchanged⟩ := (ends_ok_iff soundLower).mp ends
    refine (ends_ok_iff soundHigher).mpr ⟨⟨es, comes.withGuard le⟩, ?_⟩
    rw [unchanged]
    rfl
  · intro rule limit ends
    obtain ⟨guarded, ⟨es, cut, left, named, comes⟩, -⟩ :=
      (ends_depthExceeded_iff soundLower).mp ends
    have below : Below limit.toNat es := comes.below guarded
    have higherComes := comes.withGuard le
    refine ⟨guarded, es, cut, named, comes.firstAt below, higherComes.firstAt below, ?_⟩
    intro permitted
    exact higherComes.exists_firing soundHigher permitted

/-- The tale, cut at its second level or not at all. -/
theorem Generator.ends_withGuard_of_ofText_tale :
    let gen : Generator (Cycle Float) Float := ⟨tale Float, ⟨#[0.25], Nat.one_pos, 0⟩, {}⟩
    let cutShort := (gen.withGuard (some 2)).generateWithin 0 []
    Grammar.ofText taleText = .ok gen.grammar ∧ LimitLe (some 2) none ∧
      cutShort.1.error = some (.depthExceeded "Hero" 2) ∧
      ∃ es hero, hero.name = "Hero" ∧
        (gen.withGuard none).FirstAt [] 2 hero es ⟨cutShort.1.record, cutShort.2.supply⟩ := by
  intro gen cutShort
  have le : LimitLe (some 2) none := by
    intro limit none
    cases none
  have cut : cutShort.1.error = some (.depthExceeded "Hero" 2) := by decide +kernel
  have ends : (gen.withGuard (some 2)).Ends []
      ⟨cutShort.1.record, some (.depthExceeded "Hero" 2)⟩ cutShort.2 := by
    have guarded : (gen.withGuard (some 2)).settings.maxDepth = some 2 := rfl
    rw [← cut]
    exact ends_of_guarded guarded 0 []
  obtain ⟨-, es, hero, named, -, first, -⟩ :=
    (Generator.ends_withGuard_of_ofText ofText_tale le [] cutShort.1.record cutShort.2).2
      "Hero" 2 ends
  exact ⟨ofText_tale, le, cut, es, hero, named, first⟩

end WeightedGrammar
