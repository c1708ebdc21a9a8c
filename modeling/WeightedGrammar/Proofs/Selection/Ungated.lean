import WeightedGrammar.Proofs.Pass.Gating

/-!
Items under one condition. When all items of a conditional rule whose condition holds are under the
same condition, they are all the items under it, and their weights leave room for each other as the
loader has checked. The rule then chooses as the unconditional rule that is made of exactly these
items (`Rule.choosesAsUngated_of_ofText`), and weights become relative only when items under
different conditions compete.
-/

namespace WeightedGrammar
variable {ω σ : Type}

/-! ### Loaded rules as drafts -/

/-- How the element is mentioned on a line. -/
def Element.mention (line : Nat) : Element → Mention
  | literal text => .literal text
  | ref name _ => .rule name line

def Item.draft (line : Nat) (item : Item ω) : ItemDraft ω :=
  ⟨line, item.weight, item.elements.map (·.mention line), item.condition, item.states⟩

/-- The draft of a rule that stands on a line. -/
def Rule.draft (line : Nat) (rule : Rule ω) : RuleDraft ω :=
  ⟨rule.name, rule.conditional, line, ⟨rule.items.map (·.draft line), rule.states⟩⟩

section Drafts
variable [Scalar ω] {names : List String}

theorem idxOf_eq_of_getElem? (distinct : names.Nodup) {name : String} {index : Nat}
    (found : names[index]? = some name) : names.idxOf name = index := by
  obtain ⟨inside, rfl⟩ := List.getElem?_eq_some_iff.mp found
  exact distinct.idxOf_getElem index inside

theorem Item.IsSound.item_form_draft {item : Item ω} (sound : item.IsSound names)
    (distinct : names.Nodup) (line : Nat) : (item.draft line).form.item names = item := by
  have resolved : ∀ e ∈ item.elements, (e.mention line).word.element names = e := by
    intro e isElement
    cases e with
    | literal text => rfl
    | ref name index =>
      have place := idxOf_eq_of_getElem? distinct (sound.refs name index isElement)
      simp [Element.mention, Mention.word, Word.element, place]
  have elements : ((item.elements.map (·.mention line)).map (·.word)).map (·.element names) =
      item.elements := by
    rw [List.map_map, List.map_map]
    exact (List.map_congr_left resolved).trans (List.map_id' _)
  simp only [Item.draft, ItemDraft.form, ItemForm.item, elements]

theorem Item.IsSound.isKnown_form_draft {item : Item ω} (sound : item.IsSound names)
    (conditions : ∀ c ∈ item.condition, ∀ name ∈ c.names, name ∈ names) (line : Nat) :
    (item.draft line).form.IsKnown names := by
  refine ⟨fun name isWord => ?_, conditions⟩
  obtain ⟨mention, isMention, same⟩ := List.mem_map.mp isWord
  obtain ⟨e, isElement, rfl⟩ := List.mem_map.mp isMention
  cases e with
  | literal text => cases same
  | ref other index =>
    cases same
    exact List.mem_of_getElem? (sound.refs name index isElement)

/-- A sound rule comes out of its draft as it is: the loader accepts its weights and computes the
same chances. -/
theorem Rule.IsSound.resolve_draft {rule : Rule ω} (sound : rule.IsSound names)
    (distinct : names.Nodup)
    (conditions : ∀ item ∈ rule.items, ∀ c ∈ item.condition, ∀ name ∈ c.names, name ∈ names)
    (line : Nat) : (rule.draft line).resolve names = .ok rule := by
  have items : (rule.draft line).form.body.items.map (·.item names) = rule.items := by
    show ((rule.items.map (·.draft line)).map (·.form)).map (·.item names) = rule.items
    rw [List.map_map, List.map_map]
    exact (List.map_congr_left fun item isItem =>
      (sound.items item isItem).item_form_draft distinct line).trans (List.map_id' _)
  have whole : (rule.draft line).form.rule names = rule := by
    rw [RuleForm.rule, items]
    show (⟨_, _, _, _, chancesOf rule.conditional rule.items⟩ : Rule ω) = rule
    rw [← sound.chances]
    rfl
  rw [ruleDraft_resolve_eq_ok_iff]
  refine ⟨⟨?_, ?_⟩, whole.symm⟩
  · intro f isForm
    have isItem : f.item names ∈ rule.items := items ▸ List.mem_map_of_mem isForm
    have balanced := sound.balanced _ isItem
    rw [← whole, weightsUnder_rule] at balanced
    exact balanced
  · intro f isForm
    obtain ⟨draft, isDraft, rfl⟩ := List.mem_map.mp isForm
    obtain ⟨item, isItem, rfl⟩ := List.mem_map.mp isDraft
    exact (sound.items item isItem).isKnown_form_draft (conditions item isItem) line

end Drafts

/-! ### Rules without their conditions -/

def Item.ungated (item : Item ω) : Item ω := { item with condition := none }

/-- The unconditional rule that is made of exactly the items whose condition holds, in order. -/
def Rule.ungated [Scalar ω] (rule : Rule ω) (hasFired : String → Bool) : Rule ω :=
  let items := (rule.satisfiedItems hasFired).map (·.ungated)
  ⟨rule.name, false, items, rule.states, chancesOf false items⟩

theorem mem_items_of_mem_satisfiedItems {rule : Rule ω} {hasFired : String → Bool} {item : Item ω}
    (h : item ∈ rule.satisfiedItems hasFired) :
    item ∈ rule.items ∧ item.condition.any (·.evaluate hasFired) = true :=
  List.mem_filter.mp h

/-- Whether a condition holds depends on the condition alone, so items under one condition hold
together: if no others do, these are all the items under it. -/
theorem satisfiedItems_eq_filter {rule : Rule ω} {hasFired : String → Bool} {c : Condition}
    (inhabited : rule.satisfiedItems hasFired ≠ [])
    (same : ∀ item ∈ rule.satisfiedItems hasFired, item.condition = some c) :
    rule.satisfiedItems hasFired = rule.items.filter (·.condition == some c) := by
  obtain ⟨first, member⟩ := List.exists_mem_of_ne_nil _ inhabited
  have holds : c.evaluate hasFired = true := by
    have satisfied := (mem_items_of_mem_satisfiedItems member).2
    rwa [same first member, Option.any_some] at satisfied
  refine List.filter_congr fun item isItem => ?_
  rw [Bool.eq_iff_iff, beq_iff_eq]
  constructor
  · intro satisfied
    exact same item (List.mem_filter.mpr ⟨isItem, satisfied⟩)
  · intro under
    rw [under, Option.any_some]
    exact holds

/-- The places of the candidates lead to the items whose condition holds, in order. -/
theorem getElem?_satisfiedItems (rule : Rule ω) (hasFired : String → Bool) (k : Nat) :
    (rule.satisfiedItems hasFired)[k]? =
      ((rule.satisfied hasFired)[k]?).bind fun candidate => rule.items[candidate.1]? := by
  have each : (rule.satisfied hasFired).map (fun candidate => rule.items[candidate.1]?) =
      (rule.satisfiedItems hasFired).map some :=
    map_satisfied fun _ _ found => found
  have atPlace := congrArg (·[k]?) each
  simp only [List.getElem?_map] at atPlace
  cases candidate : (rule.satisfied hasFired)[k]? <;>
    cases item : (rule.satisfiedItems hasFired)[k]? <;>
    simp_all

section Choosing
variable [Scalar ω] {names : List String} {rule : Rule ω} {hasFired : String → Bool}

theorem Rule.IsSound.balanced_of_same_condition (sound : rule.IsSound names)
    (inhabited : rule.satisfiedItems hasFired ≠ [])
    (same : ∀ item ∈ rule.satisfiedItems hasFired, ∀ other ∈ rule.satisfiedItems hasFired,
      item.condition = other.condition) :
    Balanced ((rule.satisfiedItems hasFired).map (·.weight)) := by
  obtain ⟨first, member⟩ := List.exists_mem_of_ne_nil _ inhabited
  obtain ⟨isItem, satisfied⟩ := mem_items_of_mem_satisfiedItems member
  obtain ⟨c, under, -⟩ := (Option.any_eq_true ..).mp satisfied
  have all := satisfiedItems_eq_filter inhabited fun item isSatisfied =>
    (same item isSatisfied first member).trans under
  rw [all, ← under]
  exact sound.balanced first isItem

theorem Rule.IsSound.ungated (sound : rule.IsSound names)
    (balanced : Balanced ((rule.satisfiedItems hasFired).map (·.weight))) :
    (rule.ungated hasFired).IsSound names := by
  have group : (rule.ungated hasFired).weightsUnder none =
      (rule.satisfiedItems hasFired).map (·.weight) := by
    have all : (rule.ungated hasFired).items.filter (·.condition == none) =
        (rule.ungated hasFired).items :=
      List.filter_eq_self.mpr (List.forall_mem_map.mpr fun _ _ => rfl)
    rw [Rule.weightsUnder, all]
    exact List.map_map
  refine ⟨?_, ?_, ?_, rfl⟩
  · exact List.forall_mem_map.mpr fun _ _ => rfl
  · refine List.forall_mem_map.mpr fun item isSatisfied => ?_
    have itemSound := sound.items item (mem_items_of_mem_satisfiedItems isSatisfied).1
    exact ⟨itemSound.refs, itemSound.weight⟩
  · refine List.forall_mem_map.mpr fun item _ => ?_
    rw [show item.ungated.condition = none from rfl, group]
    exact balanced

/-- A choice among all items of a rule and a choice among those whose condition holds are of the
same item, or both of none. -/
structure Rule.SameChoice (rule : Rule ω) (hasFired : String → Bool) (choice among : Option Nat) :
    Prop where
  nothing : choice = none ↔ among = none
  place : choice = among.bind (((rule.satisfied hasFired).map (·.1))[·]?)
  item : (rule.chosen? choice).map (·.ungated) = (rule.ungated hasFired).chosen? among

theorem sameChoice_of_lt {among : Option Nat}
    (inside : ∀ k ∈ among, k < (rule.satisfied hasFired).length) :
    rule.SameChoice hasFired (among.bind (((rule.satisfied hasFired).map (·.1))[·]?)) among := by
  cases among with
  | none => exact ⟨by simp, rfl, rfl⟩
  | some k =>
    obtain ⟨candidate, isCandidate⟩ : ∃ candidate, (rule.satisfied hasFired)[k]? = some candidate :=
      ⟨_, List.getElem?_eq_getElem (inside k rfl)⟩
    have place : ((rule.satisfied hasFired).map (·.1))[k]? = some candidate.1 := by
      rw [List.getElem?_map, isCandidate, Option.map_some]
    have items := getElem?_satisfiedItems rule hasFired k
    rw [isCandidate, Option.bind_some] at items
    rw [Option.bind_some, place]
    refine ⟨by simp, by rw [Option.bind_some, place], ?_⟩
    show (rule.items[_]?).map _ = ((rule.satisfiedItems hasFired).map (·.ungated))[k]?
    rw [← items, List.getElem?_map]

/-- The ungated rule picks the entry of its chances that the draw chooses. -/
theorem pick_ungated {ballot : Ballot ω}
    (competing : (rule.ungated hasFired).ballot? hasFired = some ballot) (draw : ω) :
    ballot.pick draw =
      Selection.choose (Selection.normalize ((rule.satisfied hasFired).map (·.2))) draw := by
  have chances : (rule.ungated hasFired).chances =
      Selection.normalize ((rule.satisfied hasFired).map (·.2)) := by
    show Selection.normalize (((rule.satisfiedItems hasFired).map (·.ungated)).map (·.weight)) = _
    rw [List.map_map, map_snd_satisfied]
    rfl
  rw [ballot?_of_plain rfl, chances] at competing
  obtain rfl := Option.some.inj competing
  unfold Ballot.pick
  cases chosen : Selection.choose (Selection.normalize ((rule.satisfied hasFired).map (·.2)))
      draw with
  | none => rfl
  | some k => rw [Option.bind_some, List.getElem?_range (Selection.choose_lt chosen)]

/-- With room for their weights, a conditional rule picks among the items whose condition holds as
the ungated rule does. -/
theorem sameChoice_pick (roomy : Ballot.isCrowded ((rule.satisfied hasFired).map (·.2)) = false)
    {ballot : Ballot ω} (competing : (rule.ungated hasFired).ballot? hasFired = some ballot)
    (draw : ω) :
    rule.SameChoice hasFired ((Ballot.ofSatisfied (rule.satisfied hasFired)).pick draw)
      (ballot.pick draw) := by
  rw [pick_ungated competing]
  have picked : (Ballot.ofSatisfied (rule.satisfied hasFired)).pick draw =
      (Selection.choose (Selection.normalize ((rule.satisfied hasFired).map (·.2))) draw).bind
        (((rule.satisfied hasFired).map (·.1))[·]?) := by
    simp [Ballot.ofSatisfied, roomy, Ballot.pick]
  rw [picked]
  refine sameChoice_of_lt fun k chosen => ?_
  simpa using Selection.choose_lt chosen

variable [Supply σ ω]

/-- The rule chooses in the state as the rule that is made of exactly the items whose condition
holds there. -/
structure Rule.ChoosesAsUngated (rule : Rule ω) (names : List String) (p : Progress σ) : Prop where
  /-- Weights do not become relative. -/
  roomy : Ballot.isCrowded ((rule.satisfied p.record.hasFired).map (·.2)) = false
  /-- The loader accepts the ungated rule, on whatever line, and computes its chances. -/
  loads : ∀ line, ((rule.ungated p.record.hasFired).draft line).resolve names =
    .ok (rule.ungated p.record.hasFired)
  /-- Both rules choose the same item by the same draw, or nothing. -/
  chooses : ∃ choice among after, rule.chooseItem p = .ok choice after ∧
    (rule.ungated p.record.hasFired).chooseItem p = .ok among after ∧
    rule.SameChoice p.record.hasFired choice among

theorem Rule.IsSound.choosesAsUngated (sound : rule.IsSound names) (distinct : names.Nodup)
    (conditional : rule.conditional = true) (p : Progress σ)
    (inhabited : rule.satisfiedItems p.record.hasFired ≠ [])
    (balanced : Balanced ((rule.satisfiedItems p.record.hasFired).map (·.weight))) :
    rule.ChoosesAsUngated names p := by
  have ungated := sound.ungated balanced
  have roomy : Ballot.isCrowded ((rule.satisfied p.record.hasFired).map (·.2)) = false := by
    rw [map_snd_satisfied]
    exact isCrowded_of_balanced balanced
  refine ⟨roomy, ?_, ?_⟩
  · refine ungated.resolve_draft distinct (List.forall_mem_map.mpr fun item _ c isCondition => ?_)
    cases isCondition
  · have competing : rule.ballot? p.record.hasFired =
        some (.ofSatisfied (rule.satisfied p.record.hasFired)) := by
      rw [ballot?_of_conditional conditional, if_neg (mt satisfied_eq_nil_iff.mp inhabited)]
    have plain : (rule.ungated p.record.hasFired).conditional = false := rfl
    have competing' := ballot?_of_plain plain p.record.hasFired
    exact ⟨_, _, ⟨p.record.countDraw, (Supply.draw p.supply).2⟩,
      chooseItem_eq_ok_iff.mpr ⟨sound.isGated, 1, .drawn competing, rfl⟩,
      chooseItem_eq_ok_iff.mpr ⟨ungated.isGated, 1, .drawn competing', rfl⟩,
      sameChoice_pick roomy competing' _⟩

end Choosing

/-! ### Loaded rules -/

variable [Scalar ω] [Supply σ ω]

/-- When all items of a loaded conditional rule whose condition holds are under the same condition,
the rule chooses as the unconditional rule made of exactly these items, which the loader accepts.
Weights become relative only when items under different conditions hold together. -/
theorem Rule.choosesAsUngated_of_ofText {text name : String} {g : Grammar ω}
    (loaded : Grammar.ofText text name = .ok g) {rule : Rule ω} (isRule : rule ∈ g.rules)
    (conditional : rule.conditional = true) (p : Progress σ)
    (inhabited : rule.satisfiedItems p.record.hasFired ≠ []) :
    ((∀ item ∈ rule.satisfiedItems p.record.hasFired,
        ∀ other ∈ rule.satisfiedItems p.record.hasFired, item.condition = other.condition) →
      rule.ChoosesAsUngated g.names p) ∧
    (Ballot.isCrowded ((rule.satisfied p.record.hasFired).map (·.2)) = true →
      ∃ item ∈ rule.satisfiedItems p.record.hasFired,
        ∃ other ∈ rule.satisfiedItems p.record.hasFired, item.condition ≠ other.condition) := by
  have sound := Grammar.isSound_of_ofText loaded
  have alike : (∀ item ∈ rule.satisfiedItems p.record.hasFired,
      ∀ other ∈ rule.satisfiedItems p.record.hasFired, item.condition = other.condition) →
      rule.ChoosesAsUngated g.names p := by
    intro same
    have ruleSound := sound.rules rule isRule
    exact ruleSound.choosesAsUngated sound.distinct conditional p inhabited
      (ruleSound.balanced_of_same_condition inhabited same)
  refine ⟨alike, fun crowded => ?_⟩
  by_contra none
  have same : ∀ item ∈ rule.satisfiedItems p.record.hasFired,
      ∀ other ∈ rule.satisfiedItems p.record.hasFired, item.condition = other.condition :=
    fun item isItem other isOther =>
      by_contra fun different => none ⟨item, isItem, other, isOther, different⟩
  have roomy := (alike same).roomy
  rw [crowded] at roomy
  cases roomy

/-- The first rule of the tale when it has fired before: its first two items compete, one of them
without a weight. -/
theorem Rule.choosesAsUngated_of_ofText_tale :
    let p : Progress (Cycle Float) :=
      ⟨({} : Record).fire "Hero" (some 0), ⟨#[0.25], Nat.one_pos, 0⟩⟩
    ∃ hero ∈ (tale Float).rules, (hero.satisfied p.record.hasFired).map (·.1) = [0, 1] ∧
      hero.ChoosesAsUngated (tale Float).names p := by
  intro p
  have checked : ((tale Float).top?.any fun hero => hero.conditional &&
      decide ((hero.satisfied p.record.hasFired).map (·.1) = [0, 1]) &&
      (hero.satisfiedItems p.record.hasFired).all
        (decide <| ·.condition = some (.neg (.fired "Tale")))) = true := by decide +kernel
  obtain ⟨hero, isTop, kept⟩ := (Option.any_eq_true ..).mp checked
  simp only [Bool.and_eq_true, List.all_eq_true, decide_eq_true_eq] at kept
  obtain ⟨⟨conditional, places⟩, under⟩ := kept
  have inhabited : hero.satisfiedItems p.record.hasFired ≠ [] := by
    rw [Ne, ← satisfied_eq_nil_iff, ← List.map_eq_nil_iff, places]
    simp
  refine ⟨hero, List.mem_of_head? isTop, places, ?_⟩
  exact (Rule.choosesAsUngated_of_ofText ofText_tale (List.mem_of_head? isTop) conditional p
    inhabited).1 fun item isItem other isOther =>
      (under item isItem).trans (under other isOther).symm

end WeightedGrammar
