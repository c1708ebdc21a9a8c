import WeightedGrammar.Proofs.Form.Heads
import WeightedGrammar.Proofs.Grammar.Sound
import WeightedGrammar.Proofs.Token.Joined

/-!
Grammars of joined texts. Two texts that are loaded can be joined with a line feed. If no rule name
is in both, the rules of the second text stand behind those of the first one, and references among
them move along; otherwise the first rule of the second text that repeats a name is reported, on the
line where it now stands (`Grammar.ofText_joined`).
-/

namespace WeightedGrammar
variable {ω : Type}

/-! ### Rules that move -/

def Element.shift (places : Nat) : Element → Element
  | literal text => .literal text
  | ref name index => .ref name (index + places)

def Item.shift (places : Nat) (item : Item ω) : Item ω :=
  { item with elements := item.elements.map (·.shift places) }

/-- The rule in a grammar that has so many more rules in front. -/
def Rule.shift (places : Nat) (rule : Rule ω) : Rule ω :=
  { rule with items := rule.items.map (·.shift places) }

section Names
variable {names more : List String}

theorem Word.element_append {w : Word} (known : ∀ rule, w = .name rule → rule ∈ names) :
    w.element (names ++ more) = w.element names := by
  cases w with
  | literal text => rfl
  | name rule => rw [Word.element, Word.element, List.idxOf_append, if_pos (known rule rfl)]

theorem Word.element_behind {w : Word} (apart : ∀ rule, w = .name rule → rule ∉ names) :
    w.element (names ++ more) = (w.element more).shift names.length := by
  cases w with
  | literal text => rfl
  | name rule => rw [Word.element, Word.element, List.idxOf_append, if_neg (apart rule rfl)]; rfl

theorem ItemForm.item_append {f : ItemForm ω} (known : f.IsKnown names) :
    f.item (names ++ more) = f.item names := by
  have elements : f.words.map (·.element (names ++ more)) = f.words.map (·.element names) :=
    List.map_congr_left fun w isWord =>
      Word.element_append fun rule isName => known.1 rule (isName ▸ isWord)
  rw [ItemForm.item, ItemForm.item, elements]

theorem ItemForm.item_behind {f : ItemForm ω} (known : f.IsKnown more)
    (apart : ∀ rule ∈ more, rule ∉ names) :
    f.item (names ++ more) = (f.item more).shift names.length := by
  have elements : f.words.map (·.element (names ++ more)) =
      (f.words.map (·.element more)).map (·.shift names.length) := by
    rw [List.map_map]
    exact List.map_congr_left fun w isWord =>
      Word.element_behind fun rule isName => apart rule (known.1 rule (isName ▸ isWord))
  rw [ItemForm.item, elements]
  rfl

variable [Scalar ω]

theorem RuleForm.rule_append {r : RuleForm ω} (known : r.IsKnown names) :
    r.rule (names ++ more) = r.rule names := by
  have items : r.body.items.map (·.item (names ++ more)) = r.body.items.map (·.item names) :=
    List.map_congr_left fun f isItem => f.item_append (known f isItem)
  rw [RuleForm.rule, RuleForm.rule, items]

theorem RuleForm.rule_behind {r : RuleForm ω} (known : r.IsKnown more)
    (apart : ∀ rule ∈ more, rule ∉ names) :
    r.rule (names ++ more) = (r.rule more).shift names.length := by
  have items : r.body.items.map (·.item (names ++ more)) =
      (r.body.items.map (·.item more)).map (·.shift names.length) := by
    rw [List.map_map]
    exact List.map_congr_left fun f isItem => f.item_behind (known f isItem) apart
  have weights : (r.body.items.map (·.item (names ++ more))).map (·.weight) =
      (r.body.items.map (·.item more)).map (·.weight) := by
    rw [List.map_map, List.map_map]
    rfl
  have chances : chancesOf r.conditional (r.body.items.map (·.item (names ++ more))) =
      chancesOf r.conditional (r.body.items.map (·.item more)) := by
    rw [chancesOf, chancesOf, weights]
  rw [RuleForm.rule, chances, items]
  rfl

theorem ofForms_append {rs rs' : List (RuleForm ω)} (known : ∀ r ∈ rs, r.IsKnown (rs.map (·.name)))
    (known' : ∀ r ∈ rs', r.IsKnown (rs'.map (·.name)))
    (apart : ∀ rule ∈ rs'.map (·.name), rule ∉ rs.map (·.name)) (name name' other : String) :
    Grammar.ofForms other (rs ++ rs') =
      ⟨(Grammar.ofForms name rs).rules ++
        (Grammar.ofForms name' rs').rules.map (·.shift (Grammar.ofForms name rs).rules.length),
        other⟩ := by
  have front : rs.map (·.rule (rs.map (·.name) ++ rs'.map (·.name))) =
      rs.map (·.rule (rs.map (·.name))) :=
    List.map_congr_left fun r isRule => r.rule_append (known r isRule)
  have behind : rs'.map (·.rule (rs.map (·.name) ++ rs'.map (·.name))) =
      (rs'.map (·.rule (rs'.map (·.name)))).map (·.shift rs.length) := by
    rw [List.map_map]
    refine List.map_congr_left fun r isRule => ?_
    have moved := r.rule_behind (known' r isRule) apart
    rwa [List.length_map] at moved
  rw [Grammar.ofForms, List.map_append, List.map_append, front, behind]
  simp only [Grammar.ofForms, List.length_map]

end Names

/-! ### Forms of both texts -/

theorem RulesText.append {ls ls' : List Lexeme} {forms forms' : List (RuleForm String)}
    (h : RulesText ls forms) (mark : LineMark) (more : RulesText ls' forms') :
    RulesText (ls.dropLast ++ .lineBreak mark :: ls') (forms ++ forms') := by
  induction h with
  | endOfInput => exact .lineBreak mark more
  | lineBreak other rest ih =>
    rw [List.dropLast_cons_of_ne_nil rest.ne_nil]
    exact .lineBreak other ih
  | rule first rest ih =>
    rw [List.dropLast_append_of_ne_nil rest.ne_nil, List.append_assoc]
    exact .rule first ih

theorem RuleForm.IsKnown.mono {names names' : List String} {r : RuleForm String}
    (known : r.IsKnown names) (among : names ⊆ names') : r.IsKnown names' := fun f isItem =>
  ⟨fun rule isName => among ((known f isItem).1 rule isName),
    fun c isCondition rule isName => among ((known f isItem).2 c isCondition rule isName)⟩

section Loading
variable [Scalar ω]

theorem IsLoadable.append {forms forms' : List (RuleForm String)} (loadable : IsLoadable ω forms)
    (loadable' : IsLoadable ω forms')
    (apart : ∀ rule ∈ forms'.map (·.name), rule ∉ forms.map (·.name)) :
    IsLoadable ω (forms ++ forms') := by
  refine ⟨?_, List.forall_mem_append.mpr ⟨loadable.fits, loadable'.fits⟩,
    List.forall_mem_append.mpr ⟨loadable.balanced, loadable'.balanced⟩, ?_⟩
  · rw [List.map_append, List.nodup_append]
    refine ⟨loadable.distinct, loadable'.distinct, ?_⟩
    rintro rule isFirst _ isSecond rfl
    exact apart rule isSecond isFirst
  · rw [List.map_append, List.forall_mem_append]
    exact ⟨fun r isRule => (loadable.known r isRule).mono (List.subset_append_left ..),
      fun r isRule => (loadable'.known r isRule).mono (List.subset_append_right ..)⟩

theorem IsLoadable.known_valued {forms : List (RuleForm String)} (loadable : IsLoadable ω forms) :
    ∀ r ∈ forms.map (·.valued (ω := ω)),
      r.IsKnown ((forms.map (·.valued (ω := ω))).map (·.name)) := by
  rw [map_name_valued, List.forall_mem_map]
  exact fun r isRule => isKnown_valued.mpr (loadable.known r isRule)

end Loading

/-! ### Rules of texts -/

/-- The names of the rules of a text with the lines that they stand on. -/
def ruleHeads (text : String) : List (String × Nat) :=
  match Token.ofText text with
  | .ok tokens => heads 0 tokens
  | .error _ => []

theorem ruleHeads_eq {text : String} {tokens : List Token}
    (lexed : Token.ofText text = .ok tokens) : ruleHeads text = heads 0 tokens := by
  rw [ruleHeads, lexed]

theorem heads_lower (lines depth : Nat) (ts : List Token) :
    heads depth (ts.map (·.lower lines)) =
      (heads depth ts).map fun head => (head.1, head.2 + lines) := by
  fun_induction heads depth ts with
  | case1 => rfl
  | case2 depth t ts isOpen ih => simp [heads, isOpen, ih]
  | case3 depth t ts isClose ih => simp [heads, isClose, ih]
  | case4 t ts rule isName ih => simp [heads, isName, ih]
  | case5 depth t ts rule isName inside ih => simp [heads, isName, inside, ih]
  | case6 depth t ts notOpen notClose notName ih => simp [heads, ih]

/-- Texts that are loaded have, joined by a line feed, tokens that derive the forms of both, and the
rules of the second one stand further down. -/
theorem exists_tokens_joined {first second : String} {ts ts' : List Token}
    {forms forms' : List (RuleForm String)} (lexed : Token.ofText first = .ok ts)
    (lexed' : Token.ofText second = .ok ts') (derives : RulesText (ts.map (·.lexeme)) forms)
    (derives' : RulesText (ts'.map (·.lexeme)) forms') :
    ∃ joined, Token.ofText (first ++ "\n" ++ second) = .ok joined ∧
      RulesText (joined.map (·.lexeme)) (forms ++ forms') ∧
      heads 0 joined =
        heads 0 ts ++ (heads 0 ts').map fun head => (head.1, head.2 + (feeds first + 1)) := by
  obtain ⟨front, rfl, joined⟩ := tokens_joined lexed lexed'
  refine ⟨_, joined, ?_, ?_⟩
  · have both := derives.append .feed derives'
    simpa [Function.comp_def] using both
  · have behind := heads_dropLast_append derives
      (⟨.lineBreak .feed, feeds first + 1⟩ :: ts'.map (·.lower (feeds first + 1))) rfl
    rwa [List.dropLast_concat, heads_lineBreak rfl, heads_lower] at behind

variable [Scalar ω]

/-- They are the names and lines that the loader keeps. -/
theorem ruleHeads_of_readRules {text : String} {tokens : List Token} {drafts : List (RuleDraft ω)}
    (lexed : Token.ofText text = .ok tokens) (read : readRules [] tokens = .ok drafts) :
    ruleHeads text = drafts.map fun draft => (draft.name, draft.line) := by
  obtain ⟨forms, derives, -, fits, -⟩ :=
    rulesText_of_readRules read (endsInput_of_tokensFrom lexed)
  rw [ruleHeads_eq lexed, heads_of_readRules derives fits rfl read]

theorem names_ruleHeads {text name : String} {g : Grammar ω}
    (loaded : Grammar.ofText text name = .ok g) : (ruleHeads text).map (·.1) = g.names := by
  simp only [Grammar.ofText, bind_eq_ok_iff, ofDrafts_eq_ok_iff] at loaded
  obtain ⟨tokens, lexed, drafts, read, -, rfl⟩ := loaded
  rw [ruleHeads_of_readRules lexed read, Grammar.names_ofForms, List.map_map, List.map_map]
  rfl

/-- Joined, two texts that are loaded give the rules of both, those of the second one moved behind
those of the first one, if no rule has a name in both. If some rule has, the first one of the second
text is reported for which that is so, on its line below the first text. -/
theorem Grammar.ofText_joined {first second name name' : String} {g g' : Grammar ω}
    (loaded : Grammar.ofText first name = .ok g) (loaded' : Grammar.ofText second name' = .ok g')
    (other : String) :
    ((∀ rule ∈ g'.names, rule ∉ g.names) →
      Grammar.ofText (first ++ "\n" ++ second) other =
        .ok ⟨g.rules ++ g'.rules.map (·.shift g.rules.length), other⟩) ∧
    (ruleHeads second).map (·.1) = g'.names ∧
    ∀ rule ∈ g'.names, rule ∈ g.names →
      ∃ repeated line firstLine,
        (ruleHeads second).find? (g.names.contains ·.1) = some (repeated, line) ∧
        (repeated, firstLine) ∈ ruleHeads first ∧
        (Grammar.ofText (first ++ "\n" ++ second) other : Except LoadError (Grammar ω)) =
          .error ⟨feeds first + 1 + line, .duplicateRule repeated firstLine⟩ := by
  have distinct := (Grammar.isSound_of_ofText loaded).distinct
  have distinct' := (Grammar.isSound_of_ofText loaded').distinct
  have names := names_ruleHeads loaded
  have names' := names_ruleHeads loaded'
  obtain ⟨tokens, forms, lexed, derives, loadable, rfl⟩ := Grammar.ofText_eq_ok_iff.mp loaded
  obtain ⟨tokens', forms', lexed', derives', loadable', rfl⟩ := Grammar.ofText_eq_ok_iff.mp loaded'
  obtain ⟨joined, lexedJoined, derivesJoined, headsJoined⟩ :=
    exists_tokens_joined lexed lexed' derives derives'
  refine ⟨?_, names', ?_⟩
  · intro apart
    rw [Grammar.names_ofForms, Grammar.names_ofForms] at apart
    rw [Grammar.ofText_eq_ok_iff]
    refine ⟨joined, _, lexedJoined, derivesJoined, loadable.append loadable' ?_, ?_⟩
    · rwa [map_name_valued, map_name_valued] at apart
    · rw [List.map_append, ofForms_append loadable.known_valued loadable'.known_valued apart]
  · intro rule isSecond isFirst
    rw [← names'] at isSecond distinct'
    rw [← names] at isFirst distinct ⊢
    rw [← ruleHeads_eq lexed, ← ruleHeads_eq lexed'] at headsJoined
    have fits : ∀ r ∈ forms ++ forms', r.body.WeightsFit ω :=
      List.forall_mem_append.mpr ⟨loadable.fits, loadable'.fits⟩
    obtain ⟨repeated, line, firstLine, found, isSeen, failed⟩ :=
      readRules_repeated derivesJoined fits headsJoined distinct distinct' isSecond isFirst
    refine ⟨repeated, line, firstLine, found, isSeen, ?_⟩
    rw [Grammar.ofText, lexedJoined, Nat.add_comm]
    show readRules [] joined >>= _ = _
    rw [failed]
    rfl

/-- A rule of its own for the tale. -/
def codaText : String := "Coda \x7b Coda; 'end' \x7d"

/-- A rule of its own, and one that the tale has on its third line. -/
def sequelText : String := "Coda \x7b 'end' \x7d\nTale \x7b Coda \x7d"

theorem Grammar.ofText_joined_tale :
    (∃ g : Grammar Float, Grammar.ofText codaText = .ok g ∧
      Grammar.ofText (taleText ++ "\n" ++ codaText) =
        .ok ⟨(tale Float).rules ++ g.rules.map (·.shift 2), ""⟩) ∧
    (Grammar.ofText (taleText ++ "\n" ++ sequelText) : Except LoadError (Grammar Float)) =
      .error ⟨5, .duplicateRule "Tale" 3⟩ := by
  have taleHeads : ruleHeads taleText = [("Hero", 1), ("Tale", 3)] := by decide +kernel
  have taleNames := names_ruleHeads ofText_tale
  rw [taleHeads] at taleNames
  constructor
  · have loads : (Grammar.ofText codaText : Except LoadError (Grammar Float)).isOk = true := by
      decide +kernel
    obtain ⟨g, loaded⟩ := exists_ok_of_isOk loads
    obtain ⟨apart, names, -⟩ := Grammar.ofText_joined ofText_tale loaded ""
    have heads : ruleHeads codaText = [("Coda", 1)] := by decide +kernel
    have places : (tale Float).rules.length = 2 := by decide +kernel
    rw [heads] at names
    rw [places, ← names, ← taleNames] at apart
    exact ⟨g, loaded, apart (by decide)⟩
  · have loads : (Grammar.ofText sequelText : Except LoadError (Grammar Float)).isOk = true := by
      decide +kernel
    obtain ⟨g, loaded⟩ := exists_ok_of_isOk loads
    obtain ⟨-, names, repeats⟩ := Grammar.ofText_joined ofText_tale loaded ""
    have heads : ruleHeads sequelText = [("Coda", 1), ("Tale", 2)] := by decide +kernel
    rw [heads] at names
    rw [heads, taleHeads, ← names, ← taleNames] at repeats
    obtain ⟨repeated, line, firstLine, found, isFirst, failed⟩ :=
      repeats "Tale" (by decide) (by decide)
    obtain ⟨rfl, rfl⟩ : repeated = "Tale" ∧ line = 2 := by simpa [eq_comm] using found
    obtain rfl : firstLine = 3 := by simpa using isFirst
    have lines : feeds taleText = 2 := by decide +kernel
    rw [lines] at failed
    exact failed

end WeightedGrammar
