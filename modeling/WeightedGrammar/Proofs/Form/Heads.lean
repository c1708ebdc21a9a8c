import WeightedGrammar.Proofs.Form.Loading

/-!
Where rules begin. The braces of a rule close each other, so the names outside of braces are those
of the rules (`heads_of_readRules`), and a row of tokens can go on behind the rules that it holds
(`heads_dropLast_append`). Rules are read up to the first one of which the name has been seen
(`readRules_duplicate`).
-/

namespace WeightedGrammar
variable {ω : Type}

/-- The names outside of braces with their lines, from a depth of braces on. -/
def heads (depth : Nat) : List Token → List (String × Nat)
  | [] => []
  | t :: ts =>
    match t.lexeme with
    | .openBrace => heads (depth + 1) ts
    | .closeBrace => heads (depth - 1) ts
    | .name rule => if depth = 0 then (rule, t.line) :: heads depth ts else heads depth ts
    | _ => heads depth ts

def Lexeme.isBrace : Lexeme → Bool
  | openBrace | closeBrace => true
  | _ => false

/-! ### Braces -/

theorem heads_inside {t : Token} (plain : t.lexeme.isBrace = false) (depth : Nat)
    (ts : List Token) : heads (depth + 1) (t :: ts) = heads (depth + 1) ts := by
  rw [heads]
  split
  · rename_i isOpen
    rw [isOpen] at plain
    cases plain
  · rename_i isClose
    rw [isClose] at plain
    cases plain
  · exact if_neg (Nat.succ_ne_zero depth)
  · rfl

theorem heads_inside_append {front : List Token} (plain : ∀ t ∈ front, t.lexeme.isBrace = false)
    (depth : Nat) (ts : List Token) : heads (depth + 1) (front ++ ts) = heads (depth + 1) ts := by
  induction front with
  | nil => rfl
  | cons t front ih =>
    rw [List.forall_mem_cons] at plain
    rw [List.cons_append, heads_inside plain.1, ih plain.2]

/-- The lexemes lead out of the braces that they stand in, and no further. -/
def Closes (ls : List Lexeme) : Prop :=
  ∀ ts : List Token, ts.map (·.lexeme) = ls → ∀ depth rest,
    heads (depth + 1) (ts ++ rest) = heads depth rest

theorem closes_closeBrace : Closes [.closeBrace] := by
  intro ts same depth rest
  obtain ⟨t, tail, rfl, isClose, same⟩ := List.map_eq_cons_iff.mp same
  obtain rfl := List.map_eq_nil_iff.mp same
  simp [heads, isClose]

theorem Closes.append {front ls : List Lexeme} (plain : ∀ l ∈ front, l.isBrace = false)
    (closes : Closes ls) : Closes (front ++ ls) := by
  intro ts same depth rest
  obtain ⟨first, tail, rfl, rfl, sameTail⟩ := List.map_eq_append_iff.mp same
  rw [List.forall_mem_map] at plain
  rw [List.append_assoc, heads_inside_append plain, closes tail sameTail]

theorem Closes.cons {l : Lexeme} {ls : List Lexeme} (plain : l.isBrace = false)
    (closes : Closes ls) : Closes (l :: ls) :=
  closes.append (List.forall_mem_singleton.mpr plain)

theorem Closes.braces {inner ls : List Lexeme} (closesInner : Closes inner) (closes : Closes ls) :
    Closes (.openBrace :: (inner ++ ls)) := by
  intro ts same depth rest
  obtain ⟨t, tail, rfl, isOpen, same⟩ := List.map_eq_cons_iff.mp same
  obtain ⟨inside, behind, rfl, sameInside, sameBehind⟩ := List.map_eq_append_iff.mp same
  have opened : heads (depth + 1) (t :: (inside ++ behind) ++ rest) =
      heads (depth + 1 + 1) (inside ++ (behind ++ rest)) := by
    simp [heads, isOpen]
  rw [opened, closesInner inside sameInside, closes behind sameBehind]

/-! ### Derivations -/

theorem ItemForm.isBrace_of_mem {f : ItemForm String} : ∀ l ∈ f.lexemes, l.isBrace = false := by
  intro l member
  rcases f.part_of_mem l member with part | isState
  · cases l <;> first | rfl | cases part
  · cases l <;> first | rfl | cases isState

theorem isBrace_of_expresses {level : Condition.Level} {ls : List Lexeme} {c : Condition}
    (h : Condition.Expresses .tree level ls c) : ∀ l ∈ ls, l.isBrace = false := by
  intro l member
  have part := isItemPart_of_expresses h l member
  cases l <;> first | rfl | cases part

theorem Block.closes {condition : Option Condition} {ls : List Lexeme} {body : BodyForm String}
    (h : Block condition ls body) : Closes ls := by
  induction h with
  | close => exact closes_closeBrace
  | lineBreak mark _ ih => exact ih.cons rfl
  | state s _ ih => exact ih.cons rfl
  | item _ _ _ _ _ ih => exact ih.append ItemForm.isBrace_of_mem

theorem GatedBody.closes {rule : String} {ls : List Lexeme} {body : BodyForm String}
    (h : GatedBody rule ls body) : Closes ls := by
  induction h with
  | close => exact closes_closeBrace
  | lineBreak mark _ ih => exact ih.cons rfl
  | state s _ ih => exact ih.cons rfl
  | block gate lines _ _ ih => exact (lines.closes.braces ih).append (isBrace_of_expresses gate)
  | item gate _ _ _ _ ih =>
    exact (ih.append ItemForm.isBrace_of_mem).append (isBrace_of_expresses gate)

/-! ### Heads of rules -/

theorem heads_ruleText {ls : List Lexeme} {form : RuleForm String} (h : RuleText ls form)
    {t : Token} {ts : List Token} (same : (t :: ts).map (·.lexeme) = ls) (rest : List Token) :
    heads 0 (t :: ts ++ rest) = (form.name, t.line) :: heads 0 rest := by
  cases h with
  | plain name lines =>
    obtain ⟨isName, same⟩ := List.cons.inj same
    obtain ⟨open', inner, rfl, isOpen, sameInner⟩ := List.map_eq_cons_iff.mp same
    have closed := lines.closes inner sameInner 0 rest
    simp [heads, isName, isOpen, closed]
  | gated name lines =>
    obtain ⟨isName, same⟩ := List.cons.inj same
    obtain ⟨mark, opening, rfl, isMark, same⟩ := List.map_eq_cons_iff.mp same
    obtain ⟨open', inner, rfl, isOpen, sameInner⟩ := List.map_eq_cons_iff.mp same
    have closed := lines.closes inner sameInner 0 rest
    simp [heads, isName, isMark, isOpen, closed]

theorem RulesText.ne_nil {ls : List Lexeme} {forms : List (RuleForm String)}
    (h : RulesText ls forms) : ls ≠ [] := by
  induction h with
  | endOfInput => simp
  | lineBreak => simp
  | rule _ _ ih => simp [ih]

theorem heads_lineBreak {mark : LineMark} {t : Token} (isBreak : t.lexeme = .lineBreak mark)
    (depth : Nat) (ts : List Token) : heads depth (t :: ts) = heads depth ts := by
  simp [heads, isBreak]

/-- Rules are followed by whatever takes the place of the end of input. -/
theorem heads_dropLast_append {ls : List Lexeme} {forms : List (RuleForm String)}
    (h : RulesText ls forms) (rest : List Token) :
    ∀ {ts : List Token}, ts.map (·.lexeme) = ls →
      heads 0 (ts.dropLast ++ rest) = heads 0 ts ++ heads 0 rest := by
  induction h with
  | endOfInput =>
    intro ts same
    obtain ⟨t, tail, rfl, isEnd, same⟩ := List.map_eq_cons_iff.mp same
    obtain rfl := List.map_eq_nil_iff.mp same
    simp [heads, isEnd]
  | lineBreak mark more ih =>
    intro ts same
    obtain ⟨t, tail, rfl, isBreak, sameTail⟩ := List.map_eq_cons_iff.mp same
    have filled : tail ≠ [] := by
      rintro rfl
      exact more.ne_nil sameTail.symm
    rw [List.dropLast_cons_of_ne_nil filled, List.cons_append, heads_lineBreak isBreak,
      heads_lineBreak isBreak, ih sameTail]
  | rule first more ih =>
    intro ts same
    obtain ⟨front, tail, rfl, sameFront, sameTail⟩ := List.map_eq_append_iff.mp same
    obtain ⟨t, front, rfl, -⟩ := exists_cons_of_ruleText first sameFront
    have filled : tail ≠ [] := by
      rintro rfl
      exact more.ne_nil sameTail.symm
    rw [List.dropLast_append_of_ne_nil filled, List.append_assoc, heads_ruleText first sameFront,
      heads_ruleText first sameFront, ih sameTail, List.cons_append]

/-! ### Names that have been seen -/

theorem lookup_eq_some_of_mem {l : List (String × Nat)} (distinct : (l.map (·.1)).Nodup)
    {rule : String} {line : Nat} (member : (rule, line) ∈ l) : l.lookup rule = some line := by
  induction l with
  | nil => cases member
  | cons head l ih =>
    rw [List.map_cons, List.nodup_cons] at distinct
    rcases List.mem_cons.mp member with rfl | later
    · rw [List.lookup_cons_self]
    · have other : (rule == head.1) = false := by
        rw [beq_eq_false_iff_ne]
        rintro rfl
        exact distinct.1 (List.mem_map.mpr ⟨_, later, rfl⟩)
      rw [List.lookup_cons, other]
      exact ih distinct.2 later

theorem exists_first_repeated {names : List String} {hs : List (String × Nat)} {rule : String}
    (isHead : rule ∈ hs.map (·.1)) (isName : rule ∈ names) :
    ∃ repeated line before after, hs.find? (names.contains ·.1) = some (repeated, line) ∧
      hs = before ++ (repeated, line) :: after ∧ repeated ∈ names ∧
      ∀ head ∈ before, head.1 ∉ names := by
  obtain ⟨known, isKnown, rfl⟩ := List.mem_map.mp isHead
  cases found : hs.find? (names.contains ·.1) with
  | none =>
    have absent := List.find?_eq_none.mp found known isKnown
    exact absurd (List.contains_iff_mem.mpr isName) absent
  | some first =>
    obtain ⟨repeats, before, after, split, fresh⟩ := List.find?_eq_some_iff_append.mp found
    refine ⟨first.1, first.2, before, after, rfl, split, List.contains_iff_mem.mp repeats, ?_⟩
    intro head isBefore repeated
    have notSeen := fresh head isBefore
    rw [List.contains_iff_mem.mpr repeated] at notSeen
    cases notSeen

section Reading
variable [Scalar ω]

theorem readRule_seen {seen : List (String × Nat)} {t : Token} {rule : String} {firstLine : Nat}
    (isName : t.lexeme = .name rule) (found : seen.lookup rule = some firstLine) (ts : List Token) :
    readRule (ω := ω) seen (t :: ts) = .error ⟨t.line, .duplicateRule rule firstLine⟩ := by
  obtain ⟨_, line⟩ := t
  obtain rfl := isName
  simp [readRule, found]

theorem line_of_readRule {seen : List (String × Nat)} {t : Token} {rule : String}
    {ts rest : List Token} {draft : RuleDraft ω} (isName : t.lexeme = .name rule)
    (h : readRule seen (t :: ts) = .ok (draft, rest)) : draft.line = t.line := by
  obtain ⟨_, line⟩ := t
  obtain rfl := isName
  simp only [readRule] at h
  split at h
  · cases h
  · split at h
    · obtain ⟨⟨body, behind⟩, -, same⟩ := map_eq_ok h
      cases same
      rfl
    · cases h

theorem readRules_seen {seen : List (String × Nat)} {t : Token} {rule : String} {firstLine : Nat}
    (isName : t.lexeme = .name rule) (found : seen.lookup rule = some firstLine) (ts : List Token) :
    readRules (ω := ω) seen (t :: ts) = .error ⟨t.line, .duplicateRule rule firstLine⟩ := by
  have failed := readRule_seen (ω := ω) isName found ts
  rw [readRules]
  simp only [isName]
  split
  · rename_i again
    rw [failed] at again
    rw [← Except.error.inj again]
  · rename_i read
    rw [failed] at read
    cases read

/-- The heads are the names and lines of the rules that are read. -/
theorem heads_of_readRules {ls : List Lexeme} {forms : List (RuleForm String)}
    (h : RulesText ls forms) (fits : ∀ r ∈ forms, r.body.WeightsFit ω) :
    ∀ {seen : List (String × Nat)} {ts : List Token} {drafts : List (RuleDraft ω)},
      ts.map (·.lexeme) = ls → readRules seen ts = .ok drafts →
      heads 0 ts = drafts.map fun draft => (draft.name, draft.line) := by
  induction h with
  | endOfInput =>
    intro seen ts drafts same read
    obtain ⟨t, tail, rfl, isEnd, same⟩ := List.map_eq_cons_iff.mp same
    obtain rfl := List.map_eq_nil_iff.mp same
    simp only [readRules, isEnd, Except.ok.injEq] at read
    subst read
    simp [heads, isEnd]
  | lineBreak mark _ ih =>
    intro seen ts drafts same read
    obtain ⟨t, tail, rfl, isBreak, sameTail⟩ := List.map_eq_cons_iff.mp same
    simp only [readRules, isBreak] at read
    rw [heads_lineBreak isBreak, ih fits sameTail read]
  | @rule _ _ form _ first _ ih =>
    intro seen ts drafts same read
    obtain ⟨front, tail, rfl, sameFront, sameTail⟩ := List.map_eq_append_iff.mp same
    obtain ⟨t, front, rfl, isName⟩ := exists_cons_of_ruleText first sameFront
    rw [List.forall_mem_cons] at fits
    have fresh : seen.lookup form.name = none := by
      cases found : seen.lookup form.name with
      | none => rfl
      | some firstLine =>
        rw [List.cons_append, readRules_seen isName found] at read
        cases read
    obtain ⟨draft, readFirst, written⟩ := readRule_of_ruleText first fits.1 fresh tail sameFront
    have sameName : draft.name = form.name := congrArg RuleForm.name written
    rw [readRules_rule first sameFront readFirst] at read
    obtain ⟨others, readOthers, rfl⟩ := map_eq_ok read
    rw [heads_ruleText first sameFront, List.map_cons, ih fits.2 sameTail readOthers, sameName,
      line_of_readRule isName readFirst]

theorem readRules_seen_of_heads {ls : List Lexeme} {forms : List (RuleForm String)}
    (h : RulesText ls forms) (fits : ∀ r ∈ forms, r.body.WeightsFit ω) {rule : String}
    {line firstLine : Nat} {after : List (String × Nat)} :
    ∀ {seen before : List (String × Nat)} {ts : List Token}, ts.map (·.lexeme) = ls →
      heads 0 ts = before ++ (rule, line) :: after → (before.map (·.1)).Nodup →
      (∀ head ∈ before, seen.lookup head.1 = none) →
      (before.reverse ++ seen).lookup rule = some firstLine →
      readRules (ω := ω) seen ts = .error ⟨line, .duplicateRule rule firstLine⟩ := by
  induction h with
  | endOfInput =>
    intro seen before ts same split
    obtain ⟨t, tail, rfl, isEnd, same⟩ := List.map_eq_cons_iff.mp same
    obtain rfl := List.map_eq_nil_iff.mp same
    simp [heads, isEnd] at split
  | lineBreak mark _ ih =>
    intro seen before ts same split distinct fresh found
    obtain ⟨t, tail, rfl, isBreak, sameTail⟩ := List.map_eq_cons_iff.mp same
    rw [heads_lineBreak isBreak] at split
    simp [readRules, isBreak, ih fits sameTail split distinct fresh found]
  | @rule _ _ form _ first _ ih =>
    intro seen before ts same split distinct fresh found
    obtain ⟨front, tail, rfl, sameFront, sameTail⟩ := List.map_eq_append_iff.mp same
    obtain ⟨t, front, rfl, isName⟩ := exists_cons_of_ruleText first sameFront
    rw [List.forall_mem_cons] at fits
    rw [heads_ruleText first sameFront] at split
    cases before with
    | nil =>
      obtain ⟨isHead, -⟩ := List.cons.inj split
      obtain ⟨rfl, rfl⟩ := Prod.mk.inj isHead
      exact readRules_seen isName found _
    | cons head before =>
      obtain ⟨rfl, splitRest⟩ := List.cons.inj split
      obtain ⟨freshHead, freshRest⟩ := List.forall_mem_cons.mp fresh
      obtain ⟨notAgain, distinctRest⟩ := List.nodup_cons.mp distinct
      obtain ⟨draft, read, written⟩ :=
        readRule_of_ruleText first fits.1 freshHead tail sameFront
      have sameName : draft.name = form.name := congrArg RuleForm.name written
      have freshOn : ∀ later ∈ before, ((form.name, t.line) :: seen).lookup later.1 = none := by
        intro later isLater
        refine lookup_cons_eq_none_iff.mpr ⟨?_, freshRest later isLater⟩
        intro same
        exact notAgain (List.mem_map.mpr ⟨later, isLater, same.symm⟩)
      rw [readRules_rule first sameFront read, sameName, line_of_readRule isName read,
        ih fits.2 sameTail splitRest distinctRest freshOn (by simpa using found)]
      rfl

/-- Rules are read as far as their names differ. The next one, if it has the name of one of them, is
reported with the lines of both. -/
theorem readRules_duplicate {ls : List Lexeme} {forms : List (RuleForm String)}
    (h : RulesText ls forms) (fits : ∀ r ∈ forms, r.body.WeightsFit ω) {ts : List Token}
    (same : ts.map (·.lexeme) = ls) {before after : List (String × Nat)} {rule : String}
    {line firstLine : Nat} (split : heads 0 ts = before ++ (rule, line) :: after)
    (distinct : (before.map (·.1)).Nodup) (repeated : (rule, firstLine) ∈ before) :
    readRules (ω := ω) [] ts = .error ⟨line, .duplicateRule rule firstLine⟩ := by
  have found : (before.reverse ++ []).lookup rule = some firstLine := by
    refine lookup_eq_some_of_mem ?_ (by simpa using repeated)
    rw [List.append_nil, List.map_reverse]
    exact (List.reverse_perm _).nodup_iff.mpr distinct
  exact readRules_seen_of_heads h fits same split distinct (fun _ _ => rfl) found

/-- Behind rules with the heads `hs`, further ones are read up to the first of them that repeats a
name. -/
theorem readRules_repeated {forms : List (RuleForm String)} {ts : List Token}
    (h : RulesText (ts.map (·.lexeme)) forms) (fits : ∀ r ∈ forms, r.body.WeightsFit ω)
    {hs more : List (String × Nat)} {lines : Nat}
    (split : heads 0 ts = hs ++ more.map fun head => (head.1, head.2 + lines))
    (distinct : (hs.map (·.1)).Nodup) (distinctMore : (more.map (·.1)).Nodup) {rule : String}
    (isMore : rule ∈ more.map (·.1)) (isSeen : rule ∈ hs.map (·.1)) :
    ∃ repeated line firstLine, more.find? ((hs.map (·.1)).contains ·.1) = some (repeated, line) ∧
      (repeated, firstLine) ∈ hs ∧
      readRules (ω := ω) [] ts = .error ⟨line + lines, .duplicateRule repeated firstLine⟩ := by
  obtain ⟨repeated, line, before, after, found, rfl, isName, fresh⟩ :=
    exists_first_repeated isMore isSeen
  obtain ⟨⟨_, firstLine⟩, isHead, rfl⟩ := List.mem_map.mp isName
  refine ⟨_, line, firstLine, found, isHead, ?_⟩
  rw [List.map_append, List.map_cons, ← List.append_assoc] at split
  rw [List.map_append] at distinctMore
  refine readRules_duplicate h fits rfl split ?_ (List.mem_append_left _ isHead)
  rw [List.map_append, List.map_map, List.nodup_append]
  refine ⟨distinct, (List.nodup_append.mp distinctMore).1, ?_⟩
  rintro name isFirst _ isLater rfl
  obtain ⟨head, isBefore, rfl⟩ := List.mem_map.mp isLater
  exact fresh head isBefore isFirst

end Reading

end WeightedGrammar
