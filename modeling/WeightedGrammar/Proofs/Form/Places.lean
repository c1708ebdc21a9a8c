import Mathlib.Data.List.Chain
import WeightedGrammar.Proofs.Form.Heads

/-!
Where items stand. The tokens of an item that is read stand together, behind its condition or in the
block that the condition opens, and the item holds their lines (`standsIn_of_readRules`). From a
token to a later one the lines go up by the feeds in between (`line_of_follows`).
-/

namespace WeightedGrammar
variable {ω : Type}

/-! ### Lines of tokens -/

/-- Each token stands on the line that the one in front of it leads to. -/
def Follows (ts : List Token) : Prop :=
  ts.IsChain fun t t' => t'.line = t.lexeme.lineAfter t.line

def lineFeeds (ts : List Token) : Nat := ts.countP (·.lexeme == .lineBreak .feed)

theorem lineFeeds_append (front back : List Token) :
    lineFeeds (front ++ back) = lineFeeds front + lineFeeds back := List.countP_append

theorem lineAfter_eq (t : Token) : t.lexeme.lineAfter t.line = t.line + lineFeeds [t] := by
  unfold Lexeme.lineAfter lineFeeds
  split
  · rename_i isFeed
    simp [isFeed]
  · rename_i notFeed
    have other : t.lexeme ≠ .lineBreak .feed := notFeed
    simp [other]

theorem follows_of_tokensFrom {line : Nat} {cs : List Char} {ts : List Token}
    (h : Token.tokensFrom line cs = .ok ts) : (∀ t ∈ ts.head?, t.line = line) ∧ Follows ts := by
  fun_induction Token.tokensFrom line cs generalizing ts with
  | case1 line =>
    cases h
    exact ⟨by simp, .singleton _⟩
  | case2 => cases h
  | case3 line c cs rest scanned ih => exact ih h
  | case4 line c cs l rest scanned ih =>
    obtain ⟨more, read, rfl⟩ := map_eq_ok h
    obtain ⟨first, follows⟩ := ih read
    exact ⟨by simp, List.isChain_cons.mpr ⟨first, follows⟩⟩

theorem line_of_follows {t t' : Token} {mid : List Token} (follows : Follows (t :: (mid ++ [t']))) :
    t'.line = t.line + lineFeeds (t :: mid) := by
  induction mid generalizing t with
  | nil =>
    have next := (List.isChain_cons_cons.mp follows).1
    rw [next, lineAfter_eq]
  | cons u mid ih =>
    obtain ⟨next, behind⟩ := List.isChain_cons_cons.mp follows
    have apart : lineFeeds (t :: u :: mid) = lineFeeds [t] + lineFeeds (u :: mid) :=
      lineFeeds_append [t] (u :: mid)
    rw [ih behind, next, lineAfter_eq, apart, Nat.add_assoc]

theorem lineFeeds_eq_zero {ts : List Token} (noFeed : .lineBreak .feed ∉ ts.map (·.lexeme)) :
    lineFeeds ts = 0 := by
  rw [lineFeeds, List.countP_eq_zero]
  intro t member isFeed
  exact noFeed (List.mem_map.mpr ⟨t, member, beq_iff_eq.mp isFeed⟩)

/-! ### Items -/

def Token.mention? (t : Token) : Option Mention :=
  match t.lexeme with
  | .name rule => some (.rule rule t.line)
  | .literal text => some (.literal text)
  | _ => none

def IsItem (own : List Token) : Prop :=
  ∃ f : ItemForm String, f.isFilled = true ∧ own.map (·.lexeme) = f.lexemes

/-- The item mentions what the tokens do, and has the line of the first one. -/
structure ItemDraft.IsOf (d : ItemDraft ω) (own : List Token) : Prop where
  mentions : own.filterMap Token.mention? = d.mentions
  line : (Token.front own).line = d.line

theorem IsItem.ne_nil {own : List Token} (isItem : IsItem own) : own ≠ [] := by
  obtain ⟨f, filled, lexemes⟩ := isItem
  rintro rfl
  exact ItemForm.lexemes_ne_nil filled lexemes.symm

theorem IsItem.not_closeBrace {own : List Token} (isItem : IsItem own) :
    ∀ t ∈ own, t.lexeme ≠ .closeBrace := by
  obtain ⟨f, -, lexemes⟩ := isItem
  intro t member isClose
  have plain := ItemForm.isBrace_of_mem t.lexeme (lexemes ▸ List.mem_map_of_mem member)
  rw [isClose] at plain
  cases plain

theorem filterMap_mention_of_takeMentions {ts rest : List Token} {mentions : List Mention}
    (h : takeMentions ts = (mentions, rest)) :
    ∃ taken, ts = taken ++ rest ∧ taken.filterMap Token.mention? = mentions := by
  fun_induction takeMentions ts generalizing mentions with
  | case1 name line ts mentions' rest' taken ih =>
    simp only [Prod.mk.injEq] at h
    obtain ⟨rfl, rfl⟩ := h
    obtain ⟨more, same, mentioned⟩ := ih taken
    exact ⟨⟨.name name, line⟩ :: more, by simp [same], by simp [Token.mention?, mentioned]⟩
  | case2 text line ts mentions' rest' taken ih =>
    simp only [Prod.mk.injEq] at h
    obtain ⟨rfl, rfl⟩ := h
    obtain ⟨more, same, mentioned⟩ := ih taken
    exact ⟨⟨.literal text, line⟩ :: more, by simp [same], by simp [Token.mention?, mentioned]⟩
  | case3 =>
    simp only [Prod.mk.injEq] at h
    obtain ⟨rfl, rfl⟩ := h
    exact ⟨[], rfl, rfl⟩

theorem filterMap_mention_eq_nil {ts : List Token}
    (none : ∀ l ∈ ts.map (·.lexeme), l.isMention = false) : ts.filterMap Token.mention? = [] := by
  rw [List.filterMap_eq_nil_iff]
  intro t member
  have notMention := none _ (List.mem_map_of_mem member)
  unfold Token.mention?
  split
  · rename_i isName
    rw [isName] at notMention
    cases notMention
  · rename_i isLiteral
    rw [isLiteral] at notMention
    cases notMention
  · rfl

variable [Scalar ω]

theorem isOf_of_readItem {rule : String} {condition : Option Condition} {ts rest : List Token}
    {item : ItemDraft ω} (h : readItem rule condition ts = .ok (item, rest)) :
    ∃ own, ts = own ++ rest ∧ IsItem own ∧ item.IsOf own ∧ item.condition = condition := by
  obtain ⟨own, f, split, lexemes, -, filled, -⟩ := readItem_taken h
  obtain ⟨w, afterWeight, mentions, afterMentions, states, weighed, mentioned, stated, rfl, -⟩ :=
    readItem_eq_ok_iff.mp h
  obtain ⟨ws, weight, rfl, weightLexemes, -⟩ := readWeight_taken weighed
  obtain ⟨ms, rfl, mentionsTaken⟩ := filterMap_mention_of_takeMentions mentioned
  obtain ⟨ss, rfl, stateLexemes⟩ := takeStates_taken stated
  obtain rfl : ws ++ (ms ++ ss) = own := by simpa [← List.append_assoc] using split
  have isItem : IsItem _ := ⟨f, filled, lexemes⟩
  refine ⟨_, split, isItem, ⟨?_, ?_⟩, rfl⟩
  · have noWeight : ws.filterMap Token.mention? = [] := by
      refine filterMap_mention_eq_nil ?_
      rw [weightLexemes]
      cases weight <;> simp [Lexeme.isMention]
    have noState : ss.filterMap Token.mention? = [] := by
      refine filterMap_mention_eq_nil ?_
      rw [stateLexemes]
      simp [StateExpr.lexeme, Lexeme.isMention]
    simp [noWeight, noState, mentionsTaken]
  · cases first : ws ++ (ms ++ ss) with
    | nil => exact absurd first isItem.ne_nil
    | cons t own =>
      rw [← List.append_assoc ms, ← List.append_assoc, first]
      rfl

/-! ### Items of a body -/

/-- The item stands behind tokens that do not close the block. -/
def ItemDraft.InBlock (d : ItemDraft ω) (condition : Option Condition) (ts : List Token) : Prop :=
  ∃ between own, between ++ own <+: ts ∧ IsItem own ∧ d.IsOf own ∧ d.condition = condition ∧
    ∀ t ∈ between, t.lexeme ≠ .closeBrace

omit [Scalar ω] in
theorem ItemDraft.InBlock.behind {d : ItemDraft ω} {condition : Option Condition}
    {front ts : List Token} (inside : d.InBlock condition ts)
    (open' : ∀ t ∈ front, t.lexeme ≠ .closeBrace) : d.InBlock condition (front ++ ts) := by
  obtain ⟨between, own, isPrefix, isItem, isOf, under, plain⟩ := inside
  refine ⟨front ++ between, own, ?_, isItem, isOf, under, List.forall_mem_append.mpr ⟨open', plain⟩⟩
  rw [List.append_assoc]
  exact (List.prefix_append_right_inj front).mpr isPrefix

omit [Scalar ω] in
theorem ItemDraft.InBlock.cons {d : ItemDraft ω} {condition : Option Condition} {t : Token}
    {ts : List Token} (inside : d.InBlock condition ts) (open' : t.lexeme ≠ .closeBrace) :
    d.InBlock condition (t :: ts) := by
  show d.InBlock condition ([t] ++ ts)
  exact inside.behind (List.forall_mem_singleton.mpr open')

theorem inBlock_of_readBlock {rule : String} {ruleLine : Nat} {condition : Option Condition}
    {ts rest : List Token} {body : BodyDraft ω}
    (h : readBlock rule ruleLine condition ts = .ok (body, rest)) :
    ∀ d ∈ body.items, d.InBlock condition ts := by
  fun_induction readBlock (ω := ω) rule ruleLine condition ts generalizing body rest with
  | case1 => cases h
  | case2 t tail mark isBreak ih =>
    exact fun d isItem => (ih h d isItem).cons (by simp [isBreak])
  | case3 =>
    cases h
    simp
  | case4 => cases h
  | case5 t tail key value isState ih =>
    obtain ⟨⟨body', behind⟩, read, same⟩ := map_eq_ok h
    cases same
    exact fun d isItem => (ih read d isItem).cons (by simp [isState])
  | case6 => cases h
  | case7 => cases h
  | case8 t tail item afterItem isItem _ _ _ _ _ ih =>
    obtain ⟨⟨body', behind⟩, read, same⟩ := map_eq_ok h
    cases same
    obtain ⟨own, split, whole, isOf, under⟩ := isOf_of_readItem isItem
    rw [split]
    refine List.forall_mem_cons.mpr ⟨?_, fun d isLater => ?_⟩
    · exact ⟨[], own, List.prefix_append own afterItem, whole, isOf, under, by simp⟩
    · exact (ih read d isLater).behind whole.not_closeBrace

/-! ### Items behind conditions -/

/-- A block opens here, and it goes on. -/
def OpensBlock (between : List Token) : Prop :=
  ∃ brace inside, between = brace :: inside ∧ brace.lexeme = .openBrace ∧
    ∀ t ∈ inside, t.lexeme ≠ .closeBrace

/-- The tokens of an item, behind those of its condition or in the block that it opens. -/
structure IsSite (condition : Option Condition) (gate between own : List Token) : Prop where
  gate : match condition with
    | none => gate = []
    | some c => Condition.Expresses .tree .disjunction (gate.map (·.lexeme)) c
  between : between = [] ∨ OpensBlock between
  item : IsItem own

def ItemDraft.StandsIn (d : ItemDraft ω) (ts : List Token) : Prop :=
  ∃ gate between own, gate ++ (between ++ own) <:+: ts ∧ IsSite d.condition gate between own ∧
    d.IsOf own

omit [Scalar ω] in
theorem ItemDraft.StandsIn.mono {d : ItemDraft ω} {ts ts' : List Token} (stands : d.StandsIn ts)
    (part : ts <:+: ts') : d.StandsIn ts' := by
  obtain ⟨gate, between, own, isInfix, site⟩ := stands
  exact ⟨gate, between, own, isInfix.trans part, site⟩

omit [Scalar ω] in
theorem ItemDraft.InBlock.standsIn {d : ItemDraft ω} {ts : List Token}
    (inside : d.InBlock none ts) : d.StandsIn ts := by
  obtain ⟨between, own, isPrefix, isItem, isOf, under, -⟩ := inside
  refine ⟨[], [], own, ?_, ⟨by rw [under], .inl rfl, isItem⟩, isOf⟩
  exact (List.suffix_append between own).isInfix.trans isPrefix.isInfix

omit [Scalar ω] in
theorem ItemDraft.IsOf.withStates {d : ItemDraft ω} {own : List Token} (isOf : d.IsOf own)
    (states : List StateExpr) : (d.withStates states).IsOf own :=
  ⟨isOf.mentions, isOf.line⟩

theorem isSite_of_readGated {rule : String} {ruleLine line : Nat} {c : Condition}
    {ts rest : List Token} {items : List (ItemDraft ω)} {gate : List Token}
    (h : readGated rule ruleLine line c ts = .ok (items, rest))
    (isGate : Condition.Expresses .tree .disjunction (gate.map (·.lexeme)) c) :
    ∀ d ∈ items, ∃ between own, between ++ own <+: ts ∧
      IsSite d.condition gate between own ∧ d.IsOf own := by
  rcases readGated_cases h with
    ⟨brace, more, block, rfl, isOpen, readLines, -, rfl⟩ | ⟨item, readItem, rfl⟩
  · rw [List.forall_mem_map]
    intro d member
    obtain ⟨inside, own, isPrefix, isItem, isOf, under, plain⟩ :=
      inBlock_of_readBlock readLines d member
    have opens : OpensBlock (brace :: inside) := ⟨brace, inside, rfl, isOpen, plain⟩
    refine ⟨brace :: inside, own, (List.prefix_cons_inj brace).mpr isPrefix,
      ⟨?_, .inr opens, isItem⟩, isOf.withStates _⟩
    rwa [show (d.withStates _).condition = some c from under]
  · obtain ⟨own, rfl, isItem, isOf, under⟩ := isOf_of_readItem readItem
    refine List.forall_mem_singleton.mpr
      ⟨[], own, List.prefix_append own rest, ⟨?_, .inl rfl, isItem⟩, isOf⟩
    rwa [under]

theorem suffix_of_readGated {rule : String} {ruleLine line : Nat} {c : Condition}
    {ts rest : List Token} {items : List (ItemDraft ω)}
    (h : readGated rule ruleLine line c ts = .ok (items, rest)) : rest <:+ ts := by
  rcases readGated_cases h with ⟨brace, more, block, rfl, -, readLines, -⟩ | ⟨item, readItem, -⟩
  · obtain ⟨taken, form, rfl, -⟩ := block_of_readBlock readLines
    exact (List.suffix_append taken rest).trans (List.suffix_cons ..)
  · obtain ⟨own, rfl, -⟩ := isOf_of_readItem readItem
    exact List.suffix_append own rest

theorem standsIn_of_readGatedBody {rule : String} {ruleLine : Nat} {ts rest : List Token}
    {body : BodyDraft ω} (h : readGatedBody rule ruleLine ts = .ok (body, rest)) :
    ∀ d ∈ body.items, d.StandsIn ts := by
  fun_induction readGatedBody (ω := ω) rule ruleLine ts generalizing body rest with
  | case1 => cases h
  | case2 t tail mark isBreak ih =>
    exact fun d isItem => (ih h d isItem).mono (List.suffix_cons t tail).isInfix
  | case3 =>
    cases h
    simp
  | case4 => cases h
  | case5 t tail key value isState ih =>
    obtain ⟨⟨body', behind⟩, read, same⟩ := map_eq_ok h
    cases same
    exact fun d isItem => (ih read d isItem).mono (List.suffix_cons t tail).isInfix
  | case6 => cases h
  | case7 => cases h
  | case8 => cases h
  | case9 t tail c afterCondition isCondition items afterItems gated _ _ _ _ _ _ ih =>
    obtain ⟨⟨body', behind⟩, read, same⟩ := map_eq_ok h
    cases same
    obtain ⟨gate, split, derives⟩ := expresses_of_read isCondition
    rw [split]
    refine List.forall_mem_append.mpr ⟨fun d isItem => ?_, fun d isLater => ?_⟩
    · obtain ⟨between, own, isPrefix, site⟩ := isSite_of_readGated gated derives d isItem
      exact ⟨gate, between, own, ((List.prefix_append_right_inj gate).mpr isPrefix).isInfix, site⟩
    · have left := (suffix_of_readGated gated).trans (List.suffix_append gate afterCondition)
      exact (ih read d isLater).mono left.isInfix
  | case10 => cases h

/-! ### Items of a text -/

theorem standsIn_of_readBody {rule : String} {ruleLine : Nat} {conditional : Bool}
    {ts rest : List Token} {body : BodyDraft ω}
    (h : readBody rule ruleLine conditional ts = .ok (body, rest)) :
    ∀ d ∈ body.items, d.StandsIn ts := by
  unfold readBody at h
  split at h
  · exact standsIn_of_readGatedBody h
  · exact fun d isItem => (inBlock_of_readBlock h d isItem).standsIn

theorem standsIn_of_readRule {seen : List (String × Nat)} {ts rest : List Token}
    {draft : RuleDraft ω} (h : readRule seen ts = .ok (draft, rest)) :
    ∀ d ∈ draft.body.items, d.StandsIn ts := by
  unfold readRule at h
  split at h
  · rename_i rule line tail
    split at h
    · cases h
    · dsimp only at h
      split at h
      · obtain ⟨⟨body, behind⟩, read, same⟩ := map_eq_ok h
        cases same
        have inside : (takeQuestion tail).2.tail <:+ ⟨.name rule, line⟩ :: tail := by
          refine (List.tail_suffix _).trans ?_
          rcases takeQuestion_cases tail with ⟨mark, more, rfl, -, taken⟩ | taken
          · rw [taken]
            exact (List.suffix_cons mark more).trans (List.suffix_cons ..)
          · rw [taken]
            exact List.suffix_cons ..
        exact fun d isItem => (standsIn_of_readBody read d isItem).mono inside.isInfix
      · cases h
  · cases h

theorem standsIn_of_readRules {seen : List (String × Nat)} {ts : List Token}
    {drafts : List (RuleDraft ω)} (h : readRules seen ts = .ok drafts) :
    ∀ draft ∈ drafts, ∀ d ∈ draft.body.items, d.StandsIn ts := by
  fun_induction readRules (ω := ω) seen ts generalizing drafts with
  | case1 =>
    cases h
    simp
  | case2 seen t tail mark isBreak ih =>
    intro draft isDraft d isItem
    exact (ih h draft isDraft d isItem).mono (List.suffix_cons t tail).isInfix
  | case3 =>
    cases h
    simp
  | case4 => cases h
  | case5 seen t tail draft afterRule isRule _ _ ih =>
    obtain ⟨drafts, read, rfl⟩ := map_eq_ok h
    obtain ⟨-, taken, -, split, -⟩ := ruleText_of_readRule isRule
    refine List.forall_mem_cons.mpr ⟨standsIn_of_readRule isRule, fun later isLater d isItem => ?_⟩
    rw [split]
    exact (ih read later isLater d isItem).mono (List.suffix_append taken afterRule).isInfix

end WeightedGrammar
