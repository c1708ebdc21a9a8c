import WeightedGrammar.Proofs.Token.Written

/-!
Leaves of a grammar by themselves. A literal or a state expression that is written is read as the
one token that it stands for exactly if it can be: if its text is on one line and lacks one of the
quotation marks, and its key is a word (`Token.ofText_leaf_iff`).
-/

namespace WeightedGrammar
open Text Lexeme

theorem stops_nil (p : Char → Bool) : Stops p [] := fun _ first => absurd first (by simp)

/-! ### One token -/

/-- The text is read as the lexeme, and nothing else. -/
def Lexeme.IsAllOf (l : Lexeme) (text : String) : Prop :=
  Token.ofText text = .ok [⟨l, 1⟩, ⟨.endOfInput, 1⟩]

theorem Lexeme.IsAllOf.isWritable {l : Lexeme} {text : String} (h : l.IsAllOf text) :
    l.IsWritable :=
  isWritable_of_tokensFrom h ⟨l, 1⟩ List.mem_cons_self

/-- What a scan finds without leaving anything is all of the text, if it does not end the line. -/
theorem isAllOf_of_scan {text : String} {c : Char} {cs : List Char} {l : Lexeme}
    (same : text.toList = c :: cs) (scanned : scan c cs = .found l [])
    (inLine : l.lineAfter 1 = 1) : l.IsAllOf text := by
  rw [Lexeme.IsAllOf, Token.ofText, same, tokensFrom_of_found 1 scanned, inLine, Token.tokensFrom]
  rfl

/-! ### Leaves -/

theorem isAllOf_literal {text : String} (enclosable : IsEnclosable text) :
    (Lexeme.literal text).IsAllOf (Element.literal text).toText := by
  obtain ⟨mark, quote, noMark, same⟩ := enquote_cases enclosable
  have scanned := scan_of_isQuote quote (takeQuoted?_append [] noMark enclosable.1)
  rw [String.ofList_toList] at scanned
  exact isAllOf_of_scan same scanned rfl

theorem isAllOf_state {s : StateExpr} (isKey : IsStateKey s.key)
    (enclosable : ∀ value ∈ s.value, IsEnclosable value) :
    (Lexeme.state s.key s.value).IsAllOf s.toText := by
  obtain ⟨key, value⟩ := s
  cases value with
  | none =>
    have written : (StateExpr.mk key none).toText.toList = '=' :: key.toList := by
      simp [StateExpr.toText]
    have scanned : scanState (key.toList ++ []) = .found (.state key none) [] :=
      scanState_key isKey (stops_nil isWord) (by simp)
    rw [List.append_nil] at scanned
    exact isAllOf_of_scan written scanned rfl
  | some value =>
    have written : (StateExpr.mk key (some value)).toText.toList =
        '=' :: (key.toList ++ '=' :: (valueText value).toList) := by
      simp [StateExpr.toText, valueText]
    have scanned : scanState (key.toList ++ '=' :: ((valueText value).toList ++ [])) =
        .found (.state key (some value)) [] :=
      scanState_value isKey (enclosable value rfl) (stops_nil isValueChar)
    rw [List.append_nil] at scanned
    exact isAllOf_of_scan written scanned rfl

/-- A literal that is written is read as itself, and as nothing else, if and only if it has no line
feed and not both quotation marks. The same holds of the value of a state, if it has one, whose key
must be made of word characters. -/
theorem Token.ofText_leaf_iff :
    (∀ text : String, (Lexeme.literal text).IsAllOf (Element.literal text).toText ↔
      '\n' ∉ text.toList ∧ ¬('\'' ∈ text.toList ∧ '"' ∈ text.toList)) ∧
    ∀ s : StateExpr, (Lexeme.state s.key s.value).IsAllOf s.toText ↔
      (s.key ≠ "" ∧ ∀ c ∈ s.key.toList, isWord c = true) ∧
        ∀ value ∈ s.value, '\n' ∉ value.toList ∧ ¬('\'' ∈ value.toList ∧ '"' ∈ value.toList) := by
  have enclosable_iff : ∀ text : String, IsEnclosable text ↔
      '\n' ∉ text.toList ∧ ¬('\'' ∈ text.toList ∧ '"' ∈ text.toList) := by
    intro text
    rw [IsEnclosable, not_and]
  have isStateKey_iff : ∀ key : String, IsStateKey key ↔
      key ≠ "" ∧ ∀ c ∈ key.toList, isWord c = true := by
    intro key
    rw [IsStateKey, Ne, String.toList_eq_nil_iff]
  constructor
  · intro text
    rw [← enclosable_iff]
    exact ⟨Lexeme.IsAllOf.isWritable, isAllOf_literal⟩
  · intro s
    simp only [← enclosable_iff, ← isStateKey_iff]
    exact ⟨Lexeme.IsAllOf.isWritable, fun ⟨isKey, enclosable⟩ => isAllOf_state isKey enclosable⟩

end WeightedGrammar
