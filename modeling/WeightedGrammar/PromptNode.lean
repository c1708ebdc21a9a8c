import WeightedGrammar.Generator
import WeightedGrammar.Grammar.Loader
import WeightedGrammar.Grammar.Printer
import WeightedGrammar.Number.Double
import WeightedGrammar.Random.Twister
import WeightedGrammar.Text.Json

/-!
The prompt node: a single seeded pass over rules given as text, for a host that asks for a prompt.
It answers with the prompt and with the states as JSON text.
-/

namespace WeightedGrammar

/-- What the host asks: rules, the names of start rules with commas between them, and a seed. -/
structure PromptNode where
  rules : String := ""
  startRules : String := ""
  seed : Int := 0

/-- The answer to the host: the prompt, the states as JSON text, and what there is to log. -/
structure PromptAnswer where
  prompt : String
  states : String
  loaded : String
  notes : Array Note
  deriving DecidableEq, Repr

/-- Why there is no answer: the rules cannot be loaded, or the pass was aborted. -/
inductive PromptError where
  | rules (e : LoadError)
  | pass (e : PassError)
  deriving DecidableEq, Repr

/-- Pieces of a row of characters between commas. -/
def splitCommas : List Char → List (List Char)
  | [] => [[]]
  | c :: cs =>
    match splitCommas cs with
    | [] => [[c]]
    | piece :: pieces => if c == ',' then [] :: piece :: pieces else (c :: piece) :: pieces

namespace PromptNode

/-- The names of the start rules, without blanks around them; empty ones do not count. -/
def startNames (node : PromptNode) : List String :=
  ((splitCommas node.startRules.toList).map Text.trimmed).filterMap fun piece =>
    if piece.isEmpty then none else some (String.ofList piece)

/-- The answer of the node, for a host of the given name, which names the grammar. -/
def answer (node : PromptNode) (host : String) : Except PromptError PromptAnswer :=
  match Grammar.ofText node.rules host with
  | .error e => .error (.rules e)
  | .ok grammar =>
    let generator : Generator Twister Float := ⟨grammar, .ofSeed node.seed, {}⟩
    -- The pass is guarded, so that it needs no room beside that of its guard.
    let (outcome, _) := generator.generateWithin 0 node.startNames
    match outcome.error with
    | some e => .error (.pass e)
    | none =>
      let record := outcome.record
      .ok ⟨record.text, Text.jsonObject record.states.entries, grammar.loadedMessage, record.notes⟩

end PromptNode

end WeightedGrammar
