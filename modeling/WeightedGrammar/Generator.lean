import WeightedGrammar.Pass.Expansion

/-!
Generators: a grammar with a supply of draws. Every pass starts with an empty record and goes on
with the draws that the last one left.
-/

namespace WeightedGrammar

/-- A grammar, what passes over it draw from, and how they are run. -/
structure Generator (σ ω : Type) where
  grammar : Grammar ω
  supply : σ
  settings : Settings := {}

/-- The outcome of a pass: its record, up to the error that aborted it if there is one. -/
structure Outcome where
  record : Record
  error : Option PassError
  deriving DecidableEq, Repr

/-- The room of a program that does not name one. Passes have no such bound: with a guard any room
gives the same, and without one what a pass does is what it does in every room that is large
enough. -/
def ampleRoom : Nat := 10000

namespace Generator
variable {ω σ : Type} [Scalar ω] [Supply σ ω]

/-- One pass from the named rules, in order, or from the top rule; and the generator after it. Rules
may open so many levels if there is no guard. -/
def generateWithin (gen : Generator σ ω) (unguarded : Nat) (start : List String) :
    Outcome × Generator σ ω :=
  match (gen.grammar.run gen.settings (gen.settings.room unguarded) start).run ⟨{}, gen.supply⟩ with
  | .ok _ after => (⟨after.record, none⟩, { gen with supply := after.supply })
  | .error e after => (⟨after.record, some e⟩, { gen with supply := after.supply })

def generate (gen : Generator σ ω) (start : List String) (unguarded : Nat := ampleRoom) :
    Outcome × Generator σ ω :=
  gen.generateWithin unguarded start

/-- A number of passes from the same start, as far as none of them fails. -/
def sample (gen : Generator σ ω) (start : List String) (count : Nat)
    (unguarded : Nat := ampleRoom) : Except PassError (List Record) :=
  match count with
  | 0 => .ok []
  | count + 1 =>
    let (outcome, after) := gen.generateWithin unguarded start
    match outcome.error with
    | some e => .error e
    | none => (after.sample start count unguarded).map (outcome.record :: ·)

end Generator

end WeightedGrammar
