import WeightedGrammar.Random.Twister

/-!
The random source of a generator: seeded, or a given row of draws.
-/

namespace WeightedGrammar

/-- Where a generator takes its draws from. -/
inductive Source where
  | seeded (state : Twister)
  | given (draws : Cycle Float)

inductive SourceError where
  | seedAndDraws
  deriving DecidableEq, Repr

namespace Source

def draw : Source → Float × Source
  | seeded state => (state.draw.1, seeded state.draw.2)
  | given draws => (draws.current, given draws.advance)

/-- The number of given draws taken so far. -/
def taken? : Source → Option Nat
  | seeded _ => none
  | given draws => some draws.taken

/-- The source for a seed or for a row of draws, not for both. With neither, the seed is zero. -/
def ofOptions (seed : Option Int) (draws : Option (Cycle Float)) : Except SourceError Source :=
  match seed, draws with
  | some _, some _ => .error .seedAndDraws
  | none, some row => .ok (given row)
  | some n, none => .ok (seeded (.ofSeed n))
  | none, none => .ok (seeded (.ofSeed 0))

end Source

def SourceError.message : SourceError → String
  | seedAndDraws => "pass either seed or rng, not both"

instance : Supply Source Float where
  draw := Source.draw

end WeightedGrammar
