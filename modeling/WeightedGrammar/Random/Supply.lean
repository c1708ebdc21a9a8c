/-!
Supplies of random draws. A `Supply` hands out one number at a time and the supply that is left.
`Cycle` repeats a fixed row of numbers.
-/

namespace WeightedGrammar

/-- A supply of draws: the next draw, and what is left. -/
class Supply (σ : Type) (ω : outParam Type) where
  draw : σ → ω × σ

/-- A row of numbers that starts over at its end, with the count of those taken so far. -/
structure Cycle (ω : Type) where
  values : Array ω
  nonempty : 0 < values.size
  taken : Nat := 0

namespace Cycle
variable {ω : Type}

/-- The cycle through a list, if it has an element. -/
def ofList? (values : List ω) : Option (Cycle ω) :=
  if h : 0 < values.toArray.size then some ⟨values.toArray, h, 0⟩ else none

def current (c : Cycle ω) : ω :=
  have bound : c.taken % c.values.size < c.values.size := Nat.mod_lt _ c.nonempty
  c.values[c.taken % c.values.size]

def advance (c : Cycle ω) : Cycle ω := { c with taken := c.taken + 1 }

end Cycle

instance {ω : Type} : Supply (Cycle ω) ω where
  draw c := (c.current, c.advance)

end WeightedGrammar
