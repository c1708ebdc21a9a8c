/-!
Registers: maps from names to values that keep the order in which the names were first set. Setting
a name again replaces its value in place (`entries_set`, `get?_set`).
-/

namespace WeightedGrammar

/-- Names with their values, in the order of first setting. -/
structure Register (ν : Type) where
  entries : List (String × ν) := []
  deriving DecidableEq, Repr

namespace Register
variable {ν : Type}

def get? (r : Register ν) (name : String) : Option ν := r.entries.lookup name

def contains (r : Register ν) (name : String) : Bool := r.entries.any (·.1 == name)

/-- The names, in the order of first setting. -/
def names (r : Register ν) : List String := r.entries.map (·.1)

def values (r : Register ν) : List ν := r.entries.map (·.2)

/-- Entries with one of them replaced, or appended if its name is new. -/
def put (name : String) (value : ν) : List (String × ν) → List (String × ν)
  | [] => [(name, value)]
  | e :: es => if e.1 = name then (name, value) :: es else e :: put name value es

def set (r : Register ν) (name : String) (value : ν) : Register ν := ⟨put name value r.entries⟩

@[simp] theorem entries_set (r : Register ν) (name : String) (value : ν) :
    (r.set name value).entries = put name value r.entries := rfl

theorem lookup_put (name other : String) (value : ν) (es : List (String × ν)) :
    (put name value es).lookup other = if other = name then some value else es.lookup other := by
  induction es with
  | nil =>
    by_cases same : other = name
    · simp [put, same]
    · simp [put, List.lookup_cons, beq_false_of_ne same, same]
  | cons e es ih =>
    obtain ⟨key, old⟩ := e
    by_cases here : key = name
    · subst here
      by_cases same : other = key
      · simp [put, same]
      · simp [put, List.lookup_cons, beq_false_of_ne same, same]
    · simp only [put, here, if_false, List.lookup_cons, ih]
      by_cases same : other = key
      · subst same
        simp [here]
      · simp [beq_false_of_ne same]

theorem get?_set (r : Register ν) (name other : String) (value : ν) :
    (r.set name value).get? other = if other = name then some value else r.get? other :=
  lookup_put name other value r.entries

theorem any_put (name other : String) (value : ν) (es : List (String × ν)) :
    (put name value es).any (·.1 == other) = (name == other || es.any (·.1 == other)) := by
  induction es with
  | nil => simp [put]
  | cons e es ih =>
    by_cases here : e.1 = name
    · simp only [put, here, if_true, List.any_cons]
      cases name == other <;> simp
    · simp only [put, here, if_false, List.any_cons, ih]
      cases e.1 == other <;> cases name == other <;> simp

theorem contains_set (r : Register ν) (name other : String) (value : ν) :
    (r.set name value).contains other = (name == other || r.contains other) :=
  any_put name other value r.entries

end Register

end WeightedGrammar
