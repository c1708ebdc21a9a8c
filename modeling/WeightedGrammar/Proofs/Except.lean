import Mathlib.Control.Monad.Basic

/-!
Runs that may fail: what it says of their steps that they succeed, or that they do not.
-/

namespace WeightedGrammar

theorem exists_ok_of_isOk {ε α : Type} {m : Except ε α} (h : m.isOk = true) : ∃ a, m = .ok a := by
  cases m with
  | error e => cases h
  | ok a => exact ⟨a, rfl⟩

theorem eq_ok_getD_of_isOk {ε α : Type} {m : Except ε α} (h : m.isOk = true) (fallback : α) :
    m = .ok (m.toOption.getD fallback) := by
  obtain ⟨a, rfl⟩ := exists_ok_of_isOk h
  rfl

theorem map_eq_error {ε α β : Type} {f : α → β} {m : Except ε α} {e : ε}
    (h : m.map f = .error e) : m = .error e := by
  cases m with
  | error e' => exact congrArg _ (Except.error.inj h)
  | ok a => cases h

theorem bind_eq_ok_iff {ε α β : Type} {m : Except ε α} {f : α → Except ε β} {b : β} :
    m >>= f = .ok b ↔ ∃ a, m = .ok a ∧ f a = .ok b := by
  cases m <;> simp [bind, Except.bind]

theorem bind_eq_error_iff {ε α β : Type} {m : Except ε α} {f : α → Except ε β} {e : ε} :
    m >>= f = .error e ↔ m = .error e ∨ ∃ a, m = .ok a ∧ f a = .error e := by
  cases m <;> simp [bind, Except.bind]

theorem mapM_eq_ok_iff {ε α β : Type} {f : α → Except ε β} {meets : α → Prop} {image : α → β}
    (one : ∀ x y, f x = .ok y ↔ meets x ∧ y = image x) {xs : List α} {ys : List β} :
    xs.mapM f = .ok ys ↔ (∀ x ∈ xs, meets x) ∧ ys = xs.map image := by
  induction xs generalizing ys with
  | nil => simp [pure, Except.pure, eq_comm]
  | cons x xs ih =>
    simp only [List.mapM_cons, bind_eq_ok_iff, one, ih, pure, Except.pure, Except.ok.injEq,
      List.forall_mem_cons, List.map_cons]
    constructor
    · rintro ⟨y, ⟨meetsOne, rfl⟩, ys', ⟨meetsRest, rfl⟩, rfl⟩
      exact ⟨⟨meetsOne, meetsRest⟩, rfl⟩
    · rintro ⟨⟨meetsOne, meetsRest⟩, rfl⟩
      exact ⟨_, ⟨meetsOne, rfl⟩, _, ⟨meetsRest, rfl⟩, rfl⟩

theorem exists_mem_of_mapM_eq_error {ε α β : Type} {f : α → Except ε β} {xs : List α} {e : ε}
    (h : xs.mapM f = .error e) : ∃ x ∈ xs, f x = .error e := by
  induction xs with
  | nil => cases h
  | cons x xs ih =>
    rw [List.mapM_cons] at h
    rcases bind_eq_error_iff.mp h with failed | ⟨y, -, h⟩
    · exact ⟨x, List.mem_cons_self, failed⟩
    · rcases bind_eq_error_iff.mp h with failed | ⟨ys, -, h⟩
      · obtain ⟨x', member, failed⟩ := ih failed
        exact ⟨x', List.mem_cons_of_mem x member, failed⟩
      · cases h

theorem exists_mem_of_forM_eq_error {ε α : Type} {f : α → Except ε Unit} {xs : List α} {e : ε}
    (h : xs.forM f = .error e) : ∃ x ∈ xs, f x = .error e := by
  induction xs with
  | nil => cases h
  | cons x xs ih =>
    rw [List.forM_eq_forM] at ih h
    rw [List.forM_cons] at h
    rcases bind_eq_error_iff.mp h with failed | ⟨_, -, failed⟩
    · exact ⟨x, List.mem_cons_self, failed⟩
    · obtain ⟨x', member, failed⟩ := ih failed
      exact ⟨x', List.mem_cons_of_mem x member, failed⟩

theorem forM_eq_ok_iff {ε α : Type} {f : α → Except ε Unit} {xs : List α} :
    xs.forM f = .ok () ↔ ∀ x ∈ xs, f x = .ok () := by
  induction xs with
  | nil => simp [pure, Except.pure]
  | cons x xs ih =>
    rw [List.forM_eq_forM] at ih ⊢
    rw [List.forM_cons, bind_eq_ok_iff, List.forall_mem_cons]
    constructor
    · rintro ⟨⟨⟩, first, rest⟩
      exact ⟨first, ih.mp rest⟩
    · rintro ⟨first, rest⟩
      exact ⟨(), first, ih.mpr rest⟩

/-! ### Steps that are the same -/

section
variable {m : Type → Type} [Monad m] [LawfulMonad m] {α β : Type} {xs : List α}

theorem mapM_congr {f f' : α → m β} (same : ∀ x ∈ xs, f x = f' x) : xs.mapM f = xs.mapM f' := by
  induction xs with
  | nil => rfl
  | cons x xs ih =>
    obtain ⟨first, others⟩ := List.forall_mem_cons.mp same
    rw [List.mapM_cons, List.mapM_cons, first, ih others]

omit [LawfulMonad m] in
theorem forM_congr {f f' : α → m Unit} (same : ∀ x ∈ xs, f x = f' x) :
    xs.forM f = xs.forM f' := by
  induction xs with
  | nil => rfl
  | cons x xs ih =>
    obtain ⟨first, others⟩ := List.forall_mem_cons.mp same
    rw [List.forM_eq_forM] at ih ⊢
    rw [List.forM_cons, List.forM_cons, first, ih others]

end

end WeightedGrammar
