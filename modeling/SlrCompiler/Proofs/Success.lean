import Mathlib.Control.Monad.Basic

/-! # Steps that succeed and steps that are refused

    Every stage of the compiler ends with a result or a refusal. A chain of
    steps that has a result is taken apart from its end: each step had one. A
    chain that is refused is refused by one of its steps.
-/

namespace SlrCompiler

variable {ε α β : Type}

theorem map_eq_ok_iff {f : α → β} {x : Except ε α} {b : β} :
    x.map f = .ok b ↔ ∃ a, x = .ok a ∧ f a = b := by
  cases x with
  | error e => simp [Except.map]
  | ok a => simp [Except.map]

/-- What has been decided by running the steps holds of their result. -/
theorem exists_of_map_decide {p : α → Prop} [DecidablePred p] {x : Except ε α}
    (h : (x.map fun a => decide (p a)) = .ok true) : ∃ a, x = .ok a ∧ p a := by
  obtain ⟨a, hx, ha⟩ := map_eq_ok_iff.1 h
  exact ⟨a, hx, of_decide_eq_true ha⟩

theorem bind_eq_ok_iff {f : α → Except ε β} {x : Except ε α} {b : β} :
    (x >>= f) = .ok b ↔ ∃ a, x = .ok a ∧ f a = .ok b := by
  cases x with
  | error e => simp [bind, Except.bind]
  | ok a => simp [bind, Except.bind]

/-- The results of a step taken for each element of a list come from its elements. -/
theorem exists_of_mem_mapM {f : α → Except ε β} {l : List α} {results : List β}
    (h : l.mapM f = .ok results) : ∀ b ∈ results, ∃ a ∈ l, f a = .ok b := by
  induction l generalizing results with
  | nil =>
    obtain rfl : [] = results := Except.ok.inj h
    simp
  | cons first rest ih =>
    rw [List.mapM_cons] at h
    obtain ⟨b, hb, h⟩ := bind_eq_ok_iff.1 h
    obtain ⟨others, hothers, h⟩ := bind_eq_ok_iff.1 h
    obtain rfl : b :: others = results := Except.ok.inj h
    intro c hc
    rcases List.mem_cons.1 hc with rfl | hc
    · exact ⟨first, List.mem_cons_self, hb⟩
    · obtain ⟨a, ha, hfa⟩ := ih hothers c hc
      exact ⟨a, List.mem_cons_of_mem first ha, hfa⟩

theorem map_eq_error_iff {f : α → β} {x : Except ε α} {e : ε} :
    x.map f = .error e ↔ x = .error e := by
  cases x <;> simp [Except.map]

theorem bind_eq_error_iff {f : α → Except ε β} {x : Except ε α} {e : ε} :
    (x >>= f) = .error e ↔ x = .error e ∨ ∃ a, x = .ok a ∧ f a = .error e := by
  cases x <;> simp [bind, Except.bind]

end SlrCompiler
