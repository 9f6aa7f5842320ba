import Mathlib.Data.Nat.Find
import Mathlib.Tactic.Tauto

/-! # What comes first and what comes last

    At the places of a list, counted from zero, certain things can be found. `IsFirst`
    is what is found at the first place where anything is, and `IsLast` at the last one.
    Both are taken apart at the place zero (`isFirst_iff`, `isLast_iff`), which is how a
    list is gone through: what comes first ends the search, and what comes last is what
    the rest does not replace (`isLastOr_iff`).
-/

namespace SlrCompiler

variable {α : Type} {P : Nat → α → Prop} {a : α}

/-- It is found at the first place where anything is. -/
def IsFirst (P : Nat → α → Prop) (a : α) : Prop := ∃ k, P k a ∧ ∀ j b, P j b → k ≤ j

/-- It is found at the last place where anything is. -/
def IsLast (P : Nat → α → Prop) (a : α) : Prop := ∃ k, P k a ∧ ∀ j b, P j b → j ≤ k

theorem isFirst_iff : IsFirst P a ↔ P 0 a ∨ (∀ b, ¬ P 0 b) ∧ IsFirst (fun k => P (k + 1)) a := by
  constructor
  · rintro ⟨k, hk, hfirst⟩
    cases k with
    | zero => exact .inl hk
    | succ k =>
      refine .inr ⟨fun b hb => ?_, k, hk, fun j b hj => ?_⟩
      · exact absurd (hfirst 0 b hb) (by omega)
      · exact Nat.succ_le_succ_iff.1 (hfirst (j + 1) b hj)
  · rintro (h | ⟨hnone, k, hk, hfirst⟩)
    · exact ⟨0, h, fun j b _ => Nat.zero_le j⟩
    · refine ⟨k + 1, hk, fun j b hj => ?_⟩
      cases j with
      | zero => exact absurd hj (hnone b)
      | succ j => exact Nat.succ_le_succ (hfirst j b hj)

theorem isFirst_iff_of_zero {b : α} (h : P 0 b) (hunique : ∀ c, P 0 c → c = b) :
    IsFirst P a ↔ a = b := by
  rw [isFirst_iff]
  constructor
  · rintro (ha | ⟨hnone, -⟩)
    · exact hunique a ha
    · exact absurd h (hnone b)
  · rintro rfl
    exact .inl h

theorem isFirst_iff_of_none (h : ∀ b, ¬ P 0 b) :
    IsFirst P a ↔ IsFirst (fun k => P (k + 1)) a := by
  rw [isFirst_iff, or_iff_right (h a), and_iff_right h]

theorem isLast_iff : IsLast P a ↔
    IsLast (fun k => P (k + 1)) a ∨ (∀ k b, ¬ P (k + 1) b) ∧ P 0 a := by
  constructor
  · rintro ⟨k, hk, hlast⟩
    cases k with
    | zero =>
      refine .inr ⟨fun j b hj => ?_, hk⟩
      exact absurd (hlast (j + 1) b hj) (by omega)
    | succ k =>
      exact .inl ⟨k, hk, fun j b hj => Nat.succ_le_succ_iff.1 (hlast (j + 1) b hj)⟩
  · rintro (⟨k, hk, hlast⟩ | ⟨hnone, h⟩)
    · refine ⟨k + 1, hk, fun j b hj => ?_⟩
      cases j with
      | zero => exact Nat.zero_le _
      | succ j => exact Nat.succ_le_succ (hlast j b hj)
    · refine ⟨0, h, fun j b hj => ?_⟩
      cases j with
      | zero => exact le_rfl
      | succ j => exact absurd hj (hnone j b)

/-- Where anything is found, something is found first. -/
theorem exists_isFirst_iff : (∃ a, IsFirst P a) ↔ ∃ k a, P k a := by
  constructor
  · rintro ⟨a, k, hk, -⟩
    exact ⟨k, a, hk⟩
  · intro h
    classical
    obtain ⟨a, ha⟩ := Nat.find_spec h
    exact ⟨a, Nat.find h, ha, fun j b hj => Nat.find_min' h ⟨b, hj⟩⟩

/-- Where anything is found, and nothing beyond a bound, something is found last. -/
theorem exists_isLast_iff {n : Nat} (hbound : ∀ k a, P k a → k < n) :
    (∃ a, IsLast P a) ↔ ∃ k a, P k a := by
  constructor
  · rintro ⟨a, k, hk, -⟩
    exact ⟨k, a, hk⟩
  · rintro ⟨k, a, hk⟩
    classical
    have hle : k ≤ n := Nat.le_of_lt (hbound k a hk)
    obtain ⟨b, hb⟩ := Nat.findGreatest_spec (P := fun k => ∃ a, P k a) hle ⟨a, hk⟩
    refine ⟨b, _, hb, fun j c hj => ?_⟩
    exact Nat.le_findGreatest (Nat.le_of_lt (hbound j c hj)) ⟨c, hj⟩

/-- It is found last; or nothing is found, and it is there already. -/
def IsLastOr (P : Nat → α → Prop) (old : α → Prop) (a : α) : Prop :=
  IsLast P a ∨ (∀ k b, ¬ P k b) ∧ old a

theorem isLastOr_of_none {old : α → Prop} (hnone : ∀ k b, ¬ P k b) : IsLastOr P old a ↔ old a := by
  have hnotLast : ¬ IsLast P a := fun ⟨k, hk, _⟩ => hnone k a hk
  rw [IsLastOr, or_iff_right hnotLast, and_iff_right hnone]

/-- What is found at the place zero replaces what is there, for the rest of the places. -/
theorem isLastOr_iff {old : α → Prop} : IsLastOr P old a ↔
    IsLastOr (fun k => P (k + 1)) (fun a => P 0 a ∨ (∀ b, ¬ P 0 b) ∧ old a) a := by
  have hnone : (∀ k b, ¬ P k b) ↔ (∀ k b, ¬ P (k + 1) b) ∧ ∀ b, ¬ P 0 b := by
    constructor
    · exact fun h => ⟨fun k => h (k + 1), h 0⟩
    · rintro ⟨hlater, hzero⟩ (_ | k)
      · exact hzero
      · exact hlater k
  unfold IsLastOr
  rw [isLast_iff, hnone]
  tauto

end SlrCompiler
