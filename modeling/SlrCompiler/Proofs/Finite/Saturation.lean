import Mathlib.Data.List.Perm.Subperm
import Mathlib.Data.List.Range
import Mathlib.Logic.Relation
import SlrCompiler.Finite.Saturation

/-! # Saturation reaches a fixed point

    `saturate` counts its rounds down, so by itself it only promises a lower
    bound of the fixed point. When everything derivable lies in a finite
    pool, each round but the last adds an element of it; more rounds than
    the universe has elements are therefore never used up, and the result is
    closed under the rule of derivation.

    For `reach` this makes membership the same as reachability along edges.
-/

namespace SlrCompiler

variable {α : Type} [Ord α]

/-! ## Section 1: Size of a set -/

theorem SortedSet.nodup [Std.TransOrd α] (s : SortedSet α) : s.toList.Nodup := by
  refine s.ascending.imp fun {a b} hab heq => ?_
  subst heq
  exact SortedSet.not_lt_self a hab

/-- A set within a pool has no more elements than the pool. -/
theorem SortedSet.size_le [Std.TransOrd α] {s : SortedSet α} {pool : List α}
    (h : ∀ x ∈ s, x ∈ pool) : s.size ≤ pool.length :=
  (s.nodup.subperm fun _ hx => h _ hx).length_le

variable [Std.TransOrd α] [Std.LawfulEqOrd α]

/-- Insertions that change a set make it larger. -/
theorem SortedSet.size_lt_insertAll {s : SortedSet α} {items : List α}
    (h : s.insertAll items ≠ s) : s.size < (s.insertAll items).size := by
  have hsub : ∀ x ∈ s.toList, x ∈ (s.insertAll items).toList := by
    intro x hx
    exact SortedSet.mem_insertAll.2 (.inl hx)
  have hle : s.size ≤ (s.insertAll items).size := SortedSet.size_le hsub
  refine lt_of_le_of_ne hle fun heq => h ?_
  -- Equal sizes leave no room for a new element.
  have hperm : s.toList.Perm (s.insertAll items).toList :=
    (s.nodup.subperm hsub).perm_of_length_le (Nat.le_of_eq heq.symm)
  exact SortedSet.ext fun x => hperm.mem_iff.symm

/-! ## Section 2: The fixed point -/

variable [DecidableEq α]

/-- **Saturation is closed**: with more rounds than there are elements left to
    add, nothing that can be derived from the result is missing in it. -/
theorem saturate_closed {derive : SortedSet α → List α} {pool : List α}
    (hderive : ∀ s, (∀ x ∈ s, x ∈ pool) → ∀ x ∈ derive s, x ∈ pool)
    {rounds : Nat} {s : SortedSet α} (hs : ∀ x ∈ s, x ∈ pool)
    (hrounds : pool.length < s.size + rounds) :
    ∀ x ∈ derive (saturate derive rounds s), x ∈ saturate derive rounds s := by
  -- A round that changes the set makes it larger, and the set stays within the pool.
  induction rounds generalizing s with
  | zero =>
    have := SortedSet.size_le hs
    omega
  | succ rounds ih =>
    simp only [saturate]
    split
    · rename_i hstable
      intro x hx
      rw [← hstable]
      exact SortedSet.mem_insertAll.2 (.inr hx)
    · rename_i hgrows
      have hlarger := SortedSet.size_lt_insertAll hgrows
      refine ih (fun x hx => ?_) (by omega)
      rcases SortedSet.mem_insertAll.1 hx with hx | hx
      · exact hs x hx
      · exact hderive s hs x hx

/-! ## Section 3: Reachability along edges -/

omit [Ord α] [Std.TransOrd α] [Std.LawfulEqOrd α] in
theorem mem_targets {edges : List (α × α)} {a b : α} :
    b ∈ targets edges a ↔ (a, b) ∈ edges := by
  simp [targets]

/-- What is reached is reached along edges from some element of the start. -/
theorem exists_path_of_mem_reach {edges : List (α × α)} {rounds : Nat} {s : SortedSet α}
    {x : α} (h : x ∈ reach edges rounds s) :
    ∃ a ∈ s, Relation.ReflTransGen (fun a b => (a, b) ∈ edges) a x := by
  refine saturate_induction
    (motive := fun x => ∃ a ∈ s, Relation.ReflTransGen (fun a b => (a, b) ∈ edges) a x)
    (fun t ht x hx => ?_) (fun x hx => ⟨x, hx, .refl⟩) x h
  obtain ⟨y, hy, hyx⟩ := List.mem_flatMap.1 hx
  obtain ⟨a, ha, hay⟩ := ht y hy
  exact ⟨a, ha, hay.tail (mem_targets.1 hyx)⟩

/-- **Reachability**: with more rounds than the universe has elements, `reach`
    collects exactly what edges lead to. -/
theorem mem_reach_iff {edges : List (α × α)} {pool : List α} {rounds : Nat}
    {s : SortedSet α} (hedges : ∀ e ∈ edges, e.2 ∈ pool) (hs : ∀ x ∈ s, x ∈ pool)
    (hrounds : pool.length < rounds) {x : α} :
    x ∈ reach edges rounds s
      ↔ ∃ a ∈ s, Relation.ReflTransGen (fun a b => (a, b) ∈ edges) a x := by
  constructor
  · exact exists_path_of_mem_reach
  · intro h
    obtain ⟨a, ha, hpath⟩ := h
    induction hpath with
    | refl => exact mem_saturate_of_mem ha
    | @tail b c _ hbc ih =>
      -- The last edge derives its target from what is in the result already.
      refine saturate_closed (fun t _ x hx => ?_) hs (by omega) c ?_
      · obtain ⟨y, -, hyx⟩ := List.mem_flatMap.1 hx
        exact hedges _ (mem_targets.1 hyx)
      · exact List.mem_flatMap.2 ⟨b, ih, mem_targets.2 hbc⟩

end SlrCompiler
