import Mathlib.Algebra.Order.BigOperators.Group.Finset
import SlrCompiler.Proofs.Finite.Saturation

/-! # Passes over growing sets

    Sets that are filled in place by passes over the same data: a pass may use what
    it has put in itself, and passes are made until one of them changes nothing
    (`RunsTo`). Such a loop comes to an end when passes only add elements, and never
    reach beyond a bound (`exists_runsTo`). The measure is the number of elements,
    of one set (`SortedSet.size_lt`) or of a family of sets (`familySize_lt`). If the
    bound is moreover the least that passes leave alone, the loop ends with it
    (`runsTo_of_least`).
-/

namespace SlrCompiler

/-! ## Section 1: Inclusion -/

section Inclusion

variable {α : Type} [Ord α] [Std.TransOrd α]

/-- Sets are compared by inclusion. -/
instance : PartialOrder (SortedSet α) where
  le s t := ∀ x ∈ s, x ∈ t
  le_refl _ _ hx := hx
  le_trans _ _ _ hst htu x hx := htu x (hst x hx)
  le_antisymm _ _ hst hts := SortedSet.ext fun x => ⟨hst x, hts x⟩

theorem SortedSet.empty_le (s : SortedSet α) : SortedSet.empty ≤ s := by
  intro x hx
  exact absurd hx (SortedSet.not_mem_empty x)

theorem SortedSet.size_mono {s t : SortedSet α} (h : s ≤ t) : s.size ≤ t.size :=
  SortedSet.size_le h

variable [Std.LawfulEqOrd α]

theorem SortedSet.le_union_left (s t : SortedSet α) : s ≤ s.union t := by
  intro x hx
  exact SortedSet.mem_union.2 (.inl hx)

theorem SortedSet.le_union_right (s t : SortedSet α) : t ≤ s.union t := by
  intro x hx
  exact SortedSet.mem_union.2 (.inr hx)

theorem SortedSet.union_le {s t u : SortedSet α} (hs : s ≤ u) (ht : t ≤ u) : s.union t ≤ u := by
  intro x hx
  rcases SortedSet.mem_union.1 hx with hx | hx
  · exact hs x hx
  · exact ht x hx

theorem SortedSet.empty_union (s : SortedSet α) : SortedSet.empty.union s = s :=
  le_antisymm (union_le (empty_le s) le_rfl) (le_union_right _ s)

theorem SortedSet.union_empty (s : SortedSet α) : s.union .empty = s :=
  le_antisymm (union_le le_rfl (empty_le s)) (le_union_left s _)

/-- A set that is part of another one has fewer elements. -/
theorem SortedSet.size_lt {s t : SortedSet α} (h : s < t) : s.size < t.size := by
  have hall : s.insertAll t.toList = t := by
    apply SortedSet.ext
    intro x
    rw [SortedSet.mem_insertAll, ← SortedSet.mem_def]
    exact ⟨fun hx => hx.elim (h.le x) id, .inr⟩
  have hgrows : s.insertAll t.toList ≠ s := by
    rw [hall]
    exact h.ne'
  have hlt := SortedSet.size_lt_insertAll hgrows
  rwa [hall] at hlt

end Inclusion

/-! ## Section 2: Families of sets -/

/-- How many elements the first sets of a family have. -/
def familySize (n : Nat) (w : Nat → SortedSet Nat) : Nat := ∑ s ∈ Finset.range n, (w s).size

/-- A family that grows has more elements, if no set but the first ones has any. -/
theorem familySize_lt {n : Nat} {v w : Nat → SortedSet Nat} (h : v < w)
    (hempty : ∀ s, n ≤ s → w s = .empty) : familySize n v < familySize n w := by
  obtain ⟨hle, s, hs⟩ := Pi.lt_def.1 h
  have hlt : s < n := by
    by_contra hn
    rw [hempty s (by omega)] at hs
    exact hs.not_ge (SortedSet.empty_le _)
  unfold familySize
  apply Finset.sum_lt_sum
  · intro r _
    exact SortedSet.size_mono (hle r)
  · exact ⟨s, Finset.mem_range.2 hlt, SortedSet.size_lt hs⟩

/-- Adds elements to one set of a family. -/
def addTo (w : Nat → SortedSet Nat) (s : Nat) (items : SortedSet Nat) : Nat → SortedSet Nat :=
  Function.update w s ((w s).union items)

section AddTo

variable {w b : Nat → SortedSet Nat} {s : Nat} {items : SortedSet Nat}

theorem addTo_self : addTo w s items s = (w s).union items := Function.update_self ..

theorem addTo_of_ne {r : Nat} (h : r ≠ s) : addTo w s items r = w r := Function.update_of_ne h ..

theorem le_addTo : w ≤ addTo w s items := by
  intro r
  by_cases hr : r = s
  · rw [hr, addTo_self]
    exact SortedSet.le_union_left _ _
  · rw [addTo_of_ne hr]

theorem items_le_addTo : items ≤ addTo w s items s := by
  rw [addTo_self]
  exact SortedSet.le_union_right _ _

theorem addTo_le (hw : w ≤ b) (hitems : items ≤ b s) : addTo w s items ≤ b := by
  intro r
  by_cases hr : r = s
  · rw [hr, addTo_self]
    exact SortedSet.union_le (hw s) hitems
  · rw [addTo_of_ne hr]
    exact hw r

end AddTo

/-! ## Section 3: Passes until nothing changes -/

variable {σ : Type}

/-- Passes from `s`, made until one of them changes nothing, end with `r`. -/
inductive RunsTo (pass : σ → σ) : σ → σ → Prop
  | stop {s : σ} : pass s = s → RunsTo pass s s
  | again {s r : σ} : pass s ≠ s → RunsTo pass (pass s) r → RunsTo pass s r

/-- The last pass has changed nothing. -/
theorem RunsTo.pass_eq {pass : σ → σ} {s r : σ} (h : RunsTo pass s r) : pass r = r := by
  induction h with
  | stop hs => exact hs
  | again _ _ ih => exact ih

/-- What every pass keeps holds at the end. -/
theorem RunsTo.invariant {pass : σ → σ} {P : σ → Prop} (hpass : ∀ s, P s → P (pass s)) {s r : σ}
    (h : RunsTo pass s r) (hs : P s) : P r := by
  induction h with
  | stop _ => exact hs
  | again _ _ ih => exact ih (hpass _ hs)

/-- **The loop ends**: passes that enlarge what they change, and stay within a bound,
    cannot go on for ever. -/
theorem exists_runsTo {pass : σ → σ} {P : σ → Prop} (hpass : ∀ s, P s → P (pass s))
    (size : σ → Nat) (hgrows : ∀ s, P s → pass s ≠ s → size s < size (pass s)) (bound : Nat)
    (hbound : ∀ s, P s → size s ≤ bound) {s : σ} (hs : P s) : ∃ r, RunsTo pass s r := by
  -- the induction is on how many elements may still be added
  induction hroom : bound - size s using Nat.strongRecOn generalizing s with
  | ind room ih =>
    by_cases hstop : pass s = s
    · exact ⟨s, .stop hstop⟩
    · have hmore := hgrows s hs hstop
      have hfits := hbound (pass s) (hpass s hs)
      obtain ⟨r, hr⟩ := ih (bound - size (pass s)) (by omega) (hpass s hs) rfl
      exact ⟨r, .again hstop hr⟩

/-- **The loop ends with a least set**: passes that only add elements, and add none to
    `b`, end with `b` itself if nothing smaller is left alone by them. -/
theorem runsTo_of_least [PartialOrder σ] {pass : σ → σ} {start b : σ} (hle : ∀ s, s ≤ pass s)
    (hb : ∀ s ≤ b, pass s ≤ b) (hstart : start ≤ b)
    (hleast : ∀ s, start ≤ s → pass s = s → b ≤ s) (size : σ → Nat)
    (hsize : ∀ s t, s < t → t ≤ b → size s < size t) : RunsTo pass start b := by
  have hpass : ∀ s, start ≤ s ∧ s ≤ b → start ≤ pass s ∧ pass s ≤ b := by
    intro s hs
    exact ⟨hs.1.trans (hle s), hb s hs.2⟩
  have hends : ∃ r, RunsTo pass start r := by
    apply exists_runsTo hpass size ?_ (size b) ?_ ⟨le_rfl, hstart⟩
    · intro s hs hchanged
      exact hsize s (pass s) (lt_of_le_of_ne (hle s) hchanged.symm) (hpass s hs).2
    · intro s hs
      rcases hs.2.eq_or_lt with rfl | hlt
      · exact le_rfl
      · exact (hsize s b hlt le_rfl).le
  obtain ⟨r, hr⟩ := hends
  obtain ⟨hlarge, hsmall⟩ := hr.invariant hpass ⟨le_rfl, hstart⟩
  exact le_antisymm hsmall (hleast r hlarge hr.pass_eq) ▸ hr

end SlrCompiler
