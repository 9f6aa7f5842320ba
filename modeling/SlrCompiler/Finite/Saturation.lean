import SlrCompiler.Finite.SortedSet

/-! # Saturation

    From a set and a rule that derives elements from a set, saturation adds what is
    derived until nothing new appears. The number of rounds is bounded by an argument;
    each round but the last adds an element, so a bound above the number of possible
    elements is never reached.
-/

namespace SlrCompiler

variable {α : Type} [Ord α] [Std.TransOrd α] [DecidableEq α]

/-- Adds what `derive` yields, round by round, until nothing new appears or the rounds are used
    up. -/
def saturate (derive : SortedSet α → List α) : Nat → SortedSet α → SortedSet α
  | 0, s => s
  | rounds + 1, s =>
    let t := s.insertAll (derive s)
    if t = s then s else saturate derive rounds t

/-- The elements to which an edge leads from `a`. -/
def targets (edges : List (α × α)) (a : α) : List α :=
  (edges.filter (·.1 = a)).map Prod.snd

/-- Everything that can be reached from a set along edges. -/
def reach (edges : List (α × α)) (rounds : Nat) (s : SortedSet α) : SortedSet α :=
  saturate (fun t => t.toList.flatMap (targets edges)) rounds s

/-- Saturation loses nothing. -/
theorem mem_saturate_of_mem [Std.LawfulEqOrd α] {derive : SortedSet α → List α} {rounds : Nat}
    {s : SortedSet α} {x : α} (h : x ∈ s) : x ∈ saturate derive rounds s := by
  induction rounds generalizing s with
  | zero => exact h
  | succ rounds ih =>
    simp only [saturate]
    split
    · exact h
    · exact ih (SortedSet.mem_insertAll.2 (.inl h))

/-- What holds of the start and is kept by every derivation holds of the whole saturation. -/
theorem saturate_induction [Std.LawfulEqOrd α] {derive : SortedSet α → List α}
    {motive : α → Prop} (hderive : ∀ s, (∀ x ∈ s, motive x) → ∀ x ∈ derive s, motive x)
    {rounds : Nat} {s : SortedSet α} (h : ∀ x ∈ s, motive x) :
    ∀ x ∈ saturate derive rounds s, motive x := by
  induction rounds generalizing s with
  | zero => exact h
  | succ rounds ih =>
    simp only [saturate]
    split
    · exact h
    · refine ih fun x hx => ?_
      rcases SortedSet.mem_insertAll.1 hx with hx | hx
      · exact h x hx
      · exact hderive s h x hx

end SlrCompiler
