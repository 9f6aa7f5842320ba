import SlrCompiler.Automaton.Item
import SlrCompiler.Proofs.Finite.Saturation
import SlrCompiler.Proofs.Grammar.WellFormed

/-! # Closure and goto, by their elements

    `closure` collects the left corners of the symbols after a dot and adds the
    productions of all of them at once. `InClosure` says the same one production
    at a time, which is the form that inductions use: `mem_closure`. The
    elements of a goto follow: `mem_goto`.
-/

namespace SlrCompiler

/-! ## Section 1: The symbol after the dot -/

namespace Item

variable {g : Grammar}

@[simp] theorem production_initial (p : Nat) : (initial p).production = p := rfl

@[simp] theorem position_initial (p : Nat) : (initial p).position = 0 := rfl

@[simp] theorem production_advance (i : Item) : i.advance.production = i.production := rfl

@[simp] theorem position_advance (i : Item) : i.advance.position = i.position + 1 := rfl

theorem nextSymbol_initial {n : Nat} {p : Production} (hp : g.productions[n]? = some p) :
    (initial n).nextSymbol g = p.right.head? := by
  simp [nextSymbol, Grammar.rightSide_eq hp, List.head?_eq_getElem?]

theorem nextSymbol_lt (h : g.SymbolsExist) {i : Item} {s : Nat}
    (hs : i.nextSymbol g = some s) : s < g.symbolCount :=
  h.lt_of_rightSide hs

/-- The dot stands before a symbol of the right side. -/
theorem exists_production_of_nextSymbol (i : Item) {s : Nat} (hs : i.nextSymbol g = some s) :
    ∃ p, g.productions[i.production]? = some p ∧ s ∈ p.right := by
  cases hp : g.productions[i.production]? with
  | none => simp [nextSymbol, Grammar.rightSide, hp] at hs
  | some p =>
    rw [nextSymbol, Grammar.rightSide_eq hp] at hs
    exact ⟨p, rfl, List.mem_of_getElem? hs⟩

end Item

namespace Grammar

variable (g : Grammar)

/-! ## Section 2: Closure one production at a time -/

/-- What belongs to the closure of some items: the items themselves, and every
    production of a nonterminal after a dot, its own dot at the beginning. -/
inductive InClosure (items : ItemSet) : Item → Prop
  | base {i : Item} : i ∈ items → InClosure items i
  | expand {i : Item} {s p : Nat} : InClosure items i → i.nextSymbol g = some s →
      p ∈ g.productionsOf s → InClosure items (.initial p)

variable {g}

theorem mem_expected {items : ItemSet} {s : Nat} :
    s ∈ g.expected items ↔ ∃ i ∈ items, i.nextSymbol g = some s := by
  simp [expected, SortedSet.mem_def]

theorem mem_cornerEdges {s t : Nat} :
    (s, t) ∈ g.cornerEdges ↔
      ∃ (n : Nat) (p : Production), g.productions[n]? = some p ∧ n ∈ g.productionsOf s ∧
        p.right.head? = some t := by
  simp only [cornerEdges, List.mem_filterMap, Array.mem_toList_iff, Array.mem_iff_getElem?]
  constructor
  · intro h
    obtain ⟨p, ⟨n, hn⟩, h⟩ := h
    split at h
    · simp at h
    · rename_i hleft
      simp only [Option.map_eq_some_iff, Prod.mk.injEq, exists_eq_right_right] at h
      obtain ⟨hhead, rfl⟩ := h
      exact ⟨n, p, hn, mem_productionsOf.2 ⟨by simpa using hleft, p, hn, rfl⟩, hhead⟩
  · intro h
    obtain ⟨n, p, hn, hmem, hhead⟩ := h
    obtain ⟨hs, q, hq, rfl⟩ := mem_productionsOf.1 hmem
    obtain rfl : q = p := Option.some.inj (hq.symm.trans hn)
    exact ⟨q, ⟨n, hn⟩, by simp [hs, hhead]⟩

/-- A symbol is a corner exactly if it stands after a dot of the closure. -/
theorem mem_corners (h : g.SymbolsExist) {items : ItemSet} {s : Nat} :
    s ∈ g.corners items ↔ ∃ i, g.InClosure items i ∧ i.nextSymbol g = some s := by
  have hstart : ∀ x ∈ SortedSet.ofList (g.expected items), x ∈ List.range g.symbolCount := by
    intro x hx
    obtain ⟨i, -, hi⟩ := mem_expected.1 (SortedSet.mem_ofList.1 hx)
    exact List.mem_range.2 (Item.nextSymbol_lt h hi)
  have hedges : ∀ e ∈ g.cornerEdges, e.2 ∈ List.range g.symbolCount := by
    rintro ⟨a, b⟩ he
    obtain ⟨n, p, hp, -, hhead⟩ := mem_cornerEdges.1 he
    exact List.mem_range.2 ((h n p hp).2 b (List.mem_of_head? hhead))
  rw [corners, mem_reach_iff hedges hstart (by simp [rounds])]
  constructor
  · intro h
    obtain ⟨a, ha, hpath⟩ := h
    -- Each edge of the path is one expansion.
    induction hpath with
    | refl =>
      obtain ⟨i, hi, hnext⟩ := mem_expected.1 (SortedSet.mem_ofList.1 ha)
      exact ⟨i, .base hi, hnext⟩
    | tail _ hedge ih =>
      obtain ⟨i, hi, hnext⟩ := ih
      obtain ⟨n, p, hp, hmem, hhead⟩ := mem_cornerEdges.1 hedge
      exact ⟨.initial n, .expand hi hnext hmem, by rw [Item.nextSymbol_initial hp, hhead]⟩
  · intro h
    obtain ⟨i, hi, hnext⟩ := h
    induction hi generalizing s with
    | base hi => exact ⟨s, SortedSet.mem_ofList.2 (mem_expected.2 ⟨_, hi, hnext⟩), .refl⟩
    | @expand j t n _ hj hmem ih =>
      obtain ⟨a, ha, hpath⟩ := ih hj
      obtain ⟨-, p, hp, -⟩ := mem_productionsOf.1 hmem
      rw [Item.nextSymbol_initial hp] at hnext
      exact ⟨a, ha, hpath.tail (mem_cornerEdges.2 ⟨n, p, hp, hmem, hnext⟩)⟩

/-- **Closure**: its elements are those that single expansions lead to. -/
theorem mem_closure (h : g.SymbolsExist) {items : ItemSet} {i : Item} :
    i ∈ g.closure items ↔ g.InClosure items i := by
  simp only [closure, SortedSet.mem_insertAll, List.mem_flatMap, ← SortedSet.mem_def,
    mem_corners h, List.mem_map]
  constructor
  · rintro (hi | ⟨s, ⟨j, hj, hnext⟩, n, hn, rfl⟩)
    · exact .base hi
    · exact .expand hj hnext hn
  · intro hi
    cases hi with
    | base hi => exact .inl hi
    | expand hj hnext hn => exact .inr ⟨_, ⟨_, hj, hnext⟩, _, hn, rfl⟩

/-! ## Section 3: Moving on -/

theorem mem_advanced {items : ItemSet} {s : Nat} {j : Item} :
    j ∈ g.advanced items s ↔ ∃ i ∈ items, i.nextSymbol g = some s ∧ i.advance = j := by
  simp [advanced, SortedSet.mem_def, and_assoc]

/-- There is nowhere to go exactly if no item expects the symbol. -/
theorem goto_eq_none_iff {items : ItemSet} {s : Nat} :
    g.goto items s = none ↔ ∀ i ∈ items, i.nextSymbol g ≠ some s := by
  have hempty : g.advanced items s = [] ↔ ∀ i ∈ items, i.nextSymbol g ≠ some s := by
    rw [List.eq_nil_iff_forall_not_mem]
    constructor
    · intro hnone i hi hnext
      exact hnone i.advance (mem_advanced.2 ⟨i, hi, hnext, rfl⟩)
    · intro hnone j hj
      obtain ⟨i, hi, hnext, -⟩ := mem_advanced.1 hj
      exact hnone i hi hnext
  unfold goto
  split
  · rename_i hadvanced
    simp [← hempty, hadvanced]
  · rename_i hadvanced
    simpa [← hempty] using hadvanced

theorem goto_eq_some {items target : ItemSet} {s : Nat} (h : g.goto items s = some target) :
    target = g.closure (.ofList (g.advanced items s)) := by
  unfold goto at h
  split at h
  · simp at h
  · exact (Option.some.inj h).symm

/-- **Goto**: the items that have moved over the symbol, and what they expand to. -/
theorem mem_goto (hg : g.SymbolsExist) {items target : ItemSet} {s : Nat}
    (h : g.goto items s = some target) {j : Item} :
    j ∈ target ↔ g.InClosure (.ofList (g.advanced items s)) j := by
  rw [goto_eq_some h, mem_closure hg]

end Grammar

end SlrCompiler
