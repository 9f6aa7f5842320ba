import Mathlib.Data.Finset.Card
import Mathlib.Order.Bounds.Basic
import SlrCompiler.Proofs.Automaton.Closure
import SlrCompiler.Proofs.Finite.Passes
import SlrCompiler.Proofs.Grammar.Resolution

/-! # Closure as a closure operator

    What the closure of some items is, without saying how it is found: the least set
    that has the items and is complete, that is, has the productions of every
    nonterminal after one of its dots (`Complete`, `isLeast_closure`). Completeness
    speaks of one item at a time, so the union of complete sets is complete, and
    closure and goto distribute over unions (`closure_union`, `goto_union`).

    The other way to find it is a stack of items that are still to be looked at. Each
    nonterminal is expanded once, and only items that are new go onto the stack
    (`Expansion`). The loop invariant (`Expansion.Expands`) says that an item is on the
    stack or has had its nonterminal expanded; once the stack is empty the second must
    be the case throughout. Each step takes an item off the stack or brings a
    production in for good, which ends the loop (`Expansion.toDo_lt`).
-/

namespace SlrCompiler

/-! ## Section 1: Complete sets -/

namespace Grammar

variable (g : Grammar)

/-- The productions of every nonterminal after a dot are in the set, their own dots at
    the beginning. -/
def Complete (items : ItemSet) : Prop :=
  ∀ i ∈ items, ∀ (n : Nat) (p : Production), g.productions[n]? = some p →
    g.isTerminal p.left = false → i.nextSymbol g = some p.left → .initial n ∈ items

variable {g}

theorem Complete.union {s t : ItemSet} (hs : g.Complete s) (ht : g.Complete t) :
    g.Complete (s.union t) := by
  intro i hi n p hp hleft hnext
  rcases SortedSet.mem_union.1 hi with hi | hi
  · exact SortedSet.mem_union.2 (.inl (hs i hi n p hp hleft hnext))
  · exact SortedSet.mem_union.2 (.inr (ht i hi n p hp hleft hnext))

/-- What expansions lead to stays within complete sets. -/
theorem InClosure.mem_of_complete {items s : ItemSet} {i : Item} (h : g.InClosure items i)
    (hitems : items ≤ s) (hs : g.Complete s) : i ∈ s := by
  induction h with
  | base hi => exact hitems _ hi
  | expand _ hnext hmem ih =>
    obtain ⟨hnonterminal, p, hp, rfl⟩ := mem_productionsOf.1 hmem
    exact hs _ ih _ p hp hnonterminal hnext

section Closure

variable (hg : g.SymbolsExist)
include hg

/-- **The closure is the least complete set** that has the items. -/
theorem isLeast_closure (items : ItemSet) :
    IsLeast {s : ItemSet | items ≤ s ∧ g.Complete s} (g.closure items) := by
  refine ⟨⟨?_, ?_⟩, ?_⟩
  · intro i hi
    exact (mem_closure hg).2 (.base hi)
  · intro i hi n p hp hleft hnext
    have hmem : n ∈ g.productionsOf p.left := mem_productionsOf.2 ⟨hleft, p, hp, rfl⟩
    exact (mem_closure hg).2 (.expand ((mem_closure hg).1 hi) hnext hmem)
  · intro s hs i hi
    exact ((mem_closure hg).1 hi).mem_of_complete hs.1 hs.2

theorem le_closure (items : ItemSet) : items ≤ g.closure items := (isLeast_closure hg items).1.1

theorem complete_closure (items : ItemSet) : g.Complete (g.closure items) :=
  (isLeast_closure hg items).1.2

theorem closure_le {items s : ItemSet} (hitems : items ≤ s) (hs : g.Complete s) :
    g.closure items ≤ s :=
  (isLeast_closure hg items).2 ⟨hitems, hs⟩

theorem closure_mono : Monotone g.closure := by
  intro s t hst
  exact closure_le hg (hst.trans (le_closure hg t)) (complete_closure hg t)

theorem closure_closure (items : ItemSet) : g.closure (g.closure items) = g.closure items := by
  apply le_antisymm
  · exact closure_le hg le_rfl (complete_closure hg items)
  · exact le_closure hg (g.closure items)

theorem closure_union (s t : ItemSet) :
    g.closure (s.union t) = (g.closure s).union (g.closure t) := by
  apply le_antisymm
  · apply closure_le hg ?_ ((complete_closure hg s).union (complete_closure hg t))
    apply SortedSet.union_le
    · exact (le_closure hg s).trans (SortedSet.le_union_left _ _)
    · exact (le_closure hg t).trans (SortedSet.le_union_right _ _)
  · apply SortedSet.union_le
    · exact closure_mono hg (SortedSet.le_union_left s t)
    · exact closure_mono hg (SortedSet.le_union_right s t)

/-- The closure of nothing is nothing, whatever the grammar. -/
theorem closure_empty : g.closure .empty = .empty := by
  apply le_antisymm
  · apply closure_le hg le_rfl
    intro i hi
    exact absurd hi (SortedSet.not_mem_empty i)
  · exact SortedSet.empty_le _

/-- Goto, with the empty set where there is nowhere to go. -/
theorem closure_advanced (items : ItemSet) (x : Nat) :
    g.closure (.ofList (g.advanced items x)) = (g.goto items x).getD .empty := by
  unfold goto
  split
  · rename_i hadvanced
    rw [hadvanced]
    exact closure_empty hg
  · rfl

/-- Moving over a symbol distributes over unions, where nothing counts as the empty set. -/
theorem goto_union (s t : ItemSet) (x : Nat) :
    g.goto (s.union t) x = (g.goto s x).merge SortedSet.union (g.goto t x) := by
  -- Once nothing counts as the empty set, this is what closure does with a union.
  have hnone : g.goto (s.union t) x = none ↔ g.goto s x = none ∧ g.goto t x = none := by
    simp only [goto_eq_none_iff, SortedSet.mem_union, or_imp, forall_and]
  have hunion : (g.goto (s.union t) x).getD .empty
      = ((g.goto s x).getD .empty).union ((g.goto t x).getD .empty) := by
    have hadvanced : SortedSet.ofList (g.advanced (s.union t) x)
        = (SortedSet.ofList (g.advanced s x)).union (.ofList (g.advanced t x)) := by
      apply SortedSet.ext
      intro i
      simp only [SortedSet.mem_union, SortedSet.mem_ofList, mem_advanced, or_and_right, exists_or]
    rw [← closure_advanced hg, hadvanced, closure_union hg, closure_advanced hg,
      closure_advanced hg]
  cases hs : g.goto s x with
  | none =>
    cases ht : g.goto t x with
    | none => exact hnone.2 ⟨hs, ht⟩
    | some v =>
      obtain ⟨w, hw⟩ : ∃ w, g.goto (s.union t) x = some w := by
        rw [← Option.ne_none_iff_exists']
        simp [hnone, ht]
      simp_all [SortedSet.empty_union]
  | some u =>
    obtain ⟨w, hw⟩ : ∃ w, g.goto (s.union t) x = some w := by
      rw [← Option.ne_none_iff_exists']
      simp [hnone, hs]
    cases ht : g.goto t x with
    | none => simp_all [SortedSet.union_empty]
    | some v => simp_all

end Closure

end Grammar

/-! ## Section 2: The loop -/

/-- The items that are still to be looked at, the last one first, the nonterminals that
    have been expanded, and the items found. -/
structure Expansion where
  pending : List Item
  expanded : SortedSet Nat
  found : ItemSet

namespace Expansion

/-- All items are still to be looked at. -/
def start (items : ItemSet) : Expansion := ⟨items.toList.reverse, .empty, items⟩

/-- Finds an item, which is to be looked at if it is new. -/
def add (e : Expansion) (i : Item) : Expansion :=
  if i ∈ e.found then e else { e with pending := i :: e.pending, found := e.found.insert i }

/-- Finds the productions with the given numbers, their dots at the beginning. -/
def addAll (e : Expansion) (productions : List Nat) : Expansion :=
  productions.foldl (fun e n => e.add (.initial n)) e

/-- Looks at the next item. If a nonterminal stands after its dot that has not been
    expanded, its productions are found. -/
def step (g : Grammar) (e : Expansion) : Option Expansion :=
  match e.pending with
  | [] => none
  | i :: rest =>
    match i.nextSymbol g with
    | none => some { e with pending := rest }
    | some s =>
      if g.isTerminal s || s ∈ e.expanded then some { e with pending := rest }
      else some (addAll ⟨rest, e.expanded.insert s, e.found⟩ (g.productionsOf s))

/-! ## Section 3: One step -/

variable {g : Grammar} {e f : Expansion}

theorem mem_found_addAll {productions : List Nat} {i : Item} :
    i ∈ (e.addAll productions).found ↔ i ∈ e.found ∨ ∃ n ∈ productions, i = .initial n := by
  induction productions generalizing e with
  | nil => simp [addAll]
  | cons n rest ih =>
    have hadd : i ∈ (e.add (.initial n)).found ↔ i ∈ e.found ∨ i = .initial n := by
      unfold add
      split
      · rename_i hmem
        exact ⟨.inl, fun h => h.elim id fun h => h ▸ hmem⟩
      · rw [SortedSet.mem_insert, or_comm]
    change i ∈ ((e.add (.initial n)).addAll rest).found ↔ _
    rw [ih, hadd]
    simp [or_assoc]

theorem expanded_addAll {productions : List Nat} :
    (e.addAll productions).expanded = e.expanded := by
  induction productions generalizing e with
  | nil => rfl
  | cons n rest ih =>
    change ((e.add (.initial n)).addAll rest).expanded = _
    rw [ih]
    unfold add
    split <;> rfl

/-- New items are to be looked at, with those that were. -/
theorem mem_pending_addAll {productions : List Nat} {i : Item} :
    i ∈ (e.addAll productions).pending ↔
      i ∈ e.pending ∨ i ∈ (e.addAll productions).found ∧ i ∉ e.found := by
  induction productions generalizing e with
  | nil =>
    change i ∈ e.pending ↔ i ∈ e.pending ∨ i ∈ e.found ∧ i ∉ e.found
    simp
  | cons n rest ih =>
    change i ∈ ((e.add (.initial n)).addAll rest).pending ↔
      _ ∨ i ∈ ((e.add (.initial n)).addAll rest).found ∧ _
    rw [ih, mem_found_addAll]
    unfold add
    split
    · rfl
    · rename_i hnew
      simp only [List.mem_cons, SortedSet.mem_insert]
      by_cases hi : i = .initial n
      · simp [hi, hnew]
      · simp [hi]

/-- **What a step can do**: it passes over an item with nothing to expand, or it finds
    the productions of the nonterminal after the dot. -/
theorem step_cases (h : e.step g = some f) : ∃ i rest, e.pending = i :: rest ∧
    ((f = { e with pending := rest } ∧
        ∀ s, i.nextSymbol g = some s → g.isTerminal s = false → s ∈ e.expanded) ∨
      ∃ s, i.nextSymbol g = some s ∧
        f = addAll ⟨rest, e.expanded.insert s, e.found⟩ (g.productionsOf s)) := by
  unfold step at h
  split at h
  · simp at h
  · rename_i i rest hpending
    refine ⟨i, rest, hpending, ?_⟩
    split at h
    · rename_i hnext
      refine .inl ⟨(Option.some.inj h).symm, ?_⟩
      simp [hnext]
    · rename_i s hnext
      split at h
      · -- A terminal or a symbol that has been expanded adds nothing.
        rename_i hpassed
        refine .inl ⟨(Option.some.inj h).symm, ?_⟩
        intro t ht hnonterminal
        obtain rfl : s = t := Option.some.inj (hnext.symm.trans ht)
        simpa [hnonterminal] using hpassed
      · exact .inr ⟨s, hnext, (Option.some.inj h).symm⟩

/-- The loop stops when nothing is left to be looked at. -/
theorem step_eq_none_iff : e.step g = none ↔ e.pending = [] := by
  unfold step
  split
  · rename_i hpending
    simp [hpending]
  · rename_i hpending
    split <;> try split
    all_goals simp [hpending]

/-! ## Section 4: What the loop keeps -/

/-- The loop invariant: only items of the closure have been found, and a nonterminal
    after the dot of a found item has had its productions found unless that item is
    still to be looked at. -/
structure Expands (g : Grammar) (items : ItemSet) (e : Expansion) : Prop where
  sound : ∀ i ∈ e.found, g.InClosure items i
  items_le : items ≤ e.found
  found_of_pending : ∀ i ∈ e.pending, i ∈ e.found
  looked : ∀ i ∈ e.found, i ∉ e.pending → ∀ s, i.nextSymbol g = some s →
    g.isTerminal s = false → s ∈ e.expanded
  found_of_expanded : ∀ s ∈ e.expanded, ∀ n ∈ g.productionsOf s, .initial n ∈ e.found

theorem expands_start (items : ItemSet) : Expands g items (.start items) where
  sound _ hi := .base hi
  items_le := le_rfl
  found_of_pending i hi := by
    rw [Expansion.start, List.mem_reverse, ← SortedSet.mem_def] at hi
    exact hi
  looked i hi hlooked := by
    rw [Expansion.start, List.mem_reverse, ← SortedSet.mem_def] at hlooked
    exact absurd hi hlooked
  found_of_expanded s hs := absurd hs (SortedSet.not_mem_empty s)

theorem Expands.of_step {items : ItemSet} (he : Expands g items e) (h : e.step g = some f) :
    Expands g items f := by
  obtain ⟨i, rest, hpending, ⟨rfl, hpassed⟩ | ⟨s, hnext, rfl⟩⟩ := step_cases h
  · refine ⟨he.sound, he.items_le, ?_, ?_, he.found_of_expanded⟩
    · intro j hj
      exact he.found_of_pending j (hpending ▸ List.mem_cons_of_mem i hj)
    · intro j hj hlooked
      -- the item that was passed over, or one that had been looked at before
      by_cases hji : j = i
      · exact hji ▸ hpassed
      · exact he.looked j hj (by simp [hpending, hji, hlooked])
  · have hi : i ∈ e.found := he.found_of_pending i (by simp [hpending])
    refine ⟨?_, ?_, ?_, ?_, ?_⟩
    · intro j hj
      obtain hj | ⟨n, hn, rfl⟩ := mem_found_addAll.1 hj
      · exact he.sound j hj
      · exact .expand (he.sound i hi) hnext hn
    · intro j hj
      exact mem_found_addAll.2 (.inl (he.items_le j hj))
    · intro j hj
      obtain hj | ⟨hj, -⟩ := mem_pending_addAll.1 hj
      · have hmem : j ∈ e.pending := hpending ▸ List.mem_cons_of_mem i hj
        exact mem_found_addAll.2 (.inl (he.found_of_pending j hmem))
      · exact hj
    · intro j hj hlooked t ht hnonterminal
      rw [mem_pending_addAll, not_or, not_and_not_right] at hlooked
      rw [expanded_addAll, SortedSet.mem_insert]
      by_cases hji : j = i
      · exact .inl (Option.some.inj (ht.symm.trans (hji ▸ hnext)))
      · exact .inr (he.looked j (hlooked.2 hj) (by simp [hpending, hji, hlooked.1]) t ht
          hnonterminal)
    · intro t ht n hn
      rw [expanded_addAll, SortedSet.mem_insert] at ht
      obtain rfl | ht := ht
      · exact mem_found_addAll.2 (.inr ⟨n, hn, rfl⟩)
      · exact mem_found_addAll.2 (.inl (he.found_of_expanded t ht n hn))

/-- **At the end the closure has been found.** -/
theorem Expands.found_eq (hg : g.SymbolsExist) {items : ItemSet} (he : Expands g items e)
    (hend : e.step g = none) : e.found = g.closure items := by
  rw [step_eq_none_iff] at hend
  apply le_antisymm
  · intro i hi
    exact (Grammar.mem_closure hg).2 (he.sound i hi)
  · apply Grammar.closure_le hg he.items_le
    intro i hi n p hp hleft hnext
    have hexpanded : p.left ∈ e.expanded := he.looked i hi (by simp [hend]) p.left hnext hleft
    exact he.found_of_expanded p.left hexpanded n (Grammar.mem_productionsOf.2 ⟨hleft, p, hp, rfl⟩)

/-! ## Section 5: The loop ends -/

/-- The productions that have not been brought in. -/
def missing (g : Grammar) (e : Expansion) : Finset Nat :=
  (Finset.range g.productionCount).filter fun n => .initial n ∉ e.found

/-- How many items are still to be looked at, or to be found. -/
def toDo (g : Grammar) (e : Expansion) : Nat := e.pending.length + (missing g e).card

/-- An item that is found is one less to be found and one more to be looked at. -/
theorem toDo_addAll {productions : List Nat} (h : ∀ n ∈ productions, n < g.productionCount) :
    toDo g (e.addAll productions) = toDo g e := by
  induction productions generalizing e with
  | nil => rfl
  | cons n rest ih =>
    change toDo g ((e.add (.initial n)).addAll rest) = _
    rw [ih fun m hm => h m (List.mem_cons_of_mem n hm)]
    unfold add
    split
    · rfl
    · rename_i hnew
      have hmem : n ∈ missing g e := by
        simp [missing, hnew, h n List.mem_cons_self]
      -- A production that goes onto the stack is no longer one that is still to come.
      have herase : missing g { e with
          pending := .initial n :: e.pending, found := e.found.insert (.initial n) }
            = (missing g e).erase n := by
        ext m
        have hinj : Item.initial m = Item.initial n ↔ m = n := by simp [Item.initial]
        simp only [missing, Finset.mem_erase, Finset.mem_filter, SortedSet.mem_insert, hinj, not_or]
        exact and_left_comm
      simp only [toDo, herase, List.length_cons]
      have hcard := Finset.card_erase_add_one hmem
      omega

theorem toDo_lt (h : e.step g = some f) : toDo g f < toDo g e := by
  obtain ⟨i, rest, hpending, ⟨rfl, -⟩ | ⟨s, -, rfl⟩⟩ := step_cases h
  · simp [toDo, missing, hpending]
  · rw [toDo_addAll]
    · simp [toDo, missing, hpending]
    · intro n hn
      obtain ⟨-, p, hp, -⟩ := Grammar.mem_productionsOf.1 hn
      exact (Array.getElem?_eq_some_iff.1 hp).1

/-- The loop on some items comes to an end, with the given items found. -/
def Finds (g : Grammar) (items found : ItemSet) : Prop :=
  ∃ e, Relation.ReflTransGen (fun e f => step g e = some f) (start items) e ∧
    e.step g = none ∧ e.found = found

/-- Whatever is expanded, the loop comes to its end. -/
theorem exists_end (g : Grammar) (e : Expansion) :
    ∃ f, Relation.ReflTransGen (fun e f => step g e = some f) e f ∧ f.step g = none := by
  induction hmeasure : toDo g e using Nat.strongRecOn generalizing e with
  | ind _ ih =>
    cases hstep : e.step g with
    | none => exact ⟨e, .refl, hstep⟩
    | some f =>
      obtain ⟨r, hr, hend⟩ := ih (toDo g f) (hmeasure ▸ toDo_lt hstep) f rfl
      exact ⟨r, .head hstep hr, hend⟩

theorem expands_of_steps {items : ItemSet}
    (h : Relation.ReflTransGen (fun e f => step g e = some f) (start items) e) :
    Expands g items e := by
  induction h with
  | refl => exact expands_start items
  | tail _ hstep ih => exact ih.of_step hstep

/-- **The loop finds the closure.** -/
theorem finds_closure (hg : g.SymbolsExist) (items : ItemSet) :
    Finds g items (g.closure items) := by
  obtain ⟨e, hsteps, hend⟩ := exists_end g (start items)
  exact ⟨e, hsteps, hend, (expands_of_steps hsteps).found_eq hg hend⟩

end Expansion

/-! ## Section 6: The operator -/

namespace Grammar

/-- **Closure is a closure operator, and goto distributes over unions**, whatever the
    items and wherever their dots. The loop on a stack ends and finds the closure. -/
theorem closure_operator {g : Grammar} (hg : g.SymbolsExist) :
    (∀ items : ItemSet, Expansion.Finds g items (g.closure items) ∧
      IsLeast {s : ItemSet | items ≤ s ∧ g.Complete s} (g.closure items)) ∧
    (∀ items : ItemSet, g.closure (g.closure items) = g.closure items) ∧
    Monotone g.closure ∧
    (∀ s t : ItemSet, g.closure (s.union t) = (g.closure s).union (g.closure t)) ∧
    ∀ (s t : ItemSet) (x : Nat),
      g.goto (s.union t) x = (g.goto s x).merge SortedSet.union (g.goto t x) :=
  ⟨fun items => ⟨Expansion.finds_closure hg items, isLeast_closure hg items⟩, closure_closure hg,
    closure_mono hg, closure_union hg, goto_union hg⟩

/-- Two nonterminals that begin with each other, one of which may be empty, and a
    production whose left side is the terminal `'y'`. That one is never brought in, but
    its own item, with the dot inside, is kept. -/
theorem closure_operator_mutual :
    ∃ g h : Grammar, parse "%% a : a 'x' | b 'y' ; b : a | ; %%" = .ok g ∧
      h = g.addProduction ⟨3, [6, 3], none, none⟩ ∧ h.SymbolsExist ∧
      [2, 3, 5, 6].map h.symbolName = ["'x'", "'y'", "a", "b"] ∧
      h.closure (.ofList [⟨3, 0⟩, ⟨5, 1⟩]) = .ofList [⟨1, 0⟩, ⟨2, 0⟩, ⟨3, 0⟩, ⟨4, 0⟩, ⟨5, 1⟩] ∧
      Expansion.Finds h (.ofList [⟨3, 0⟩, ⟨5, 1⟩])
        (.ofList [⟨1, 0⟩, ⟨2, 0⟩, ⟨3, 0⟩, ⟨4, 0⟩, ⟨5, 1⟩]) ∧
      h.goto (.singleton ⟨5, 1⟩) 5 = none ∧
      h.goto ((SortedSet.singleton ⟨3, 0⟩).union (.singleton ⟨5, 1⟩)) 5
        = some (.singleton ⟨3, 1⟩) := by
  have hfacts : (parse "%% a : a 'x' | b 'y' ; b : a | ; %%").map (fun g => decide (
      g.symbolCount = 7 ∧
      [2, 3, 5, 6].map (g.addProduction ⟨3, [6, 3], none, none⟩).symbolName
        = ["'x'", "'y'", "a", "b"] ∧
      (g.addProduction ⟨3, [6, 3], none, none⟩).closure (.ofList [⟨3, 0⟩, ⟨5, 1⟩])
        = .ofList [⟨1, 0⟩, ⟨2, 0⟩, ⟨3, 0⟩, ⟨4, 0⟩, ⟨5, 1⟩] ∧
      (g.addProduction ⟨3, [6, 3], none, none⟩).goto (.singleton ⟨3, 0⟩) 5
        = some (.singleton ⟨3, 1⟩) ∧
      (g.addProduction ⟨3, [6, 3], none, none⟩).goto (.singleton ⟨5, 1⟩) 5 = none)) = .ok true := by
    decide +kernel
  obtain ⟨g, hparse, hcount, hnames, hclosure, hmoves, hstays⟩ := exists_of_map_decide hfacts
  have hsymbols := (wellFormed_of_parse hparse).symbolsExist.addProduction
    (q := ⟨3, [6, 3], none, none⟩) (by simp [hcount]) (by simp [hcount])
  obtain ⟨hfinds, -, -, -, hgoto⟩ := closure_operator hsymbols
  refine ⟨g, _, hparse, rfl, hsymbols, hnames, hclosure, ?_, hstays, ?_⟩
  · have hfound := (hfinds (.ofList [⟨3, 0⟩, ⟨5, 1⟩])).1
    rwa [hclosure] at hfound
  · rw [hgoto, hmoves, hstays]
    rfl

end Grammar

end SlrCompiler
