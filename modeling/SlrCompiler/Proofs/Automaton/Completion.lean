import SlrCompiler.Proofs.Automaton.ValidItems

/-! # Completing what has been read

    A parser that has read a string of symbols can still come to accept if some
    terminals complete the string: they are read, and right sides are closed to
    their left sides, until nothing but the start symbol is left
    (`Completes`). These are the moves of a rightmost derivation backwards, with
    the string of read symbols last symbol first, like the stack of a parser.

    Only strings that read some item can be completed (`Completes.exists_reads`),
    and in a productive grammar all of them can (`exists_completes_of_reads`).
-/

namespace SlrCompiler

namespace Grammar

variable (g : Grammar)

/-! ## Section 1: Definition -/

/-- Reading the terminals, and closing right sides in between, leads from the
    symbols that have been read, the last of them first, to the start symbol. -/
inductive Completes : List Nat → List Nat → Prop
  | done : Completes [g.startSymbol] []
  | read {γ z : List Nat} {x : Nat} : g.isTerminal x = true → Completes (x :: γ) z →
      Completes γ (x :: z)
  | close {γ z : List Nat} {n : Nat} {p : Production} : g.productions[n]? = some p → n ≠ 0 →
      Completes (p.left :: γ) z → Completes (p.right.reverse ++ γ) z

variable {g}

/-! ## Section 2: What can be completed -/

theorem Completes.allTerminal {γ z : List Nat} (h : g.Completes γ z) : g.AllTerminal z := by
  induction h with
  | done => exact .nil
  | read hx _ ih =>
    intro s hs
    rcases List.mem_cons.1 hs with rfl | hs
    · exact hx
    · exact ih s hs
  | close _ _ _ ih => exact ih

/-- What has been read and what completes it are derived from the start symbol. -/
theorem Completes.derives {γ z : List Nat} (h : g.Completes γ z) :
    g.Derives [g.startSymbol] (γ.reverse ++ z) := by
  induction h with
  | done => exact .refl
  | read _ _ ih => simpa using ih
  | @close γ z n p hp _ _ ih =>
    have hclosed : g.Derives ((p.left :: γ).reverse ++ z) ((p.right.reverse ++ γ).reverse ++ z) := by
      simpa using (Derives.of_production hp).context γ.reverse z
    exact ih.trans hclosed

/-- What can be completed reads an item: it is read on the way, and then closed. -/
theorem Completes.exists_reads (hg : g.WellFormed) {γ z : List Nat} (h : g.Completes γ z) :
    ∃ i, g.Reads γ i := by
  induction h with
  | done =>
    have hnext : (Item.initial 0).nextSymbol g = some g.startSymbol := by
      rw [Item.nextSymbol, Item.production_initial, hg.rightSide_zero]
      rfl
    exact ⟨_, Reads.start.advance hnext⟩
  | read _ _ ih =>
    obtain ⟨i, hi⟩ := ih
    obtain ⟨j, hj, -⟩ := hi.exists_expecting
    exact ⟨j, hj⟩
  | @close γ z n p hp _ _ ih =>
    obtain ⟨i, hi⟩ := ih
    exact ⟨_, (hg.reads_initial hi hp).advance_to_end hp⟩

/-! ## Section 3: Completions of what is read -/

/-- Instead of some symbols the terminals that they yield can be read. -/
theorem Completes.of_yields (hg : g.WellFormed) {φ w : List Nat} (hw : g.Yields φ w)
    (hterminal : g.AllTerminal w) (haccept : g.acceptSymbol ∉ φ) {γ z : List Nat}
    (h : g.Completes (φ.reverse ++ γ) z) : g.Completes γ (w ++ z) := by
  -- Along the forest, for any string before it and any completion behind it.
  induction hw generalizing γ z with
  | nil => exact h
  | @keep s φ w _ ih =>
    have htail : g.Completes (φ.reverse ++ s :: γ) z := by simpa using h
    have hrest := ih (fun x hx => hterminal x (List.mem_cons_of_mem s hx))
      (fun hmem => haccept (List.mem_cons_of_mem s hmem)) htail
    exact .read (hterminal s List.mem_cons_self) hrest
  | @expand n p φ v w hp _ _ ihright ih =>
    -- The symbols behind are read first; then the right side is put in and read.
    have htail : g.Completes (φ.reverse ++ p.left :: γ) z := by simpa using h
    have hrest := ih hterminal.right (fun hmem => haccept (List.mem_cons_of_mem p.left hmem)) htail
    have hn : n ≠ 0 := hg.ne_zero_of_left hp fun heq => haccept (heq ▸ List.mem_cons_self)
    rw [List.append_assoc]
    exact ihright hterminal.left (hg.acceptSymbol_notMem hp) (.close hp hn hrest)

/-- What an item still expects begins with the symbol after its dot. -/
theorem Item.drop_of_nextSymbol {i : Item} {s : Nat} (h : i.nextSymbol g = some s) :
    (g.rightSide i.production).drop i.position
      = s :: (g.rightSide i.production).drop (i.position + 1) := by
  obtain ⟨hlt, heq⟩ := List.getElem?_eq_some_iff.1 h
  rw [← heq, List.getElem_cons_drop]

section Productive

variable (hg : g.WellFormed) (hproductive : g.Productive)
include hg hproductive

/-- Terminals can be read instead of the last symbols of a right side. -/
theorem exists_completes_of_drop {n k : Nat} {γ z : List Nat}
    (h : g.Completes (((g.rightSide n).drop k).reverse ++ γ) z) : ∃ w, g.Completes γ w := by
  have hsymbols : ∀ s ∈ (g.rightSide n).drop k, s < g.symbolCount ∧ s ≠ g.acceptSymbol :=
    fun s hs => hg.of_mem_rightSide (List.mem_of_mem_drop hs)
  obtain ⟨w, hw, hderives⟩ := hproductive.exists_derivesRightmost fun s hs => (hsymbols s hs).1
  have haccept : g.acceptSymbol ∉ (g.rightSide n).drop k := fun hmem => (hsymbols _ hmem).2 rfl
  exact ⟨w ++ z, .of_yields hg hderives.derives.yields hw haccept h⟩

/-- Once all that an item expects has been read, the string can be completed. -/
theorem exists_completes_of_whole {γ : List Nat} {i : Item} (h : g.Reads γ i) :
    ∃ z, g.Completes (((g.rightSide i.production).drop i.position).reverse ++ γ) z := by
  induction h with
  | start => exact ⟨[], by simpa [hg.rightSide_zero] using Completes.done (g := g)⟩
  | @expand γ i s n _ hnext hn ih =>
    obtain ⟨z, hz⟩ := ih
    obtain ⟨-, p, hp, rfl⟩ := mem_productionsOf.1 hn
    rw [Item.drop_of_nextSymbol hnext, List.reverse_cons, List.append_assoc,
      List.singleton_append] at hz
    -- The right side is closed, and terminals are read for what comes behind it.
    obtain ⟨w, hw⟩ := exists_completes_of_drop hg hproductive hz
    refine ⟨w, ?_⟩
    rw [Item.production_initial, Item.position_initial, rightSide_eq hp, List.drop_zero]
    exact .close hp (hg.ne_zero_of_expected hnext hn) hw
  | advance _ hnext ih =>
    obtain ⟨z, hz⟩ := ih
    rw [Item.drop_of_nextSymbol hnext] at hz
    exact ⟨z, by simpa using hz⟩

/-- **Completion**: in a productive grammar whatever reads an item can be
    completed. -/
theorem exists_completes_of_reads {γ : List Nat} {i : Item} (h : g.Reads γ i) :
    ∃ z, g.Completes γ z := by
  obtain ⟨z, hz⟩ := exists_completes_of_whole hg hproductive h
  exact exists_completes_of_drop hg hproductive hz

end Productive

/-! ## Section 4: Productive grammars by rank -/

variable (g) in
/-- Each nonterminal has a production with nothing but terminals and nonterminals
    of lower rank in its right side. -/
def RankedBy (rank : Nat → Nat) : Prop :=
  ∀ s < g.symbolCount, g.isTerminal s = false → ∃ p ∈ g.productions.toList, p.left = s ∧
    ∀ x ∈ p.right, g.isTerminal x = true ∨ x < g.symbolCount ∧ rank x < rank s

instance (rank : Nat → Nat) : Decidable (g.RankedBy rank) :=
  inferInstanceAs (Decidable (∀ s < g.symbolCount, g.isTerminal s = false →
    ∃ p ∈ g.productions.toList, p.left = s ∧
      ∀ x ∈ p.right, g.isTerminal x = true ∨ x < g.symbolCount ∧ rank x < rank s))

/-- A grammar whose nonterminals can be ranked like that is productive. -/
theorem RankedBy.productive {rank : Nat → Nat} (h : g.RankedBy rank) : g.Productive := by
  intro s hs hnonterminal
  induction hrank : rank s using Nat.strongRecOn generalizing s with
  | ind n ih =>
    obtain ⟨p, hp, rfl, hright⟩ := h s hs hnonterminal
    obtain ⟨i, hi⟩ := Array.mem_iff_getElem?.1 (Array.mem_toList_iff.1 hp)
    obtain ⟨w, hw, hderives⟩ : ∃ w, g.AllTerminal w ∧ g.Derives p.right w := by
      apply exists_derives_of_forall
      intro x hx
      by_cases hterminal : g.isTerminal x = true
      · exact ⟨[x], by simpa [AllTerminal] using hterminal, .refl⟩
      · obtain ⟨hlt, hlower⟩ := (hright x hx).resolve_left hterminal
        exact ih (rank x) (hrank ▸ hlower) x hlt (by simpa using hterminal) rfl
    exact ⟨w, hw, (Derives.of_production hi).trans hderives⟩

end Grammar

end SlrCompiler
