import SlrCompiler.Proofs.Automaton.ViablePrefix
import SlrCompiler.Proofs.Grammar.Derivation
import SlrCompiler.Proofs.Grammar.Resolution

/-! # Valid items

    An item is valid for a string of symbols if a rightmost derivation from
    `$accept` passes through the string: it ends with the left side of the item
    before terminals, and what stands before the left side, together with what
    stands before the dot, is the string.

    Reading and validity are the same (`reads_iff_validItem`) as long as every
    nonterminal derives some terminals. Without that, the symbols after a dot
    need not lead to terminals, and a rightmost derivation cannot get past them.

    With the subset construction this is the main theorem on the automaton:
    `mem_items_iff_validItem`.
-/

namespace SlrCompiler

namespace Grammar

variable (g : Grammar)

/-! ## Section 1: Definitions -/

/-- Some rightmost derivation goes from `$accept` to `δ A w`, where `A` is the
    left side of the item and `w` consists of terminals, and the given string
    is `δ` followed by the symbols before the dot. -/
def ValidItem (γ : List Nat) (i : Item) : Prop :=
  ∃ (p : Production) (δ w : List Nat), g.productions[i.production]? = some p ∧
    i.position ≤ p.right.length ∧ g.AllTerminal w ∧
    g.DerivesRightmost [g.acceptSymbol] (δ ++ p.left :: w) ∧ γ = δ ++ p.right.take i.position

/-- Every nonterminal derives some string of terminals. -/
def Productive : Prop :=
  ∀ s < g.symbolCount, g.isTerminal s = false → ∃ w, g.AllTerminal w ∧ g.Derives [s] w

variable {g}

/-! ## Section 2: What a rightmost derivation passes is read -/

/-- A nonterminal of a string that `$accept` derives is expected once all that
    stands before it has been read. -/
theorem WellFormed.reads_of_derivesRightmost (h : g.WellFormed) {φ : List Nat}
    (hφ : g.DerivesRightmost [g.acceptSymbol] φ) {δ z : List Nat} {s n : Nat}
    (hsplit : φ = δ ++ s :: z) (hn : n ∈ g.productionsOf s) :
    g.Reads δ.reverse (.initial n) := by
  -- The symbol is traced back to the step that put it into the string.
  induction hφ generalizing δ z s n with
  | refl =>
    obtain ⟨-, q, hq, rfl⟩ := mem_productionsOf.1 hn
    cases δ with
    | cons x δ => simp at hsplit
    | nil =>
      obtain rfl : n = 0 := h.eq_zero_of_left hq (List.cons.inj hsplit).1.symm
      exact .start
  | tail _ hstep ih =>
    obtain ⟨i, p, before, after, hp, hafter, rfl, rfl⟩ := hstep
    rcases eq_of_append_eq_append_cons hsplit with
      ⟨x, rfl, -⟩ | ⟨α, β, hright, rfl, -⟩ | ⟨x, rfl, -⟩
    · exact ih (List.append_assoc δ (s :: x) _) hn
    · -- It stands in the right side, and the dot moves over what is before it.
      have hexpanded := ih rfl (h.mem_productionsOf_left hp)
      have hmoved := hexpanded.advance_to hp (k := α.length) (by simp [hright])
      have hnext : (Item.mk i α.length).nextSymbol g = some s := by
        simp [Item.nextSymbol, rightSide_eq hp, hright]
      simpa [hright] using hmoved.expand hnext hn
    · -- What stands after the expanded symbol is terminal.
      have hterminal := hafter s (by simp)
      obtain ⟨hs, -⟩ := mem_productionsOf.1 hn
      simp [hs] at hterminal

theorem WellFormed.reads_of_validItem (h : g.WellFormed) {γ : List Nat} {i : Item}
    (hi : g.ValidItem γ i) : g.Reads γ.reverse i := by
  obtain ⟨p, δ, w, hp, hle, -, hderives, rfl⟩ := hi
  have hexpected := h.reads_of_derivesRightmost hderives rfl (h.mem_productionsOf_left hp)
  rw [List.reverse_append]
  exact hexpected.advance_to hp hle

/-! ## Section 3: What is read is passed by a rightmost derivation -/

/-- In a productive grammar every string derives some terminals. -/
theorem Productive.exists_derivesRightmost (h : g.Productive) {φ : List Nat}
    (hφ : ∀ s ∈ φ, s < g.symbolCount) : ∃ w, g.AllTerminal w ∧ g.DerivesRightmost φ w := by
  have hderives : ∃ w, g.AllTerminal w ∧ g.Derives φ w := by
    apply exists_derives_of_forall
    intro s hs
    by_cases hterminal : g.isTerminal s = true
    · exact ⟨[s], by simpa [AllTerminal] using hterminal, .refl⟩
    · exact h s (hφ s hs) (by simpa using hterminal)
  obtain ⟨w, hw, hφw⟩ := hderives
  exact ⟨w, hw, hφw.yields.derivesRightmost hw⟩

/-- The dot of a valid item moves over the next symbol of a longer string. -/
theorem ValidItem.advance {γ : List Nat} {i : Item} {s : Nat} (h : g.ValidItem γ i)
    (hs : i.nextSymbol g = some s) : g.ValidItem (γ ++ [s]) i.advance := by
  obtain ⟨p, δ, w, hp, -, hw, hderives, rfl⟩ := h
  rw [Item.nextSymbol, rightSide_eq hp] at hs
  obtain ⟨hlt, -⟩ := List.getElem?_eq_some_iff.1 hs
  refine ⟨p, δ, w, hp, hlt, hw, hderives, ?_⟩
  rw [Item.position_advance, List.take_add_one, hs, Option.toList_some, List.append_assoc]

/-- A valid item passes validity on to the productions that it expects: what
    comes after the expected symbol is derived down to terminals first. -/
theorem ValidItem.expand (hg : g.SymbolsExist) (hproductive : g.Productive) {γ : List Nat}
    {i : Item} {s n : Nat} (h : g.ValidItem γ i) (hs : i.nextSymbol g = some s)
    (hn : n ∈ g.productionsOf s) : g.ValidItem γ (.initial n) := by
  obtain ⟨p, δ, w, hp, -, hw, hderives, rfl⟩ := h
  obtain ⟨-, q, hq, rfl⟩ := mem_productionsOf.1 hn
  rw [Item.nextSymbol, rightSide_eq hp] at hs
  obtain ⟨hlt, heq⟩ := List.getElem?_eq_some_iff.1 hs
  have hright : p.right = p.right.take i.position ++ q.left :: p.right.drop (i.position + 1) := by
    rw [← heq, List.getElem_cons_drop, List.take_append_drop]
  obtain ⟨v, hv, htail⟩ := hproductive.exists_derivesRightmost
    fun x (hx : x ∈ p.right.drop (i.position + 1)) => (hg _ p hp).2 x (List.mem_of_mem_drop hx)
  have hexpanded : g.DerivesRightmost [g.acceptSymbol] (δ ++ p.right ++ w) :=
    Relation.ReflTransGen.tail hderives ⟨i.production, p, δ, w, hp, hw, rfl, rfl⟩
  have hrest := htail.context (δ ++ p.right.take i.position ++ [q.left]) hw
  refine ⟨q, δ ++ p.right.take i.position, v ++ w, hq, Nat.zero_le _, hv.append hw, ?_, by simp⟩
  rw [hright] at hexpanded
  have hwhole := hexpanded.trans (by simpa using hrest)
  simpa using hwhole

theorem WellFormed.validItem_of_reads (h : g.WellFormed) (hproductive : g.Productive)
    {γ : List Nat} {i : Item} (hi : g.Reads γ i) : g.ValidItem γ.reverse i := by
  induction hi with
  | start =>
    obtain ⟨p, hp, hleft, -⟩ := h.augmenting
    refine ⟨p, [], [], hp, Nat.zero_le _, .nil, ?_, by simp⟩
    rw [hleft]
    exact .refl
  | expand _ hnext hn ih => exact ih.expand h.symbolsExist hproductive hnext hn
  | advance _ hnext ih =>
    rw [List.reverse_cons]
    exact ih.advance hnext

/-- **Validity is reading** in a productive grammar. -/
theorem WellFormed.reads_iff_validItem (h : g.WellFormed) (hproductive : g.Productive)
    {γ : List Nat} {i : Item} : g.Reads γ.reverse i ↔ g.ValidItem γ i := by
  refine ⟨fun hi => ?_, h.reads_of_validItem⟩
  simpa using h.validItem_of_reads hproductive hi

/-! ## Section 4: The main theorem -/

/-- **LR(0) main theorem**: in the automaton of a productive grammar a string
    spells a path exactly if some item is valid for it, and the state at the end
    of the path holds the items that are valid for it. -/
theorem mem_items_iff_validItem {spec : String} (hparse : parse spec = .ok g)
    (hproductive : g.Productive) (γ : List Nat) :
    ((∃ s, g.automaton.follow γ = some s) ↔ ∃ i, g.ValidItem γ i) ∧
      ∀ s, g.automaton.follow γ = some s →
        ∃ st, g.automaton.states[s]? = some st ∧ ∀ i, i ∈ st.items ↔ g.ValidItem γ i := by
  have h := wellFormed_of_parse hparse
  have hcanonical := canonical_automaton h.symbolsExist h.productionCount_pos
  have hreverse : γ = γ.reverse.reverse := by rw [List.reverse_reverse]
  constructor
  · have hiff : (∃ s, g.automaton.follow γ.reverse.reverse = some s) ↔ ∃ i, g.Reads γ.reverse i :=
      hcanonical.exists_follow_iff h.symbolsExist
    rw [← hreverse] at hiff
    rw [hiff]
    simp only [h.reads_iff_validItem hproductive]
  · intro s hs
    rw [hreverse] at hs
    obtain ⟨st, hst, hitems⟩ := hcanonical.mem_items_iff_reads h.symbolsExist hs
    refine ⟨st, hst, fun i => ?_⟩
    rw [hitems, h.reads_iff_validItem hproductive]

/-- Left recursion, an empty rule and nesting, after the symbols `s 'a' s`. -/
theorem mem_items_iff_validItem_nested :
    ∃ g, parse "%% s : s t | ; t : 'a' s 'b' ; %%" = .ok g ∧ g.Productive ∧
      (∃ i, g.ValidItem [5, 2, 5] i) ∧
      ∃ s st, g.automaton.follow [5, 2, 5] = some s ∧ g.automaton.states[s]? = some st ∧
        ∀ i, i ∈ st.items ↔ g.ValidItem [5, 2, 5] i := by
  have hfacts : (parse "%% s : s t | ; t : 'a' s 'b' ; %%").map (fun g => decide
      (g.symbolCount = 7 ∧ g.terminalCount = 4 ∧
        g.productions.toList.map (fun p => (p.left, p.right))
          = [(4, [5]), (5, [5, 6]), (5, []), (6, [2, 5, 3])] ∧
        g.automaton.follow [5, 2, 5] = some 4)) = .ok true := by
    decide +kernel
  obtain ⟨g, hparse, hg⟩ := map_eq_ok_iff.1 hfacts
  obtain ⟨hsymbols, hterminals, hproductions, hfollow⟩ := of_decide_eq_true hg
  have hrule : ∀ left right,
      (left, right) ∈ g.productions.toList.map (fun p => (p.left, p.right)) →
        g.Derives [left] right :=
    fun _ _ => .of_mem_sides
  rw [hproductions] at hrule
  have hs : g.Derives [5] [] := hrule 5 [] (by decide)
  have haccept : g.Derives [4] [] := (hrule 4 [5] (by decide)).trans hs
  have ht : g.Derives [6] [2, 3] := (hrule 6 [2, 5, 3] (by decide)).trans (hs.context [2] [3])
  have hproductive : g.Productive := by
    intro x hx hnonterminal
    have hlow : 4 ≤ x := by simpa [isTerminal, hterminals] using hnonterminal
    obtain rfl | rfl | rfl : x = 4 ∨ x = 5 ∨ x = 6 := by omega
    · exact ⟨[], .nil, haccept⟩
    · exact ⟨[], .nil, hs⟩
    · exact ⟨[2, 3], by simp [AllTerminal, isTerminal, hterminals], ht⟩
  obtain ⟨hpath, hitems⟩ := mem_items_iff_validItem hparse hproductive [5, 2, 5]
  obtain ⟨st, hst, hvalid⟩ := hitems 4 hfollow
  exact ⟨g, hparse, hproductive, hpath.1 ⟨4, hfollow⟩, 4, st, hfollow, hst, hvalid⟩

end Grammar

end SlrCompiler
