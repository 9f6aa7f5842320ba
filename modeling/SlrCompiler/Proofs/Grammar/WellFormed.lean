import Mathlib.Data.List.Nodup
import SlrCompiler.Grammar.Basic

/-! # Well-formed grammars

    What the later stages rely on without checking it: productions speak of
    existing symbols, production 0 is the only one that expands `$accept`, and
    neither `$accept` nor `$end` stands in a right side.

    `SymbolsExist` alone is all that the automaton needs, and it is kept when a
    production over existing symbols is added.
-/

namespace SlrCompiler

namespace Grammar

variable (g : Grammar)

/-! ## Section 1: The invariant -/

/-- Productions use symbols of the grammar only. -/
def SymbolsExist : Prop :=
  ∀ (i : Nat) (p : Production), g.productions[i]? = some p →
    p.left < g.symbolCount ∧ ∀ s ∈ p.right, s < g.symbolCount

/-- The shape of a grammar whose names have been resolved. -/
structure WellFormed : Prop where
  /-- Productions use existing symbols. -/
  symbolsExist : g.SymbolsExist
  /-- Only nonterminals are expanded. -/
  left_nonterminal : ∀ {i : Nat} {p : Production}, g.productions[i]? = some p →
    g.isTerminal p.left = false
  /-- Production 0 leads from `$accept` to the start symbol. -/
  augmenting : ∃ p : Production, g.productions[0]? = some p ∧ p.left = g.acceptSymbol ∧
    p.right = [g.startSymbol]
  /-- No other production expands `$accept`. -/
  eq_zero_of_left : ∀ {i : Nat} {p : Production}, g.productions[i]? = some p →
    p.left = g.acceptSymbol → i = 0
  /-- `$accept` is in no right side. -/
  acceptSymbol_notMem : ∀ {i : Nat} {p : Production}, g.productions[i]? = some p →
    g.acceptSymbol ∉ p.right
  /-- `$end` is in no right side. -/
  endMark_notMem : ∀ {i : Nat} {p : Production}, g.productions[i]? = some p →
    g.endMark ∉ p.right
  /-- `$end` is a terminal, known by its name. -/
  endMark_name : ∃ t : Terminal, g.terminals[g.endMark]? = some t ∧ t.name = endName
  /-- Terminals are told apart by their names. -/
  terminalNames_nodup : (g.terminals.toList.map Terminal.name).Nodup
  /-- The left sides of empty productions are recorded. -/
  mem_epsilon : ∀ s, s ∈ g.epsilon ↔
    ∃ (i : Nat) (p : Production), g.productions[i]? = some p ∧ p.left = s ∧ p.right = []

/-- The production has the given left and right side, and none before it has. -/
def FirstWith (left : Nat) (right : List Nat) (rule : Nat) : Prop :=
  (∃ p : Production, g.productions[rule]? = some p ∧ p.left = left ∧ p.right = right) ∧
    ∀ (j : Nat) (q : Production), j < rule → g.productions[j]? = some q →
      ¬ (q.left = left ∧ q.right = right)

variable {g}

/-! ## Section 2: Symbols and productions by number -/

theorem isTerminal_iff {s : Nat} : g.isTerminal s = true ↔ s < g.terminalCount := by
  simp [isTerminal]

theorem rightSide_eq {i : Nat} {p : Production} (h : g.productions[i]? = some p) :
    g.rightSide i = p.right := by
  simp [rightSide, h]

theorem mem_productionsOf {i s : Nat} :
    i ∈ g.productionsOf s
      ↔ g.isTerminal s = false ∧ ∃ p, g.productions[i]? = some p ∧ p.left = s := by
  unfold productionsOf
  split
  · rename_i hs
    simp [hs]
  · rename_i hs
    simp only [Bool.not_eq_true] at hs
    simp only [List.mem_filter, List.mem_range, productionCount, Option.any_eq_true, beq_iff_eq,
      hs, true_and]
    constructor
    · intro h
      obtain ⟨-, p, hp, hleft⟩ := h
      exact ⟨p, hp, hleft⟩
    · intro h
      obtain ⟨p, hp, hleft⟩ := h
      exact ⟨(Array.getElem?_eq_some_iff.1 hp).1, p, hp, hleft⟩

/-- The production that is found by its symbols is the first that has them. -/
theorem matchProduction_eq_some_iff {left : Nat} {right : List Nat} {rule : Nat} :
    g.matchProduction left right = some rule ↔ g.FirstWith left right rule := by
  simp only [matchProduction, Array.findIdx?_eq_some_iff_getElem, Bool.and_eq_true, beq_iff_eq]
  constructor
  · intro h
    obtain ⟨hlt, hsymbols, hbefore⟩ := h
    refine ⟨⟨_, Array.getElem?_eq_getElem hlt, hsymbols⟩, fun j q hj hq => ?_⟩
    obtain ⟨hlt', rfl⟩ := Array.getElem?_eq_some_iff.1 hq
    exact hbefore j hj
  · intro h
    obtain ⟨⟨p, hp, hsymbols⟩, hbefore⟩ := h
    obtain ⟨hlt, rfl⟩ := Array.getElem?_eq_some_iff.1 hp
    refine ⟨hlt, hsymbols, fun j hj => ?_⟩
    exact hbefore j _ hj (Array.getElem?_eq_getElem (Nat.lt_trans hj hlt))

/-- The symbols of a production are found. -/
theorem exists_matchProduction {n : Nat} {p : Production} (hp : g.productions[n]? = some p) :
    ∃ rule, g.matchProduction p.left p.right = some rule := by
  rw [← Option.isSome_iff_exists, matchProduction, Array.findIdx?_isSome, Array.any_eq_true']
  exact ⟨p, Array.mem_of_getElem? hp, by simp⟩

/-- The symbol at a position of a right side exists. -/
theorem SymbolsExist.lt_of_rightSide (h : g.SymbolsExist) {i k s : Nat}
    (hs : (g.rightSide i)[k]? = some s) : s < g.symbolCount := by
  cases hp : g.productions[i]? with
  | none => simp [rightSide, hp] at hs
  | some p =>
    rw [rightSide_eq hp] at hs
    exact (h i p hp).2 s (List.mem_of_getElem? hs)

/-- Adding a production over existing symbols leaves all symbols existing. -/
theorem SymbolsExist.addProduction (h : g.SymbolsExist) {q : Production}
    (hleft : q.left < g.symbolCount) (hright : ∀ s ∈ q.right, s < g.symbolCount) :
    (g.addProduction q).SymbolsExist := by
  intro i p hp
  simp only [Grammar.addProduction, Array.getElem?_push] at hp
  split at hp
  · simp only [Option.some.injEq] at hp
    subst hp
    exact ⟨hleft, hright⟩
  · exact h i p hp

/-! ## Section 3: Consequences -/

namespace WellFormed

variable (h : g.WellFormed)
include h

theorem endMark_terminal : g.isTerminal g.endMark = true := by
  obtain ⟨t, ht, -⟩ := h.endMark_name
  have := (Array.getElem?_eq_some_iff.1 ht).1
  simp [isTerminal, terminalCount, this]

/-- Terminals with the same name are the same. -/
theorem eq_of_symbolName_eq {i j : Nat} (hi : g.isTerminal i = true) (hj : g.isTerminal j = true)
    (hname : g.symbolName i = g.symbolName j) : i = j := by
  have hi' : i < g.terminals.size := isTerminal_iff.1 hi
  have hj' : j < g.terminals.size := isTerminal_iff.1 hj
  rw [symbolName, symbolName, Array.getElem?_eq_getElem hi', Array.getElem?_eq_getElem hj']
    at hname
  refine (List.getElem?_inj (by simpa using hi') h.terminalNames_nodup).1 ?_
  simp [hi', hj', hname]

theorem symbolName_endMark : g.symbolName g.endMark = endName := by
  obtain ⟨t, ht, hname⟩ := h.endMark_name
  rw [symbolName, ht]
  exact hname

theorem startSymbol_ne_acceptSymbol : g.startSymbol ≠ g.acceptSymbol := by
  obtain ⟨p, hp, -, hright⟩ := h.augmenting
  intro heq
  have hnot := h.acceptSymbol_notMem hp
  simp [hright, heq] at hnot

theorem startSymbol_lt : g.startSymbol < g.symbolCount := by
  obtain ⟨p, hp, -, hright⟩ := h.augmenting
  exact (h.symbolsExist 0 p hp).2 _ (by simp [hright])

/-- A production with another left side than `$accept` is not the augmenting one. -/
theorem ne_zero_of_left {i : Nat} {p : Production} (hp : g.productions[i]? = some p)
    (hleft : p.left ≠ g.acceptSymbol) : i ≠ 0 := by
  intro hzero
  subst hzero
  obtain ⟨q, hq, haccept, -⟩ := h.augmenting
  obtain rfl := Option.some.inj (hp.symm.trans hq)
  exact hleft haccept

/-- The production that has the symbols of another one is another one itself,
    unless both are the augmenting one. -/
theorem getElem?_of_matchProduction {n rule : Nat} {p : Production}
    (hp : g.productions[n]? = some p) (hmatch : g.matchProduction p.left p.right = some rule) :
    ∃ q : Production, g.productions[rule]? = some q ∧ q.left = p.left ∧ q.right = p.right ∧
      (n = 0 ↔ rule = 0) := by
  obtain ⟨⟨q, hq, hleft, hright⟩, -⟩ := matchProduction_eq_some_iff.1 hmatch
  obtain ⟨r, hr, haccept, -⟩ := h.augmenting
  refine ⟨q, hq, hleft, hright, fun hn => ?_, fun hrule => ?_⟩
  · subst hn
    obtain rfl := Option.some.inj (hp.symm.trans hr)
    exact h.eq_zero_of_left hq (hleft.trans haccept)
  · subst hrule
    obtain rfl := Option.some.inj (hq.symm.trans hr)
    exact h.eq_zero_of_left hp (hleft.symm.trans haccept)

theorem rightSide_zero : g.rightSide 0 = [g.startSymbol] := by
  obtain ⟨p, hp, -, hright⟩ := h.augmenting
  rw [rightSide_eq hp, hright]

/-- The right side of the augmenting production is a single symbol. -/
theorem ne_zero_of_length {i : Nat} {p : Production} (hp : g.productions[i]? = some p)
    (hlength : p.right.length ≠ 1) : i ≠ 0 := by
  rintro rfl
  have hzero := h.rightSide_zero
  rw [rightSide_eq hp] at hzero
  exact hlength (by rw [hzero]; rfl)

/-- What stands in a right side is a symbol, but not `$accept`. -/
theorem of_mem_rightSide {i s : Nat} (hs : s ∈ g.rightSide i) :
    s < g.symbolCount ∧ s ≠ g.acceptSymbol := by
  cases hp : g.productions[i]? with
  | none => simp [rightSide, hp] at hs
  | some p =>
    rw [rightSide_eq hp] at hs
    exact ⟨(h.symbolsExist i p hp).2 s hs, fun heq => h.acceptSymbol_notMem hp (heq ▸ hs)⟩

theorem mem_productionsOf_left {i : Nat} {p : Production} (hp : g.productions[i]? = some p) :
    i ∈ g.productionsOf p.left :=
  mem_productionsOf.2 ⟨h.left_nonterminal hp, p, hp, rfl⟩

end WellFormed

end Grammar

end SlrCompiler
