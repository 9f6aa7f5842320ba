import SlrCompiler.Proofs.Automaton.Numbering
import SlrCompiler.Proofs.Compilation.Outcome

/-! # The symbol by which a state is entered

    A state is the closure of a few items: of the augmenting item in state 0, and of
    items whose dots have just moved over a symbol in every other state. What the
    closure adds has its dot at the beginning, and its left side is expected by an
    item that was there before (`InClosure.expected`). So the items with a dot further
    on are those that have just moved (`entered_of_goto`), and all of them tell the
    same symbol, however the state is entered.

    Nothing expects `$accept`, so no state is entered by it: the goto column of
    `$accept` is empty.
-/

namespace SlrCompiler

/-! ## Section 1: The symbol before the dot -/

/-- The symbol before the dot; nothing if the dot is at the beginning. -/
def Item.lastSymbol (g : Grammar) (i : Item) : Option Nat :=
  if i.position = 0 then none else (g.rightSide i.production)[i.position - 1]?

/-- A dot that has moved stands behind the symbol that it stood before. -/
theorem Item.lastSymbol_advance (g : Grammar) (i : Item) :
    i.advance.lastSymbol g = i.nextSymbol g := by
  simp [lastSymbol, nextSymbol]

namespace Grammar

variable (g : Grammar)

/-- Some dots are not at the beginning, and all of these stand behind the symbol. -/
structure Entered (items : ItemSet) (x : Nat) : Prop where
  exists_moved : ∃ i ∈ items, i.position ≠ 0
  lastSymbol : ∀ i ∈ items, i.position ≠ 0 → i.lastSymbol g = some x

/-- Some item expects the left side of the production. -/
def ExpectsLeft (items : ItemSet) (production : Nat) : Prop :=
  ∃ p, g.productions[production]? = some p ∧ ∃ j ∈ items, j.nextSymbol g = some p.left

/-- What the items of the states tell about the edges that lead to them. -/
structure Accessed (a : Automaton) : Prop where
  /-- No edge leads to state 0. -/
  goto_ne_zero : ∀ u x, a.goto u x ≠ some 0
  /-- Every other state has edges to it, all of them on the one symbol behind which its
      dots stand. -/
  entered : ∀ {v : Nat} {sv : State}, a.states[v]? = some sv → v ≠ 0 →
    ∃ x, g.Entered sv.items x ∧ (∃ u, a.goto u x = some v) ∧ ∀ u y, a.goto u y = some v → y = x
  /-- A production begins where its left side is expected; the augmenting one, at the
      start. -/
  expected : ∀ {v : Nat} {sv : State}, a.states[v]? = some sv →
    ∀ i ∈ sv.items, i.position = 0 → i ≠ .initial 0 → g.ExpectsLeft sv.items i.production

variable {g}

/-! ## Section 2: What a closure adds -/

/-- The closure adds productions at their beginning, for left sides that are expected. -/
theorem InClosure.expected {items : ItemSet} {i : Item} (h : g.InClosure items i)
    (hi : i ∉ items) : i.position = 0 ∧ ∃ p, g.productions[i.production]? = some p ∧
      ∃ j, g.InClosure items j ∧ j.nextSymbol g = some p.left := by
  cases h with
  | base hmem => exact absurd hmem hi
  | expand hj hnext hn =>
    obtain ⟨-, p, hp, rfl⟩ := mem_productionsOf.1 hn
    exact ⟨rfl, p, hp, _, hj, hnext⟩

/-- In a closure, what has not been there before begins where its left side is expected. -/
theorem expectsLeft_of_mem_closure (hg : g.SymbolsExist) {items : ItemSet} {i : Item}
    (h : i ∈ g.closure items) (hi : i ∉ items) :
    i.position = 0 ∧ g.ExpectsLeft (g.closure items) i.production := by
  obtain ⟨hposition, p, hp, j, hj, hnext⟩ := ((mem_closure hg).1 h).expected hi
  exact ⟨hposition, p, hp, j, (mem_closure hg).2 hj, hnext⟩

section Goto

variable {items target : ItemSet} {x : Nat} (h : g.goto items x = some target)
include h

/-- **Moving on**: the symbol moved over stands before the dots that are not at the
    beginning. -/
theorem entered_of_goto (hg : g.SymbolsExist) : g.Entered target x := by
  obtain rfl := goto_eq_some h
  constructor
  case exists_moved =>
    have hsome : g.goto items x ≠ none := by simp [h]
    rw [ne_eq, goto_eq_none_iff] at hsome
    push Not at hsome
    obtain ⟨i, hi, hnext⟩ := hsome
    have hmoved : i.advance ∈ SortedSet.ofList (g.advanced items x) :=
      SortedSet.mem_ofList.2 (mem_advanced.2 ⟨i, hi, hnext, rfl⟩)
    exact ⟨i.advance, (mem_closure hg).2 (.base hmoved), by simp⟩
  case lastSymbol =>
    intro j hj hposition
    by_cases hmoved : j ∈ SortedSet.ofList (g.advanced items x)
    · obtain ⟨i, -, hnext, rfl⟩ := mem_advanced.1 (SortedSet.mem_ofList.1 hmoved)
      rw [Item.lastSymbol_advance, hnext]
    · exact absurd (expectsLeft_of_mem_closure hg hj hmoved).1 hposition

/-- A dot at the beginning has not moved, so it is there for a left side that is expected. -/
theorem expectsLeft_of_mem_goto (hg : g.SymbolsExist) {j : Item} (hj : j ∈ target)
    (hposition : j.position = 0) : g.ExpectsLeft target j.production := by
  obtain rfl := goto_eq_some h
  refine (expectsLeft_of_mem_closure hg hj fun hmoved => ?_).2
  obtain ⟨i, -, -, rfl⟩ := mem_advanced.1 (SortedSet.mem_ofList.1 hmoved)
  simp at hposition

end Goto

/-- Only one symbol can stand before the dots. -/
theorem Entered.unique {items : ItemSet} {x y : Nat} (hx : g.Entered items x)
    (hy : g.Entered items y) : x = y := by
  obtain ⟨i, hi, hposition⟩ := hx.exists_moved
  have hlast := hx.lastSymbol i hi hposition
  rw [hy.lastSymbol i hi hposition] at hlast
  exact (Option.some.inj hlast).symm

/-- No dot of the first state has moved. -/
theorem not_entered_first (hg : g.SymbolsExist) (x : Nat) :
    ¬ g.Entered (g.closure (.singleton (.initial 0))) x := by
  rintro ⟨⟨i, hi, hposition⟩, -⟩
  by_cases hfirst : i ∈ SortedSet.singleton (Item.initial 0)
  · obtain rfl := SortedSet.mem_singleton.1 hfirst
    exact hposition rfl
  · exact hposition (expectsLeft_of_mem_closure hg hi hfirst).1

/-! ## Section 3: The states -/

/-- An edge leads to the goto of its source. -/
theorem Collected.exists_goto {a : Automaton} (h : g.Collected a) {u x v : Nat}
    (hedge : a.goto u x = some v) : ∃ su sv, a.states[u]? = some su ∧ a.states[v]? = some sv ∧
      g.goto su.items x = some sv.items := by
  obtain ⟨su, hsu, hfind⟩ := Option.bind_eq_some_iff.1 hedge
  obtain ⟨sv, hsv, hgoto⟩ := (h.edge_iff hsu).1 hfind
  exact ⟨su, sv, hsu, hsv, hgoto⟩

/-- **Accessing symbols**: the states of a canonical collection are entered by one symbol
    each. -/
theorem Collected.accessed {a : Automaton} (h : g.Collected a) (hg : g.SymbolsExist) :
    g.Accessed a := by
  -- Edges are made by `goto`, so the state at the end of one is entered by its symbol.
  have hentered : ∀ {u x v : Nat} {sv : State}, a.goto u x = some v → a.states[v]? = some sv →
      g.Entered sv.items x := by
    intro u x v sv hedge hsv
    obtain ⟨su, next, -, hnext, hgoto⟩ := h.exists_goto hedge
    obtain rfl := Option.some.inj (hsv.symm.trans hnext)
    exact entered_of_goto hgoto hg
  -- All states but the first were found over an edge.
  have hfound : ∀ {v : Nat} {sv : State}, a.states[v]? = some sv → v ≠ 0 →
      ∃ u x, a.goto u x = some v := by
    intro v sv hsv hv
    have hlt : v < a.size := (Array.getElem?_eq_some_iff.1 hsv).1
    obtain ⟨u, x, hfirst, -⟩ := h.found v (Nat.pos_of_ne_zero hv) hlt
    exact ⟨u, x, hfirst.leads⟩
  obtain ⟨first, hfirst, hitems⟩ := h.first
  constructor
  case goto_ne_zero =>
    intro u x hedge
    have hzero := hentered hedge hfirst
    rw [hitems] at hzero
    exact not_entered_first hg x hzero
  case entered =>
    intro v sv hsv hv
    obtain ⟨u, x, hedge⟩ := hfound hsv hv
    refine ⟨x, hentered hedge hsv, ⟨u, hedge⟩, fun w y hother => ?_⟩
    exact (hentered hother hsv).unique (hentered hedge hsv)
  case expected =>
    intro v sv hsv i hi hposition hne
    by_cases hv : v = 0
    · subst hv
      obtain rfl := Option.some.inj (hsv.symm.trans hfirst)
      rw [hitems] at hi ⊢
      -- The first state is the closure of one item, and this is another one.
      have hnot : i ∉ SortedSet.singleton (Item.initial 0) :=
        fun hmem => hne (SortedSet.mem_singleton.1 hmem)
      exact (expectsLeft_of_mem_closure hg hi hnot).2
    · obtain ⟨u, x, hedge⟩ := hfound hsv hv
      obtain ⟨su, next, -, hnext, hgoto⟩ := h.exists_goto hedge
      obtain rfl := Option.some.inj (hsv.symm.trans hnext)
      exact expectsLeft_of_mem_goto hgoto hg hi hposition

/-! ## Section 4: The column of `$accept` -/

/-- No edge is on `$accept`. -/
theorem WellFormed.goto_acceptSymbol (hg : g.WellFormed) (items : ItemSet) :
    g.goto items g.acceptSymbol = none :=
  goto_eq_none_iff.2 fun i _ => hg.nextSymbol_ne_acceptSymbol i

/-- The goto column of `$accept` exists and is empty. -/
theorem Tabulates.gotoCell?_acceptSymbol {t : ParseTable} (ht : g.Tabulates t)
    (hg : g.WellFormed) {s : Nat} (hs : s < t.stateCount) :
    t.gotoCell? s (g.column g.acceptSymbol) = some none := by
  obtain ⟨p, hp, hleft, -⟩ := hg.augmenting
  have hst := Array.getElem?_eq_getElem (ht.stateCount ▸ hs)
  have hcell := ht.goto_left hg hp hst
  have hnone := hg.canonical.edge_none hst (hg.goto_acceptSymbol _)
  rwa [tableRule, hleft, hnone] at hcell

/-- The column of `$accept` has its name. -/
theorem WellFormed.name_column_acceptSymbol (hg : g.WellFormed)
    (hname : g.symbolName g.acceptSymbol = acceptName) :
    (g.nonterminals[g.column g.acceptSymbol]?).map Nonterminal.name = some acceptName := by
  obtain ⟨p, hp, hleft, -⟩ := hg.augmenting
  have hnot : g.isTerminal g.acceptSymbol = false := hleft ▸ hg.left_nonterminal hp
  have hle : g.terminalCount ≤ g.acceptSymbol := by simpa [isTerminal] using hnot
  have hlt : g.acceptSymbol < g.symbolCount := hleft ▸ (hg.symbolsExist 0 p hp).1
  have hcolumn : g.acceptSymbol - g.terminalCount < g.nonterminals.size := by
    simp only [symbolCount, nonterminalCount] at hlt
    omega
  rw [symbolName, Array.getElem?_eq_none hle] at hname
  rw [column, if_pos hle]
  simpa [Array.getElem?_eq_getElem hcolumn] using hname

/-- **One accessing symbol for each state**: in the automaton of a grammar that comes from a
    specification no edge leads to state 0, and all edges to another state are on the symbol
    before the dots of that state. What has its dot at the beginning, but for the augmenting
    item, is expected in the same state. And the goto column of `$accept` is empty. -/
theorem accessed_of_parse {spec : String} (h : parse spec = .ok g) :
    g.Accessed g.automaton ∧ ∃ t column, g.parseTable = .ok t ∧
      (t.nonterminals[column]?).map Nonterminal.name = some acceptName ∧
      ∀ s, s < t.stateCount → t.gotoCell? s column = some none := by
  have hg := wellFormed_of_parse h
  obtain ⟨t, htable⟩ := exists_parseTable hg.symbolsExist hg.productionCount_pos
  obtain ⟨s, d, rules, -, -, -, hresolved⟩ := exists_resolved_of_parse h
  have hname := (symbolName_of_symbolIndex? hresolved.acceptSymbol).2
  have ht := tabulates_of_parseTable htable
  refine ⟨?_, t, g.column g.acceptSymbol, htable, ?_, fun s hs => ht.gotoCell?_acceptSymbol hg hs⟩
  · exact (collected_automaton hg.symbolsExist hg.productionCount_pos).accessed hg.symbolsExist
  · obtain ⟨actions, -, rfl⟩ := exists_assemble htable
    exact hg.name_column_acceptSymbol hname

/-- Sums in brackets: three states lead to one on the opening bracket, one of them itself, and
    an empty production begins in it. -/
theorem accessed_of_parse_sums :
    ∃ g, parse "%% e : e '+' t | t ; t : '(' e ')' | 'x' | ; %%" = .ok g ∧
      g.symbolName 3 = "'('" ∧ g.automaton.goto 0 3 = some 1 ∧ g.automaton.goto 1 3 = some 1 ∧
      g.automaton.goto 6 3 = some 1 ∧ g.Accessed g.automaton ∧
      ∃ t column, g.parseTable = .ok t ∧
        (t.nonterminals[column]?).map Nonterminal.name = some acceptName ∧
        ∀ s, s < t.stateCount → t.gotoCell? s column = some none := by
  have hfacts : (parse "%% e : e '+' t | t ; t : '(' e ')' | 'x' | ; %%").map (fun g => decide
      (g.symbolName 3 = "'('" ∧ g.automaton.goto 0 3 = some 1 ∧ g.automaton.goto 1 3 = some 1 ∧
        g.automaton.goto 6 3 = some 1)) = .ok true := by
    decide +kernel
  obtain ⟨g, hparse, hname, hfirst, hself, hsum⟩ := exists_of_map_decide hfacts
  obtain ⟨haccessed, htable⟩ := accessed_of_parse hparse
  exact ⟨g, hparse, hname, hfirst, hself, hsum, haccessed, htable⟩

end Grammar

end SlrCompiler
