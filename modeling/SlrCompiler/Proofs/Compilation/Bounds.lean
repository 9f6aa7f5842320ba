import SlrCompiler.Proofs.Grammar.Lookahead
import SlrCompiler.Proofs.Recognition.Path
import SlrCompiler.Proofs.Specification.PiecePositions
import SlrCompiler.Proofs.Specification.Positions

/-! # Numbers stay in bounds

    Texts are cut at positions, and symbols, productions, items and states are numbers
    that the stages look up without a check. Here is why none of them misses.

    A text is cut only where it has been looked at: a reader that goes by positions,
    and that has no value where one is out of range, has a value for every text
    (`Text.InBounds`). What a grammar holds, what FIRST, FOLLOW and the automaton hold,
    and what is ever proposed, held or chosen for a cell speaks of symbols, productions
    and states that exist (`Grammar.InBounds`); what the finished table holds speaks of
    its own rows, columns and rules (`ParseTable.InBounds`). A left side is a
    nonterminal, so its number less the number of terminals is its column.
-/

namespace SlrCompiler

/-- The state that an action goes to, or the rule that it reduces, exists. -/
def Action.InBounds (states rules : Nat) : Action → Prop
  | .shift target => target < states
  | .reduce rule => rule < rules
  | .accept => True
  | .error => True

/-! ## Section 1: What is to be shown -/

/-- However a text is read by positions, none is out of range: whether it is taken for
    a specification, for a section with comments, for declarations, for rules or for
    the code of an action, every cut has a value, no brace is closed that is not open,
    and what is read is what the readers of the program read. -/
structure Text.InBounds (text : List Char) : Prop where
  sections : Sections.splitByPosition text = some (Sections.split text)
  comments : stripByPosition text = some (stripComments text)
  blocks : Blocks.ofTextByPosition text = some (Blocks.ofText text)
  lexemes : ∀ line, Lexeme.scanAt text line 0 = some (Lexeme.scan line text)
  pieces : ∀ rule arity, Piece.readAllAt text rule arity 0 = some (Piece.readAll rule arity text)

/-- Everything that the stages behind a grammar look up is there. -/
structure Grammar.InBounds (g : Grammar) : Prop where
  /-- A left side is a nonterminal, so its column is what is left of its number. -/
  left : ∀ {n : Nat} {p : Production}, g.productions[n]? = some p →
    g.terminalCount ≤ p.left ∧ p.left < g.symbolCount
  right : ∀ {n s : Nat} {p : Production}, g.productions[n]? = some p → s ∈ p.right →
    s < g.symbolCount
  startSymbol : g.startSymbol < g.symbolCount
  endMark : g.endMark < g.terminalCount
  epsilon : ∀ s ∈ g.epsilon, s < g.symbolCount
  /-- There is a FIRST set and a FOLLOW set for every symbol. -/
  lookahead : g.lookahead.firstSets.size = g.symbolCount ∧
    g.lookahead.followSets.size = g.symbolCount
  first : ∀ {s x : Nat}, x ∈ g.lookahead.first s → x < g.terminalCount
  follow : ∀ {s x : Nat}, x ∈ g.lookahead.follow s → x < g.terminalCount
  start : g.automaton.start < g.automaton.size
  item : ∀ {s : Nat} {st : State} {i : Item}, g.automaton.states[s]? = some st → i ∈ st.items →
    g.ItemExists i
  edge : ∀ {s x v : Nat} {st : State}, g.automaton.states[s]? = some st →
    st.edges.find x = some v → x < g.symbolCount ∧ v < g.automaton.size
  /-- What a cell holds, what is proposed for it and what is chosen. -/
  decision : ∀ {t : ActionTable} {d : Decision},
    g.actionTable g.lookahead g.automaton = .ok t → d ∈ t.decisions →
    d.state < g.automaton.size ∧ d.terminal < g.terminalCount ∧
      ∀ a ∈ [d.existing, d.proposed, d.settlement.chosen],
        a.InBounds g.automaton.size g.productionCount

/-- Everything that a table looks up in itself is there. -/
structure ParseTable.InBounds (t : ParseTable) : Prop where
  startState : t.startState < t.stateCount
  endMark : t.endMark < t.terminals.size
  /-- A row has an action for every terminal. -/
  action : ∀ row ∈ t.actions, row.size = t.terminals.size ∧
    ∀ a ∈ row, a.InBounds t.stateCount t.rules.size
  /-- A state has a goto for every nonterminal. -/
  goto : t.gotos.size = t.stateCount ∧ ∀ row ∈ t.gotos, row.size = t.nonterminals.size ∧
    ∀ v, some v ∈ row → v < t.stateCount
  rule : ∀ r ∈ t.rules, r.left < t.nonterminals.size

/-! ## Section 2: Texts -/

/-- **Every text** is in bounds. -/
theorem Text.inBounds (text : List Char) : Text.InBounds text where
  sections := Sections.splitByPosition_eq text
  comments := stripByPosition_eq text
  blocks := Blocks.ofTextByPosition_eq text
  lexemes line := Lexeme.scanAt_eq line (.zero text)
  pieces rule arity := Piece.readAllAt_eq rule arity (.zero text)

namespace Grammar

variable {g : Grammar}

/-! ## Section 3: FIRST and FOLLOW -/

/-- FIRST of a symbol consists of terminals. -/
theorem lt_of_mem_first {s x : Nat} (hx : x ∈ g.lookahead.first s) : x < g.terminalCount := by
  by_cases hs : s < g.symbolCount
  · rw [first_eq hs, firstAlong, SortedSet.mem_filter] at hx
    exact isTerminal_iff.1 hx.2
  · have hnone : g.lookahead.first s = .empty := by
      simp [Lookahead.first, lookahead, symbols, hs]
    simp [hnone] at hx

/-- FIRST of a sequence comes from FIRST of its symbols. -/
theorem exists_mem_of_mem_firstOfSequence {first : Nat → SortedSet Nat} {nullable : Nat → Bool}
    {symbols : List Nat} {x : Nat} (hx : x ∈ (firstOfSequence first nullable symbols).1) :
    ∃ s ∈ symbols, x ∈ first s := by
  induction symbols with
  | nil => simp [firstOfSequence] at hx
  | cons s rest ih =>
    rw [firstOfSequence] at hx
    split at hx
    · rcases SortedSet.mem_union.1 hx with hx | hx
      · exact ⟨s, List.mem_cons_self, hx⟩
      · obtain ⟨y, hy, hxy⟩ := ih hx
        exact ⟨y, List.mem_cons_of_mem s hy, hxy⟩
    · exact ⟨s, List.mem_cons_self, hx⟩

/-- FOLLOW of a symbol consists of terminals. -/
theorem lt_of_mem_follow (hg : g.WellFormed) {s x : Nat} (hx : x ∈ g.lookahead.follow s) :
    x < g.terminalCount := by
  by_cases hs : s < g.symbolCount
  · obtain ⟨y, -, hy⟩ := (mem_follow hg.symbolsExist hs).1 hx
    rcases mem_followDirectly.1 hy with ⟨-, rfl⟩ | ⟨o, -, -, hafter⟩
    · exact isTerminal_iff.1 hg.endMark_terminal
    · obtain ⟨z, -, hz⟩ := exists_mem_of_mem_firstOfSequence hafter
      exact lt_of_mem_first hz
  · have hnone : g.lookahead.follow s = .empty := by
      simp [Lookahead.follow, lookahead, symbols, hs]
    simp [hnone] at hx

/-! ## Section 4: Grammars -/

/-- An edge leads to a state. -/
theorem Canonical.lt_of_edge {a : Automaton} (h : g.Canonical a) {s x v : Nat} {st : State}
    (hst : a.states[s]? = some st) (hv : st.edges.find x = some v) : v < a.size := by
  have hgoto : a.goto s x = some v := by rw [Automaton.goto, hst, Option.bind_some, hv]
  exact h.lt_of_goto hgoto

/-- An action that is proposed for a cell is in bounds, and so is the cell. -/
theorem Candidate.inBounds (hg : g.WellFormed) {s x : Nat} {st : State} {a : Action}
    (hst : g.automaton.states[s]? = some st) (h : g.Candidate g.lookahead st x a) :
    x < g.terminalCount ∧ a.InBounds g.automaton.size g.productionCount := by
  obtain ⟨i, -, hi⟩ := h
  cases hi with
  | shift _ hx htarget =>
    exact ⟨isTerminal_iff.1 hx, hg.canonical.lt_of_edge hst htarget⟩
  | reduce _ _ hmatch _ hfollow =>
    obtain ⟨⟨q, hq, -⟩, -⟩ := matchProduction_eq_some_iff.1 hmatch
    exact ⟨lt_of_mem_follow hg hfollow, (Array.getElem?_eq_some_iff.1 hq).1⟩
  | accept _ _ _ => exact ⟨isTerminal_iff.1 hg.endMark_terminal, trivial⟩

/-- **A well-formed grammar** is in bounds throughout. -/
theorem WellFormed.inBounds (hg : g.WellFormed) : g.InBounds := by
  have hcanonical := hg.canonical
  constructor
  case left =>
    intro n p hp
    exact ⟨by simpa [isTerminal] using hg.left_nonterminal hp, (hg.symbolsExist n p hp).1⟩
  case right =>
    intro n s p hp hs
    exact (hg.symbolsExist n p hp).2 s hs
  case startSymbol => exact hg.startSymbol_lt
  case endMark => exact isTerminal_iff.1 hg.endMark_terminal
  case epsilon => exact hg.epsilonExists
  case lookahead => simp [Grammar.lookahead, symbols]
  case first => exact lt_of_mem_first
  case follow => exact lt_of_mem_follow hg
  case start =>
    obtain ⟨st, hst, -⟩ := hcanonical.first
    rw [hcanonical.start]
    exact (Array.getElem?_eq_some_iff.1 hst).1
  case item =>
    intro s st i hst hi
    exact hcanonical.itemsExist hst i hi
  case edge =>
    intro s x v st hst hv
    obtain ⟨i, -, hnext⟩ := hcanonical.exists_nextSymbol_of_goto hst hv
    exact ⟨Item.nextSymbol_lt hg.symbolsExist hnext, hcanonical.lt_of_edge hst hv⟩
  case decision =>
    intro t d ht hd
    -- What is chosen was held or is proposed, and both come from items of the state.
    obtain ⟨st, hst, hproposed, hexisting, hsettled⟩ := exists_candidate_of_mem_decisions ht hd
    have hchosen := g.chosen_settle_eq_or d.terminal d.existing d.proposed
    rw [← hsettled] at hchosen
    obtain ⟨hterminal, hbounds⟩ := hproposed.inBounds hg hst
    have hheld : d.existing.InBounds g.automaton.size g.productionCount := by
      rcases hexisting with heq | hcandidate
      · rw [heq]
        trivial
      · exact (hcandidate.inBounds hg hst).2
    refine ⟨(Array.getElem?_eq_some_iff.1 hst).1, hterminal, ?_⟩
    simp only [List.mem_cons, List.not_mem_nil, or_false, forall_eq_or_imp, forall_eq]
    exact ⟨hheld, hbounds, hchosen.elim (fun h => h ▸ hheld) fun h => h ▸ hbounds⟩

/-! ## Section 5: Tables -/

/-- An action of the action table is in bounds. -/
theorem actionTable_inBounds (hg : g.WellFormed) {actions : ActionTable}
    (h : g.actionTable g.lookahead g.automaton = .ok actions) (s x : Nat) :
    (actions.action s x).InBounds g.automaton.size g.productionCount := by
  cases hst : g.automaton.states[s]? with
  | none =>
    have hrow : actions.rows[s]? = none := by
      rw [Array.getElem?_eq_none_iff, size_actionTable h]
      exact Array.getElem?_eq_none_iff.1 hst
    rw [ActionTable.action, hrow]
    trivial
  | some st =>
    rcases settled_of_actionTable h hst x with hcandidate | ⟨herror, -⟩
    · exact (hcandidate.inBounds hg hst).2
    · rw [herror]
      trivial

/-- **The table of a well-formed grammar** is in bounds. -/
theorem parseTable_inBounds (hg : g.WellFormed) {t : ParseTable} (h : g.parseTable = .ok t) :
    t.InBounds := by
  obtain ⟨actions, hactions, rfl⟩ := exists_assemble h
  have hbounds := hg.inBounds
  have hsize := size_actionTable hactions
  have hstates : (ParseTable.assemble g g.automaton actions).stateCount = g.automaton.size := by
    simp [ParseTable.stateCount, ParseTable.assemble, hsize, Automaton.size]
  constructor
  case startState => exact hstates ▸ hbounds.start
  case endMark => exact hbounds.endMark
  case action =>
    intro row hrow
    rw [hstates]
    obtain ⟨cells, hcells, rfl⟩ := Array.mem_map.1 hrow
    refine ⟨by simp [denseRow, ParseTable.assemble, terminalCount], fun a ha => ?_⟩
    -- A cell of a dense row is a cell of the row that it is made of.
    obtain ⟨s, hs⟩ := Array.getElem?_of_mem hcells
    obtain ⟨x, -, rfl⟩ : ∃ x < g.terminalCount, cells.action x = a := by
      simpa [denseRow] using ha
    have hcell := actionTable_inBounds hg hactions s x
    rw [ActionTable.action, hs] at hcell
    simpa [ParseTable.assemble, productionCount] using hcell
  case goto =>
    rw [hstates]
    refine ⟨by simp [ParseTable.assemble, Automaton.size], fun row hrow => ?_⟩
    obtain ⟨st, hmem, rfl⟩ := Array.mem_map.1 hrow
    refine ⟨by simp [gotoRow, ParseTable.assemble, nonterminalCount], fun v hv => ?_⟩
    -- What is listed for a nonterminal is where the edge on it leads.
    obtain ⟨s, hst⟩ := Array.getElem?_of_mem hmem
    obtain ⟨n, -, hedge⟩ : ∃ n < g.nonterminalCount,
        st.edges.find (g.terminalCount + n) = some v := by
      simpa [gotoRow] using hv
    exact (hbounds.edge hst hedge).2
  case rule =>
    intro r hr
    obtain ⟨p, hmem, rfl⟩ := Array.mem_map.1 hr
    obtain ⟨n, hp⟩ := Array.getElem?_of_mem hmem
    obtain ⟨hle, hlt⟩ := hbounds.left hp
    simp only [tableRule, column, if_pos hle, ParseTable.assemble]
    simp only [symbolCount, nonterminalCount] at hlt
    omega

end Grammar

end SlrCompiler
