import SlrCompiler.Compilation
import SlrCompiler.Proofs.Grammar.Derivation
import SlrCompiler.Proofs.Grammar.Resolution
import SlrCompiler.Proofs.Table.Cells
import SlrCompiler.Recognition

/-! # The parse table of a grammar

    A parse table is made of arrays and knows nothing of items. `Tabulates`
    says what is found in it, cell by cell, in terms of the grammar and its
    automaton. Every argument about a run goes through these facts
    (`tabulates_of_parseTable`).
-/

namespace SlrCompiler

/-! ## Section 1: What a table holds -/

/-- What a table records about a cell, in the order in which it was recorded. -/
def ParseTable.conflictsAt (t : ParseTable) (state terminal : Nat) : List Conflict :=
  t.conflicts.filter fun c => c.state = state ∧ c.terminal = terminal

namespace Grammar

variable (g : Grammar)

/-- The table holds the cells of the grammar's automaton. -/
structure Tabulates (t : ParseTable) : Prop where
  startState : t.startState = g.automaton.start
  endMark : t.endMark = g.endMark
  terminals : t.terminals = g.terminals
  stateCount : t.stateCount = g.automaton.size
  /-- There is a rule for every production, at its number. -/
  rules : ∀ n : Nat, t.rules[n]? = g.productions[n]?.map g.tableRule
  /-- The row of a state has a cell for every terminal. -/
  row : ∀ {s : Nat}, s < t.stateCount →
    ∃ row, t.actions[s]? = some row ∧ row.size = g.terminalCount
  /-- A cell holds a candidate, and it is blank only where there is none. -/
  action : ∀ {s x : Nat} {st : State}, g.automaton.states[s]? = some st → x < g.terminalCount →
    g.Candidate g.lookahead st x (t.actionAt s x) ∨
      t.actionAt s x = .error ∧ ∀ a, ¬ g.Candidate g.lookahead st x a
  /-- The goto of a nonterminal is the edge on it. -/
  goto : ∀ {s n : Nat} {st : State}, g.automaton.states[s]? = some st → n < g.nonterminalCount →
    t.gotoCell? s n = some (st.edges.find (g.terminalCount + n))

variable {g}

/-! ## Section 2: Tables that are put together -/

theorem exists_assemble {t : ParseTable} (h : g.parseTable = .ok t) :
    ∃ actions, g.actionTable g.lookahead g.automaton = .ok actions ∧
      t = ParseTable.assemble g g.automaton actions := by
  obtain ⟨actions, hactions, rfl⟩ := map_eq_ok_iff.1 h
  exact ⟨actions, hactions, rfl⟩

theorem getD_denseRow (row : IndexMap Action) {x : Nat} (hx : x < g.terminalCount) :
    (g.denseRow row).getD x .error = row.action x := by
  simp [denseRow, hx]

/-- A cell of an existing row is the cell of the action table. -/
theorem actionAt_assemble {a : Automaton} {actions : ActionTable} {s x : Nat}
    (hs : s < actions.rows.size) (hx : x < g.terminalCount) :
    (ParseTable.assemble g a actions).actionAt s x = actions.action s x := by
  have hrow : actions.rows[s]? = some actions.rows[s] := Array.getElem?_eq_getElem hs
  simp only [ParseTable.actionAt, ParseTable.assemble, Array.getElem?_map, hrow, Option.map_some,
    ActionTable.action]
  exact getD_denseRow _ hx

theorem gotoCell?_assemble {a : Automaton} {actions : ActionTable} {s n : Nat} {st : State}
    (hst : a.states[s]? = some st) (hn : n < g.nonterminalCount) :
    (ParseTable.assemble g a actions).gotoCell? s n
      = some (st.edges.find (g.terminalCount + n)) := by
  simp [ParseTable.gotoCell?, ParseTable.assemble, hst, gotoRow, hn]

/-- **Tabulation**: the table of a grammar holds the cells of its automaton. -/
theorem tabulates_of_parseTable {t : ParseTable} (h : g.parseTable = .ok t) : g.Tabulates t := by
  obtain ⟨actions, hactions, rfl⟩ := exists_assemble h
  have hsize := size_actionTable hactions
  constructor
  case startState => rfl
  case endMark => rfl
  case terminals => rfl
  case stateCount => simp [ParseTable.stateCount, ParseTable.assemble, hsize, Automaton.size]
  case rules =>
    intro n
    simp [ParseTable.assemble]
  case row =>
    intro s hs
    exact ⟨_, Array.getElem?_eq_getElem hs, by simp [ParseTable.assemble, denseRow]⟩
  case action =>
    intro s x st hst hx
    have hs : s < actions.rows.size := hsize ▸ (Array.getElem?_eq_some_iff.1 hst).1
    rw [actionAt_assemble hs hx]
    exact settled_of_actionTable hactions hst x
  case goto => exact gotoCell?_assemble

/-- **A cell is what its candidates lead to** in the order of the items, and the records of the
    table about it are the choices on the way that went by default. -/
theorem exists_logged_of_parseTable {t : ParseTable} (h : g.parseTable = .ok t) {s x : Nat}
    {st : State} (hst : g.automaton.states[s]? = some st) (hx : x < g.terminalCount) :
    ∃ bs, (∀ b, b ∈ bs ↔ g.Candidate g.lookahead st x b) ∧
      t.actionAt s x = g.settleAll x .error bs ∧
      t.conflictsAt s x = (g.decisionsFor s x .error bs).filterMap Decision.conflict? := by
  obtain ⟨actions, hactions, rfl⟩ := exists_assemble h
  obtain ⟨bs, hbs, haction, hdecisions⟩ := exists_settled hactions hst x
  have hs : s < actions.rows.size :=
    size_actionTable hactions ▸ (Array.getElem?_eq_some_iff.1 hst).1
  refine ⟨bs, hbs, ?_, ?_⟩
  · rw [actionAt_assemble hs hx, haction]
  · rw [← hdecisions, List.filterMap_filter]
    show (actions.decisions.filterMap Decision.conflict?).filter _ = _
    rw [List.filter_filterMap]
    congr 1
    funext d
    -- a record is about the cell of its decision
    cases hc : d.conflict? with
    | none => simp
    | some c =>
      obtain ⟨hstate, hterminal, -⟩ := Decision.of_conflict?_eq_some hc
      simp [Option.filter, hstate, hterminal]

/-- The same, with the records among those of the whole table. -/
theorem exists_settled_of_parseTable {t : ParseTable} (h : g.parseTable = .ok t) {s x : Nat}
    {st : State} (hst : g.automaton.states[s]? = some st) (hx : x < g.terminalCount) :
    ∃ bs, (∀ b, b ∈ bs ↔ g.Candidate g.lookahead st x b) ∧
      t.actionAt s x = g.settleAll x .error bs ∧
      ∀ d ∈ g.decisionsFor s x .error bs, ∀ c, d.conflict? = some c → c ∈ t.conflicts := by
  obtain ⟨bs, hbs, haction, hlog⟩ := exists_logged_of_parseTable h hst hx
  refine ⟨bs, hbs, haction, ?_⟩
  intro d hd c hc
  have hmem : c ∈ t.conflictsAt s x := by
    rw [hlog]
    exact List.mem_filterMap.2 ⟨d, hd, hc⟩
  exact (List.mem_filter.1 hmem).1

/-- A candidate that is in conflict with all others is the only one if the table records no
    conflict about its cell. -/
theorem Candidate.alone_of_parseTable {t : ParseTable} (h : g.parseTable = .ok t) {s x : Nat}
    {st : State} (hst : g.automaton.states[s]? = some st)
    (hconflicts : ∀ c ∈ t.conflicts, ¬ (c.state = s ∧ c.terminal = x)) {a : Action}
    (ha : g.Candidate g.lookahead st x a)
    (hconflict : ∀ b, g.Candidate g.lookahead st x b → (g.settle x a b).conflict = none ∨
      (g.settle x b a).conflict = none → b = a) :
    ∀ b, g.Candidate g.lookahead st x b → b = a := by
  obtain ⟨actions, hactions, rfl⟩ := exists_assemble h
  exact ha.alone hactions hst hconflicts hconflict

section NoConflicts

variable {t : ParseTable} (h : g.parseTable = .ok t) (hconflicts : t.conflicts = [])
  {s x : Nat} {st : State} (hst : g.automaton.states[s]? = some st)
include h hconflicts hst

/-- Without precedence and without conflicts a cell holds all that is proposed
    for it. -/
theorem actionAt_eq_of_candidate (hg : g.WellFormed)
    (hproduction : ∀ n, g.productionPrecedence n = none) (hx : x < g.terminalCount) {a : Action}
    (ha : g.Candidate g.lookahead st x a) : t.actionAt s x = a := by
  rcases (tabulates_of_parseTable h).action hst hx with hcell | ⟨-, hnone⟩
  · refine ha.alone_of_parseTable h hst (by simp [hconflicts]) ?_ _ hcell
    intro b hb hnone
    exact ha.eq_of_conflict_eq_none hg (fun rule _ => hproduction rule) hb hnone
  · exact absurd ha (hnone a)

/-- Without conflicts nothing else is proposed where a reduction by a rule without
    precedence is. -/
theorem Candidate.eq_reduce {rule : Nat} (hcandidate : g.Candidate g.lookahead st x (.reduce rule))
    (hrule : g.productionPrecedence rule = none) {a : Action}
    (ha : g.Candidate g.lookahead st x a) : a = .reduce rule := by
  refine hcandidate.alone_of_parseTable h hst (by simp [hconflicts]) ?_ a ha
  intro b hb hnone
  exact eq_reduce_of_conflict_eq_none hrule hb.ne_error hnone

end NoConflicts

/-- A compiled table is the table of the grammar of its specification. -/
theorem parseTable_of_compile {spec : String} {t : ParseTable} (h : compile spec = .ok t)
    (hparse : parse spec = .ok g) : g.parseTable = .ok t := by
  rw [compile, hparse] at h
  exact h

/-- A compiled table is the table of a well-formed grammar. -/
theorem exists_tabulates_of_compile {spec : String} {t : ParseTable} (h : compile spec = .ok t) :
    ∃ g, parse spec = .ok g ∧ g.WellFormed ∧ g.Tabulates t := by
  unfold compile at h
  split at h
  · simp at h
  rename_i g hg
  exact ⟨g, hg, wellFormed_of_parse hg, tabulates_of_parseTable h⟩

/-! ## Section 3: Reading the table of a well-formed grammar -/

/-- The cell that is read is a cell of the table. -/
theorem Tabulates.exists_cell {t : ParseTable} (ht : g.Tabulates t) {s x : Nat}
    (hs : s < t.stateCount) (hx : x < g.terminalCount) :
    ∃ row, t.actions[s]? = some row ∧ row[x]? = some (t.actionAt s x) := by
  obtain ⟨row, hrow, hsize⟩ := ht.row hs
  refine ⟨row, hrow, ?_⟩
  rw [ParseTable.actionAt, hrow, Array.getElem?_eq_getElem (hsize ▸ hx)]
  simp [Array.getD, hsize, hx]

namespace Tabulates

variable {t : ParseTable} (h : g.Tabulates t) (hg : g.WellFormed)
include h hg

/-- The goto column of a left side holds the edge on it. -/
theorem goto_left {s n : Nat} {st : State} {p : Production} (hp : g.productions[n]? = some p)
    (hst : g.automaton.states[s]? = some st) :
    t.gotoCell? s (g.tableRule p).left = some (st.edges.find p.left) := by
  have hleft : g.terminalCount ≤ p.left := by simpa [isTerminal] using hg.left_nonterminal hp
  have hlt : p.left < g.symbolCount := (hg.symbolsExist n p hp).1
  have hcolumn : (g.tableRule p).left = p.left - g.terminalCount := by
    simp [tableRule, column, hleft]
  rw [hcolumn, h.goto hst (by simp only [symbolCount] at hlt; omega),
    Nat.add_sub_cancel' hleft]

/-- A name is looked up to the terminal that has it. -/
theorem terminalIndex?_eq_some_iff {name : String} {i : Nat} :
    t.terminalIndex? name = some i ↔ g.isTerminal i = true ∧ g.symbolName i = name := by
  have hname : ∀ {j : Nat} (hj : j < g.terminals.size),
      g.symbolName j = g.terminals[j].name := by
    intro j hj
    rw [symbolName, Array.getElem?_eq_getElem hj]
  simp only [ParseTable.terminalIndex?, h.terminals, Array.findIdx?_eq_some_iff_getElem,
    beq_iff_eq]
  constructor
  · intro h
    obtain ⟨hlt, heq, _⟩ := h
    exact ⟨isTerminal_iff.2 hlt, by rw [hname hlt, heq]⟩
  · intro h
    obtain ⟨hi, heq⟩ := h
    have hlt : i < g.terminals.size := isTerminal_iff.1 hi
    refine ⟨hlt, hname hlt ▸ heq, fun j hj hother => ?_⟩
    have hj' : g.isTerminal j = true := isTerminal_iff.2 (Nat.lt_trans hj hlt)
    have hsame := hg.eq_of_symbolName_eq hj' hi
      (by rw [hname (Nat.lt_trans hj hlt), hother, heq])
    omega

/-- The input is the string of terminals that has the given names. -/
theorem terminalIndices_eq_ok_iff {names : List String} {w : List Nat} :
    t.terminalIndices names = .ok w ↔ g.AllTerminal w ∧ w.map g.symbolName = names := by
  -- The induction is on the names; both sides are taken apart at the first one.
  induction names generalizing w with
  | nil =>
    constructor
    · intro hw
      obtain rfl := Except.ok.inj hw
      exact ⟨.nil, rfl⟩
    · intro h
      obtain ⟨_, hw⟩ := h
      rw [List.map_eq_nil_iff.1 hw]
      rfl
  | cons name rest ih =>
    unfold ParseTable.terminalIndices
    constructor
    · intro hw
      split at hw
      · simp at hw
      rename_i i hi
      obtain ⟨v, hv, rfl⟩ := map_eq_ok_iff.1 hw
      obtain ⟨hterminal, hname⟩ := (h.terminalIndex?_eq_some_iff hg).1 hi
      obtain ⟨hall, hnames⟩ := ih.1 hv
      refine ⟨fun s hs => ?_, by rw [List.map_cons, hname, hnames]⟩
      rcases List.mem_cons.1 hs with rfl | hs
      · exact hterminal
      · exact hall s hs
    · intro h
      obtain ⟨hall, hnames⟩ := h
      obtain ⟨i, v, rfl, hname, hrest⟩ := List.map_eq_cons_iff.1 hnames
      have hi := (h.terminalIndex?_eq_some_iff hg).2 ⟨hall i List.mem_cons_self, hname⟩
      have hv := ih.2 ⟨fun s hs => hall s (List.mem_cons_of_mem i hs), hrest⟩
      simp [hi, hv, Except.map]

end Tabulates

end Grammar

end SlrCompiler
