import SlrCompiler.Automaton.Collection
import SlrCompiler.Grammar.Lookahead
import SlrCompiler.GrammarError
import SlrCompiler.Table.Action

/-! # The action table

    For every state and terminal the action table holds what a parser does. The items of
    a state propose actions for its cells, one after the other: a terminal after a dot
    proposes to shift, a complete item proposes to reduce by its production on every
    terminal of FOLLOW, and the complete augmenting item proposes to accept at the end
    of the input. What a cell holds already and what is proposed for it are settled.

    The table keeps every decision in order, so the conflicts are a view of it.
-/

namespace SlrCompiler

/-! ## Proposals -/

/-- An action proposed for the cell of a terminal. -/
structure Proposal where
  terminal : Nat
  action : Action
  deriving DecidableEq, Repr

namespace Grammar

variable (g : Grammar)

/-- The proposals of an item whose dot is at the end. -/
def completeProposals (l : Lookahead) (i : Item) : Except GrammarError (List Proposal) :=
  match g.productions[i.production]? with
  | none => .error (.internal (.unmatchedItem (i.text g)))
  | some p =>
    match g.matchProduction p.left p.right with
    | none => .error (.internal (.unmatchedItem (i.text g)))
    | some 0 => .ok [⟨g.endMark, .accept⟩]
    | some rule => .ok ((l.follow p.left).toList.map fun t => ⟨t, .reduce rule⟩)

/-- The proposals of an item of the given state. -/
def itemProposals (l : Lookahead) (state : Nat) (edges : IndexMap Nat) (i : Item) :
    Except GrammarError (List Proposal) :=
  match i.nextSymbol g with
  | none => g.completeProposals l i
  | some symbol =>
    if g.isTerminal symbol then
      match edges.find symbol with
      | none => .error (.internal (.missingTransition state (g.symbolName symbol)))
      | some target => .ok [⟨symbol, .shift target⟩]
    else .ok []

/-- The proposals of the items of a state, in order. -/
def proposals (l : Lookahead) (state : Nat) (edges : IndexMap Nat) :
    List Item → Except GrammarError (List Proposal)
  | [] => .ok []
  | i :: rest =>
    match g.itemProposals l state edges i with
    | .error e => .error e
    | .ok first => (proposals l state edges rest).map (first ++ ·)

end Grammar

/-! ## Decisions -/

/-- How a cell was settled when an action was proposed for it. -/
structure Decision where
  state : Nat
  terminal : Nat
  existing : Action
  proposed : Action
  settlement : Settlement
  deriving DecidableEq, Repr

namespace Decision

/-- The conflict of a decision that went by default. -/
def conflict? (d : Decision) : Option Conflict :=
  d.settlement.conflict.map fun kind =>
    { state := d.state, terminal := d.terminal, kind, existing := d.existing
      proposed := d.proposed, chosen := d.settlement.chosen }

/-- Whether the cell holds something else afterwards. -/
def changes (d : Decision) : Bool := d.settlement.chosen ≠ d.existing

end Decision

/-- The action in the cell of a terminal. -/
def IndexMap.action (row : IndexMap Action) (terminal : Nat) : Action :=
  (row.find terminal).getD .error

namespace Grammar

variable (g : Grammar)

/-- The decision on a proposal for a row. -/
def decision (state : Nat) (row : IndexMap Action) (p : Proposal) : Decision where
  state := state
  terminal := p.terminal
  existing := row.action p.terminal
  proposed := p.action
  settlement := g.settle p.terminal (row.action p.terminal) p.action

/-- Takes proposals up in order: the row they lead to and the decisions made. -/
def decideAll (state : Nat) (row : IndexMap Action) :
    List Proposal → IndexMap Action × List Decision
  | [] => (row, [])
  | p :: rest =>
    let d := g.decision state row p
    let tail := decideAll state (row.set p.terminal d.settlement.chosen) rest
    (tail.1, d :: tail.2)

end Grammar

/-! ## The table -/

/-- The rows of a table by state, and the decisions that led to them. -/
structure ActionTable where
  rows : Array (IndexMap Action)
  decisions : List Decision
  deriving DecidableEq, Repr

namespace ActionTable

/-- The action in a cell; blank for a cell that does not exist. -/
def action (t : ActionTable) (state terminal : Nat) : Action :=
  match t.rows[state]? with
  | none => .error
  | some row => row.action terminal

/-- The choices that went by default, in the order in which they were made. -/
def conflicts (t : ActionTable) : List Conflict := t.decisions.filterMap Decision.conflict?

end ActionTable

namespace Grammar

variable (g : Grammar)

/-- The row of a state and the decisions that led to it. -/
def fillRow (l : Lookahead) (state : Nat) (s : State) :
    Except GrammarError (IndexMap Action × List Decision) :=
  (g.proposals l state s.edges s.items.toList).map (g.decideAll state .empty)

/-- The rows of states, the first of them having the given number. -/
def fillRows (l : Lookahead) (state : Nat) :
    List State → Except GrammarError (List (IndexMap Action × List Decision))
  | [] => .ok []
  | s :: rest =>
    match g.fillRow l state s with
    | .error e => .error e
    | .ok row => (fillRows l (state + 1) rest).map (row :: ·)

/-- The action table of an automaton. -/
def actionTable (l : Lookahead) (a : Automaton) : Except GrammarError ActionTable :=
  (g.fillRows l 0 a.states.toList).map fun rows =>
    { rows := (rows.map Prod.fst).toArray, decisions := rows.flatMap Prod.snd }

end Grammar

end SlrCompiler
