import SlrCompiler.Table.ActionTable

/-! # Parse tables

    A parse table is all that a generated parser needs: an action for every state and
    terminal, a goto for every state and nonterminal, and for every rule its length and
    its left side. It does not refer back to the grammar.
-/

namespace SlrCompiler

/-- A production as a parser sees it. -/
structure TableRule where
  /-- The goto column of the left side. -/
  left : Nat
  /-- The number of symbols of the right side. -/
  arity : Nat
  /-- The production as text, for display only. -/
  text : String
  precedence : Option Precedence
  action : Option SemanticAction
  deriving DecidableEq, Repr

/-- The tables of a parser, and what a renderer needs beside them. -/
structure ParseTable where
  startSymbol : String
  startState : Nat
  /-- The terminal that stands for the end of the input. -/
  endMark : Nat
  terminals : Array Terminal
  nonterminals : Array Nonterminal
  rules : Array TableRule
  /-- Actions by state and terminal. -/
  actions : Array (Array Action)
  /-- Gotos by state and nonterminal. -/
  gotos : Array (Array (Option Nat))
  conflicts : List Conflict
  literalBlock : String
  union : Option String
  support : String
  deriving DecidableEq, Repr

namespace Grammar

variable (g : Grammar)

/-- The number of 64-bit words. -/
def wordCount : Nat := 0x10000000000000000

/-- The goto column of a symbol: nonterminals count from zero. A terminal has no column; its place
    before the first column is written as a 64-bit word. -/
def column (symbol : Nat) : Nat :=
  if g.terminalCount ≤ symbol then symbol - g.terminalCount
  else wordCount + symbol - g.terminalCount

/-- A production as a parser sees it. -/
def tableRule (p : Production) : TableRule where
  left := g.column p.left
  arity := p.right.length
  text := g.productionText p
  precedence := p.precedence
  action := p.action

/-- The actions of a row, one for every terminal. -/
def denseRow (row : IndexMap Action) : Array Action :=
  ((List.range g.terminalCount).map row.action).toArray

/-- The gotos of a state, one for every nonterminal. -/
def gotoRow (s : State) : Array (Option Nat) :=
  ((List.range g.nonterminalCount).map fun n => s.edges.find (g.terminalCount + n)).toArray

end Grammar

namespace ParseTable

/-- Puts the tables of an automaton together. -/
def assemble (g : Grammar) (a : Automaton) (t : ActionTable) : ParseTable where
  startSymbol := g.symbolName g.startSymbol
  startState := a.start
  endMark := g.endMark
  terminals := g.terminals
  nonterminals := g.nonterminals
  rules := g.productions.map g.tableRule
  actions := t.rows.map g.denseRow
  gotos := a.states.map g.gotoRow
  conflicts := t.conflicts
  literalBlock := g.literalBlock
  union := g.union
  support := g.support

/-- The number of states. -/
def stateCount (t : ParseTable) : Nat := t.actions.size

/-- The number of the terminal with the given name. -/
def terminalIndex? (t : ParseTable) (name : String) : Option Nat :=
  t.terminals.findIdx? (·.name == name)

/-- The name of a terminal. -/
def terminalName (t : ParseTable) (terminal : Nat) : String :=
  (t.terminals[terminal]?.map Terminal.name).getD ""

/-- The action in a cell; blank for a cell that does not exist. -/
def actionAt (t : ParseTable) (state terminal : Nat) : Action :=
  match t.actions[state]? with
  | none => .error
  | some row => row.getD terminal .error

/-- The cell of a goto; nothing if there is no such cell. -/
def gotoCell? (t : ParseTable) (state column : Nat) : Option (Option Nat) :=
  t.gotos[state]?.bind fun row => row[column]?

end ParseTable

end SlrCompiler
