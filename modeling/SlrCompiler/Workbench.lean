import SlrCompiler.Recognition

/-! # The workbench

    A workbench holds a grammar and all that is made of it, and lets each of them be
    looked at and edited on its own. An edit changes only the thing it names: FIRST and
    FOLLOW and the automaton keep to the grammar they were built from until they are
    rebuilt, and the tables keep to their own sources likewise. A command that is
    refused changes nothing.
-/

namespace SlrCompiler

/-- A grammar and what was made of it. -/
structure Workbench where
  grammar : Grammar
  lookahead : Lookahead
  automaton : Automaton
  /-- The item set at hand. -/
  cursor : ItemSet
  table : Option ActionTable
  parseTable : Option ParseTable

/-! ## Commands and answers -/

/-- Commands on the grammar and on FIRST and FOLLOW; symbols are given by name. -/
inductive GrammarCommand where
  | addProduction (left : String) (right : List String) (precedence : Option Precedence)
  | setPrecedence (symbol : String) (precedence : Option Precedence)
  | setEpsilon (symbols : List String)
  /-- Builds FIRST, FOLLOW and the automaton anew. -/
  | rebuild
  | showSymbol (symbol : String)
  | matchProduction (left : String) (right : List String)
  | showLookahead
  | firstOfSequence (symbols : List String)

/-- Commands on items and on the automaton. -/
inductive AutomatonCommand where
  /-- Takes an item set to hand. -/
  | setItems (items : List Item)
  /-- Closes the item set at hand. -/
  | closeItems
  /-- Moves the item set at hand over a symbol. -/
  | moveItems (symbol : String)
  | showItem (item : Item)
  | showAutomaton
  | followEdge (state : Nat) (symbol : String)
  | clearStates
  | removeEdge (state : Nat) (symbol : String)
  | addItem (state : Nat) (item : Item)
  | removeItem (state : Nat) (item : Item)

/-- Commands on the tables. -/
inductive TableCommand where
  /-- Fills the action table. -/
  | fill
  | showAction (symbol : String) (state : Nat)
  /-- Puts the parse table together. -/
  | assemble
  | showParseTable
  | findTerminal (name : String)
  | setAction (state terminal : Nat) (action : Action)
  | setGoto (state column : Nat) (target : Option Nat)
  | setStartState (state : Nat)
  | recognize (tokens : List String)

/-- What a workbench can be told. -/
inductive Command where
  | onGrammar (c : GrammarCommand)
  | onAutomaton (c : AutomatonCommand)
  | onTable (c : TableCommand)

/-- What a workbench answers. -/
inductive Answer where
  | number (n : Nat)
  | index (i : Option Nat)
  | flag (b : Bool)
  | precedence (p : Option Precedence)
  | symbolIndices (symbols : List Nat)
  | symbol (index : Nat)
  | lookahead (l : Lookahead)
  | first (terminals : SortedSet Nat) (nullable : Bool)
  | items (items : ItemSet)
  /-- The item set at hand expects no such symbol. -/
  | noItems
  | item (item : Item)
  | automaton (a : Automaton)
  | stateCount (n : Nat)
  | table (t : ActionTable)
  | action (a : Action)
  | parseTable (t : ParseTable)
  | accepted

/-- What has to be made before a command can be carried out. -/
inductive Prerequisite where
  | actionTable
  | parseTable
  deriving DecidableEq, Repr

/-- Why a command is refused. -/
inductive Refusal where
  | noSuchSymbol (name : String)
  | noSuchState (state : Nat)
  | noSuchProduction (production : Nat)
  | noSuchCell (state column : Nat)
  | missing (what : Prerequisite)
  | grammar (e : GrammarError)
  | input (e : RecognizeError)
  | broken (b : Breakdown)
  | endless
  deriving DecidableEq, Repr

namespace Workbench

variable (w : Workbench)

/-! ## Setting up -/

/-- The workbench of a grammar: everything is built but the tables. -/
def ofGrammar (g : Grammar) : Workbench where
  grammar := g
  lookahead := g.lookahead
  automaton := g.automaton
  cursor := g.closure (.singleton (.initial 0))
  table := none
  parseTable := none

/-! ## Looking things up -/

/-- The number of a symbol. -/
def symbol (name : String) : Except Refusal Nat :=
  match w.grammar.symbolIndex? name with
  | none => .error (.noSuchSymbol name)
  | some i => .ok i

/-- The numbers of symbols. -/
def symbols (names : List String) : Except Refusal (List Nat) := names.mapM w.symbol

/-- An item whose production exists; its dot may stand anywhere. -/
def item (i : Item) : Except Refusal Item :=
  if i.production < w.grammar.productionCount then .ok i
  else .error (.noSuchProduction i.production)

/-- A state of the automaton. -/
def state (n : Nat) : Except Refusal State :=
  match w.automaton.states[n]? with
  | none => .error (.noSuchState n)
  | some s => .ok s

/-- The action table, once it is filled. -/
def filled : Except Refusal ActionTable :=
  match w.table with
  | none => .error (.missing .actionTable)
  | some t => .ok t

/-- The parse table, once it is put together. -/
def assembled : Except Refusal ParseTable :=
  match w.parseTable with
  | none => .error (.missing .parseTable)
  | some t => .ok t

/-! ## Editing -/

/-- Replaces a state of the automaton. -/
def setState (n : Nat) (s : State) : Workbench :=
  { w with automaton := { w.automaton with states := w.automaton.states.setIfInBounds n s } }

/-- Replaces the items of a state and tells whether they are others. -/
def setStateItems (n : Nat) (s : State) (items : ItemSet) : Workbench × Answer :=
  (w.setState n { s with items }, .flag (items ≠ s.items))

/-- Replaces the parse table. -/
def setParseTable (t : ParseTable) : Workbench := { w with parseTable := some t }

/-- Replaces a cell of a table of rows. -/
def setCell {α : Type} (rows : Array (Array α)) (row column : Nat) (value : α) :
    Array (Array α) :=
  rows.modify row fun cells => cells.setIfInBounds column value

/-- The cell of a table of rows. -/
def cell {α : Type} (rows : Array (Array α)) (row column : Nat) : Except Refusal α :=
  match rows[row]?.bind (·[column]?) with
  | none => .error (.noSuchCell row column)
  | some value => .ok value

/-- What a run answers. -/
def answerTo : Verdict → Except Refusal Answer
  | .accepted => .ok .accepted
  | .rejected e => .error (.input e)
  | .broken b => .error (.broken b)
  | .endless => .error .endless

/-! ## Carrying out commands -/

/-- Carries out a command on the grammar or on FIRST and FOLLOW. -/
def stepGrammar : GrammarCommand → Except Refusal (Workbench × Answer)
  | .addProduction left right precedence => do
    let left ← w.symbol left
    let right ← w.symbols right
    let grammar := w.grammar.addProduction { left, right, precedence, action := none }
    return ({ w with grammar }, .number w.grammar.productionCount)
  | .setPrecedence symbol precedence => do
    let symbol ← w.symbol symbol
    let grammar := w.grammar.setPrecedence symbol precedence
    return ({ w with grammar }, .precedence (grammar.precedenceOf symbol))
  | .setEpsilon symbols => do
    let epsilon ← w.symbols symbols
    return ({ w with grammar := { w.grammar with epsilon } }, .symbolIndices epsilon)
  | .rebuild =>
    let automaton := w.grammar.automaton
    .ok ({ w with lookahead := w.grammar.lookahead, automaton }, .number automaton.size)
  | .showSymbol symbol => do return (w, .symbol (← w.symbol symbol))
  | .matchProduction left right => do
    let left ← w.symbol left
    let right ← w.symbols right
    return (w, .index (w.grammar.matchProduction left right))
  | .showLookahead => .ok (w, .lookahead w.lookahead)
  | .firstOfSequence symbols => do
    let first := firstOfSequence w.lookahead.first w.lookahead.nullable (← w.symbols symbols)
    return (w, .first first.1 first.2)

/-- Carries out a command on items or on the automaton. -/
def stepAutomaton : AutomatonCommand → Except Refusal (Workbench × Answer)
  | .setItems items => do
    let cursor := SortedSet.ofList (← items.mapM w.item)
    return ({ w with cursor }, .items cursor)
  | .closeItems =>
    let cursor := w.grammar.closure w.cursor
    .ok ({ w with cursor }, .items cursor)
  | .moveItems symbol => do
    match w.grammar.goto w.cursor (← w.symbol symbol) with
    | none => return (w, .noItems)
    | some cursor => return ({ w with cursor }, .items cursor)
  | .showItem item => do return (w, .item (← w.item item))
  | .showAutomaton => .ok (w, .automaton w.automaton)
  | .followEdge state symbol => do
    return (w, .index (w.automaton.goto state (← w.symbol symbol)))
  | .clearStates =>
    .ok ({ w with automaton := { w.automaton with states := #[] } }, .stateCount 0)
  | .removeEdge state symbol => do
    let s ← w.state state
    let symbol ← w.symbol symbol
    return (w.setState state { s with edges := s.edges.erase symbol },
      .index (s.edges.find symbol))
  | .addItem state item => do
    let s ← w.state state
    return w.setStateItems state s (s.items.insert (← w.item item))
  | .removeItem state item => do
    let s ← w.state state
    return w.setStateItems state s (s.items.erase (← w.item item))

/-- Carries out a command on one of the tables. -/
def stepTable : TableCommand → Except Refusal (Workbench × Answer)
  | .fill =>
    match w.grammar.actionTable w.lookahead w.automaton with
    | .error e => .error (.grammar e)
    | .ok t => .ok ({ w with table := some t }, .table t)
  | .showAction symbol state => do
    let symbol ← w.symbol symbol
    let t ← w.filled
    return (w, .action (t.action state symbol))
  | .assemble => do
    let t := ParseTable.assemble w.grammar w.automaton (← w.filled)
    return (w.setParseTable t, .number t.stateCount)
  | .showParseTable => do return (w, .parseTable (← w.assembled))
  | .findTerminal name => do return (w, .index ((← w.assembled).terminalIndex? name))
  | .setAction state terminal action => do
    let t ← w.assembled
    let old ← cell t.actions state terminal
    return (w.setParseTable { t with actions := setCell t.actions state terminal action },
      .action old)
  | .setGoto state column target => do
    let t ← w.assembled
    let old ← cell t.gotos state column
    return (w.setParseTable { t with gotos := setCell t.gotos state column target }, .index old)
  | .setStartState state => do
    let t ← w.assembled
    return (w.setParseTable { t with startState := state }, .number t.startState)
  | .recognize tokens => do return (w, ← answerTo ((← w.assembled).recognize tokens))

/-- Carries out a command. -/
def step : Command → Except Refusal (Workbench × Answer)
  | .onGrammar c => w.stepGrammar c
  | .onAutomaton c => w.stepAutomaton c
  | .onTable c => w.stepTable c

/-- The workbench after a command: a command that is refused changes nothing. -/
def after (c : Command) : Workbench :=
  match w.step c with
  | .error _ => w
  | .ok (next, _) => next

end Workbench

end SlrCompiler
