import SlrCompiler.Compilation
import SlrCompiler.Recognition

/-! # The journal

    What a compilation and a recognition report while they go on, as a list of records.
    The records are read off the results of the stages, each of which is computed
    without them: warnings about lines and arguments that are passed over, counts at the
    end of a stage, the states as they are discovered, the cells as they change, and the
    moves of a run.

    A stage that refuses its input reports what it met before the refusal, and nothing
    after it.
-/

namespace SlrCompiler

/-- How much a record matters; the first kind matters most. -/
inductive Severity where
  | warn
  | debug
  | trace
  deriving DecidableEq, Repr

/-- A higher rank matters less. -/
def Severity.rank : Severity → Nat
  | .warn => 0
  | .debug => 1
  | .trace => 2

/-- A line of the journal. -/
structure Record where
  severity : Severity
  message : String
  deriving DecidableEq, Repr

namespace Journal

/-- The records that matter at least as much as the given severity. -/
def keep (least : Severity) (records : List Record) : List Record :=
  records.filter fun r => r.severity.rank ≤ least.rank

/-! ## Declarations -/

/-- The record of a directive that declares nothing. -/
def skipped : Nat × Directive → List Record
  | (line, .unrecognized text) =>
    [⟨.warn, inDeclarations line ("skipping unrecognized line '" ++ String.ofList text ++ "'")⟩]
  | _ => []

/-- The counts at the end of the declarations. -/
def declarationsDone (d : Declarations) : Record :=
  let tokens := d.tokens.length
  let levels := d.precedence.size
  let union := d.union.isSome
  ⟨.debug, s!"declarations: {tokens} tokens, {levels} with precedence, union: {union}"⟩

/-- The records of directives taken up in order. -/
def ofDirectives (blocks : Blocks) (d : Declarations) : List (Nat × Directive) → List Record
  | [] => [declarationsDone d]
  | directive :: rest =>
    match Declarations.declare blocks d directive with
    | .error _ => []
    | .ok next => skipped directive ++ ofDirectives blocks next rest

/-- The records of reading a declarations section. -/
def ofDeclarations (text : List Char) : List Record :=
  match Blocks.ofText text with
  | .error _ => []
  | .ok blocks =>
    ofDirectives blocks (.ofBlocks blocks) (Directive.numbered blocks.directives)

/-! ## Rules -/

/-- The record of a `%prec` clause whose argument has no precedence. -/
def ignoredPrec (precedence : String → Option Precedence) (p : PlacedLexeme) : List Record :=
  match p.lexeme with
  | .prec argument =>
    if (precedence argument).isSome then []
    else
      let note := " has no declared precedence, keeping the inherited one"
      [⟨.warn, inRules p.line ("%prec " ++ argument ++ note)⟩]
  | _ => []

/-- The records of lexemes taken up in order. -/
def ofLexemes (precedence : String → Option Precedence) (r : Rule.Reading) :
    List PlacedLexeme → List Record
  | [] => []
  | p :: rest =>
    match r.feed precedence p with
    | .error _ => []
    | .ok next => ignoredPrec precedence p ++ ofLexemes precedence next rest

/-- The counts at the end of the rules. -/
def rulesDone (rules : List Rule) : Record :=
  let count := rules.length
  let literals := (Rule.literals rules).length
  ⟨.debug, s!"rules: {count} productions, {literals} literal tokens"⟩

/-- The records of reading a rules section. -/
def ofRules (startSymbol : String) (precedence : String → Option Precedence)
    (text : List Char) : List Record :=
  ofLexemes precedence (.start startSymbol) (Lexeme.scan 1 text).lexemes
    ++ match Rule.parse startSymbol precedence text with
      | .error _ => []
      | .ok rules => [rulesDone rules]

/-! ## The grammar -/

/-- The records of the `%type` lines that name no nonterminal, in the order of their messages. -/
def ignoredTypes (d : Declarations) (rules : List Rule) : List Record :=
  let ignored := d.typeMembers.names.filter (· ∉ Rule.leftSides rules)
  let messages := ignored.map fun name =>
    "%type binding for '" ++ name ++ "' ignored: not a nonterminal"
  (messages.mergeSort fun a b => a ≤ b).map fun message => ⟨.warn, message⟩

/-- The counts at the end of resolution. -/
def grammarDone (g : Grammar) : Record :=
  let terminals := g.terminalCount
  let nonterminals := g.nonterminalCount
  let rules := g.productionCount
  ⟨.debug, s!"grammar: {terminals} terminals, {nonterminals} nonterminals, {rules} rules"⟩

/-- The records of resolving names. -/
def ofResolution (s : Sections) (d : Declarations) (rules : List Rule) : List Record :=
  match Grammar.tokenOnLeft d rules with
  | some _ => []
  | none =>
    ignoredTypes d rules
      ++ match Grammar.resolve s d rules with
        | .error _ => []
        | .ok g => [grammarDone g]

/-- The records of reading a specification. -/
def ofGrammar (spec : String) : List Record :=
  match Sections.split spec.toList with
  | .error _ => []
  | .ok s =>
    ofDeclarations s.declarations
      ++ match Declarations.parse s.declarations with
        | .error _ => []
        | .ok d =>
          ofRules s.startSymbol d.precedence.lookup s.rules
            ++ match Rule.parse s.startSymbol d.precedence.lookup s.rules with
              | .error _ => []
              | .ok rules => ofResolution s d rules

/-! ## The automaton -/

/-- An edge of an automaton. -/
structure Edge where
  source : Nat
  symbol : Nat
  target : Nat
  deriving DecidableEq, Repr

/-- The edges of an automaton by source, then by symbol. -/
def edges (a : Automaton) : List Edge :=
  a.states.toList.zipIdx.flatMap fun (s, source) =>
    s.edges.entries.map fun (symbol, target) => ⟨source, symbol, target⟩

/-- The edges along which states were discovered, given the number of the next state. -/
def discoveries (next : Nat) : List Edge → List Edge
  | [] => []
  | e :: rest => if e.target = next then e :: discoveries (next + 1) rest else discoveries next rest

/-- The record of a state that was discovered along an edge. -/
def discovered (g : Grammar) (a : Automaton) (e : Edge) : Record :=
  let items := (a.states[e.target]?.map fun s => s.items.toList.map (Item.text g)).getD []
  let source := e.source
  let target := e.target
  let symbol := g.symbolName e.symbol
  ⟨.trace, s!"state {target} = goto({source}, {symbol}): [" ++ "; ".intercalate items ++ "]"⟩

/-- The records of building an automaton. -/
def ofAutomaton (g : Grammar) (a : Automaton) : List Record :=
  let states := a.size
  (discoveries 1 (edges a)).map (discovered g a) ++ [⟨.debug, s!"automaton: {states} states"⟩]

/-! ## The action table -/

/-- An action in a record. -/
def actionText : Action → String
  | .shift target => s!"Shift({target})"
  | .reduce rule => s!"Reduce({rule})"
  | .accept => "Accept"
  | .error => "Error"

/-- A kind of conflict in a record. -/
def conflictText : ConflictKind → String
  | .shiftReduce => "shift/reduce"
  | .reduceReduce => "reduce/reduce"

/-- The record of a choice by default. -/
def conflictRecord (g : Grammar) (c : Conflict) : Record :=
  let kind := conflictText c.kind
  let state := c.state
  let terminal := g.symbolName c.terminal
  let existing := actionText c.existing
  let proposed := actionText c.proposed
  let chosen := actionText c.chosen
  ⟨.warn, s!"{kind} conflict in state {state} on {terminal}: {existing} vs {proposed}, "
    ++ s!"choosing {chosen}"⟩

/-- The record of a cell that changes. -/
def changeRecord (g : Grammar) (d : Decision) : Record :=
  let state := d.state
  let terminal := g.symbolName d.terminal
  let chosen := actionText d.settlement.chosen
  ⟨.trace, s!"action[{state}, {terminal}] = {chosen}"⟩

/-- The records of a decision. -/
def ofDecision (g : Grammar) (d : Decision) : List Record :=
  d.conflict?.toList.map (conflictRecord g) ++ if d.changes then [changeRecord g d] else []

/-- The records of filling an action table. -/
def ofActionTable (g : Grammar) (t : ActionTable) : List Record :=
  let states := t.rows.size
  let conflicts := t.conflicts.length
  t.decisions.flatMap (ofDecision g)
    ++ [⟨.debug, s!"action table: {states} states, {conflicts} conflicts resolved by default"⟩]

/-- The records of compiling a specification. -/
def ofCompilation (spec : String) : List Record :=
  ofGrammar spec
    ++ match Grammar.parse spec with
      | .error _ => []
      | .ok g =>
        let a := g.automaton
        ofAutomaton g a
          ++ match g.actionTable g.lookahead a with
            | .error _ => []
            | .ok t => ofActionTable g t

/-! ## Recognition -/

/-- The record of the move that a configuration makes. -/
def moveRecord (t : ParseTable) (input : Array Nat) (c : Configuration) : List Record :=
  match c.action t input with
  | some (terminal, .shift target) =>
    let name := t.terminalName terminal
    [⟨.trace, s!"shift {name} -> {target}"⟩]
  | some (_, .reduce rule) =>
    (t.rules[rule]?.map fun r => ⟨.trace, "reduce " ++ r.text⟩).toList
  | some (_, .accept) => [⟨.trace, "accept"⟩]
  | _ => []

/-- The records of a run. -/
def ofRun (t : ParseTable) (input : Array Nat) : Nat → Configuration → List Record
  | 0, _ => []
  | steps + 1, c =>
    moveRecord t input c
      ++ match c.step t input with
        | .next next => ofRun t input steps next
        | _ => []

/-- The records of recognising an input. -/
def ofRecognition (t : ParseTable) (tokens : List String) : List Record :=
  match t.terminalIndices tokens with
  | .error _ => []
  | .ok terminals =>
    let input := t.input terminals
    ofRun t input (t.stepBound input.size) t.begin

end Journal

end SlrCompiler
