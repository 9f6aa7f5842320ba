import SlrCompiler.Grammar.Precedence
import SlrCompiler.ReservedNames
import SlrCompiler.Specification.Lexeme

/-! # Rules

    A rules section is a sequence of rules `name : alternative | … | alternative ;`.
    Reading it gives one `Rule` for each alternative, in the order of the text, after
    the augmenting rule that leads from `$accept` to the start symbol. Symbols are names
    here; nothing is resolved yet.

    A rule has the precedence of its last `%prec` argument that has a declared
    precedence, and otherwise that of the last symbol of its right side that has one.
-/

namespace SlrCompiler

open Text

/-- A symbol of a right side as it is written. -/
inductive RuleSymbol where
  /-- A quoted terminal, quotes included. -/
  | literal (text : String)
  | name (text : String)
  deriving DecidableEq, Repr

/-- The name by which a symbol is known. -/
def RuleSymbol.text : RuleSymbol → String
  | .literal text => text
  | .name text => text

/-- The text of a quoted symbol. -/
def RuleSymbol.literal? : RuleSymbol → Option String
  | .literal text => some text
  | .name _ => none

/-- One alternative of a rule, its symbols by name. -/
structure Rule where
  left : String
  right : List RuleSymbol
  /-- The action's text, braces included. -/
  action : Option String
  precedence : Option Precedence
  /-- The line of the mark that opened the alternative; zero for the augmenting rule. -/
  line : Nat
  deriving DecidableEq, Repr

namespace Rule

/-- The rule that leads from `$accept` to the start symbol. -/
def augmenting (startSymbol : String) : Rule where
  left := acceptName
  right := [.name startSymbol]
  action := none
  precedence := none
  line := 0

/-! ## Views of a list of rules -/

/-- The quoted terminals of some rules in order of first appearance. -/
def literals (rules : List Rule) : List String :=
  (rules.flatMap fun r => r.right.filterMap RuleSymbol.literal?).eraseDups

/-- The left sides of some rules in order of first appearance. -/
def leftSides (rules : List Rule) : List String := (rules.map Rule.left).eraseDups

/-- The left sides of the rules without symbols, in order of first appearance. -/
def emptyLeftSides (rules : List Rule) : List String :=
  ((rules.filter fun r => r.right.isEmpty).map Rule.left).eraseDups

/-! ## An alternative under construction -/

/-- An alternative that is being read. -/
structure Draft where
  left : String
  line : Nat
  right : List RuleSymbol
  action : Option String
  /-- The precedence of the last symbol that has one. -/
  inherited : Option Precedence
  /-- The precedence of the last `%prec` argument that has one. -/
  overridden : Option Precedence
  deriving DecidableEq, Repr

namespace Draft

/-- An alternative that has just been opened. -/
def opened (left : String) (line : Nat) : Draft where
  left := left
  line := line
  right := []
  action := none
  inherited := none
  overridden := none

/-- Adds a symbol at the end. -/
def addSymbol (precedence : String → Option Precedence) (d : Draft) (s : RuleSymbol) : Draft :=
  { d with right := d.right ++ [s], inherited := (precedence s.text).or d.inherited }

/-- Takes up a `%prec` argument; one without a declared precedence changes nothing. -/
def addPrec (precedence : String → Option Precedence) (d : Draft) (argument : String) : Draft :=
  { d with overridden := (precedence argument).or d.overridden }

/-- The finished alternative. -/
def close (d : Draft) : Rule where
  left := d.left
  right := d.right
  action := d.action
  precedence := d.overridden.or d.inherited
  line := d.line

end Draft

/-! ## Reading -/

/-- Where in a rule the reader stands. -/
inductive Place where
  /-- Before a left side. -/
  | between
  /-- After a left side, before its colon. -/
  | named (left : String)
  | inside (draft : Draft)
  deriving DecidableEq, Repr

/-- The state of reading: the place, and the alternatives that are finished. -/
structure Reading where
  place : Place
  rules : List Rule
  deriving DecidableEq, Repr

namespace Reading

/-- The state before the first lexeme. -/
def start (startSymbol : String) : Reading := ⟨.between, [augmenting startSymbol]⟩

/-- Takes up one lexeme. -/
def feed (precedence : String → Option Precedence) (r : Reading) (p : PlacedLexeme) :
    Except RuleFault Reading :=
  match p.lexeme, r.place with
  | .colon, .between => .error .colonWithoutLeft
  | .colon, .named left => .ok { r with place := .inside (.opened left p.line) }
  | .colon, .inside _ => .error .colonInRight
  | .bar, .inside d => .ok ⟨.inside (.opened d.left p.line), r.rules ++ [d.close]⟩
  | .bar, _ => .error .barWithoutRule
  | .semicolon, .inside d => .ok ⟨.between, r.rules ++ [d.close]⟩
  | .semicolon, _ => .error .semicolonWithoutRule
  | .literal text, .inside d =>
    .ok { r with place := .inside (d.addSymbol precedence (.literal text)) }
  | .literal _, _ => .error (.misplaced .literal)
  | .action text, .inside d =>
    if d.action.isSome then .error .secondAction
    else .ok { r with place := .inside { d with action := some text } }
  | .action _, _ => .error (.misplaced .action)
  | .prec argument, .inside d => .ok { r with place := .inside (d.addPrec precedence argument) }
  | .prec _, _ => .error (.misplaced .prec)
  | .name text, .inside d =>
    .ok { r with place := .inside (d.addSymbol precedence (.name text)) }
  | .name _, .named left => .error (.missingColon left)
  | .name text, .between => .ok { r with place := .named text }

/-- Takes up lexemes in order, up to the first that is out of place. -/
def feedAll (precedence : String → Option Precedence) (r : Reading) :
    List PlacedLexeme → Except GrammarError Reading
  | [] => .ok r
  | p :: rest =>
    match feed precedence r p with
    | .error fault => .error (.malformedRule p.line fault)
    | .ok next => feedAll precedence next rest

/-- The rules read, if the text may end here. -/
def finish (r : Reading) (line : Nat) : Except GrammarError (List Rule) :=
  match r.place with
  | .between => .ok r.rules
  | _ => .error (.malformedRule line .unterminatedRule)

end Reading

/-- Reads a rules section. A lexeme out of place is reported before a fault of the text after
    it. -/
def parse (startSymbol : String) (precedence : String → Option Precedence) (text : List Char) :
    Except GrammarError (List Rule) :=
  let scan := Lexeme.scan 1 text
  match Reading.feedAll precedence (.start startSymbol) scan.lexemes with
  | .error e => .error e
  | .ok reading =>
    match scan.ending with
    | .error e => .error e
    | .ok line => reading.finish line

end Rule

end SlrCompiler
