import SlrCompiler.Grammar.Precedence
import SlrCompiler.ReservedNames
import SlrCompiler.Specification.SemanticAction

/-! # Grammars

    A grammar numbers its symbols: terminals come first, nonterminals follow. A
    production is a left side and a right side of symbol numbers, and production 0 leads
    from `$accept` to the start symbol.
-/

namespace SlrCompiler

/-- A symbol that stands for a token of the input. -/
structure Terminal where
  name : String
  precedence : Option Precedence
  unionMember : Option String
  deriving DecidableEq, Repr

/-- A symbol that productions expand. -/
structure Nonterminal where
  name : String
  unionMember : Option String
  deriving DecidableEq, Repr

/-- One way to expand a symbol. -/
structure Production where
  left : Nat
  right : List Nat
  precedence : Option Precedence
  action : Option SemanticAction
  deriving DecidableEq, Repr

/-- A grammar with its symbols resolved to numbers. -/
structure Grammar where
  terminals : Array Terminal
  nonterminals : Array Nonterminal
  productions : Array Production
  startSymbol : Nat
  acceptSymbol : Nat
  endMark : Nat
  errorSymbol : Nat
  /-- The left sides of the rules without symbols, in order of first appearance. -/
  epsilon : List Nat
  literalBlock : String
  union : Option String
  support : String
  deriving DecidableEq, Repr

namespace Grammar

variable (g : Grammar)

/-! ## Symbols -/

/-- The number of terminals, and so the number of the first nonterminal. -/
def terminalCount : Nat := g.terminals.size

/-- The number of nonterminals. -/
def nonterminalCount : Nat := g.nonterminals.size

/-- The number of symbols. -/
def symbolCount : Nat := g.terminalCount + g.nonterminalCount

/-- Terminals have the lower numbers. -/
def isTerminal (symbol : Nat) : Bool := symbol < g.terminalCount

/-- The name of a symbol. -/
def symbolName (symbol : Nat) : String :=
  match g.terminals[symbol]? with
  | some t => t.name
  | none => (g.nonterminals[symbol - g.terminalCount]?.map Nonterminal.name).getD ""

/-- The number of the symbol with the given name. -/
def symbolIndex? (name : String) : Option Nat :=
  match g.terminals.findIdx? (·.name == name) with
  | some i => some i
  | none => (g.nonterminals.findIdx? (·.name == name)).map (g.terminalCount + ·)

/-- The declared precedence of a terminal; a nonterminal has none. -/
def precedenceOf (symbol : Nat) : Option Precedence := g.terminals[symbol]?.bind Terminal.precedence

/-- All symbols in order. -/
def symbols : List Nat := List.range g.symbolCount

/-- A bound on the rounds in which symbols are collected: each round but the last adds one. -/
def rounds : Nat := g.symbolCount + 1

/-! ## Productions -/

/-- The number of productions. -/
def productionCount : Nat := g.productions.size

/-- The right side of a production. -/
def rightSide (production : Nat) : List Nat := (g.productions[production]?.map Production.right).getD []

/-- The precedence of a production. -/
def productionPrecedence (production : Nat) : Option Precedence :=
  g.productions[production]?.bind Production.precedence

/-- The numbers of the productions with the given left side; a terminal has none. -/
def productionsOf (left : Nat) : List Nat :=
  if g.isTerminal left then []
  else (List.range g.productionCount).filter fun p => g.productions[p]?.any (·.left == left)

/-- The first production with the given left and right side. -/
def matchProduction (left : Nat) (right : List Nat) : Option Nat :=
  g.productions.findIdx? fun p => p.left == left && p.right == right

/-- A production as text: `left -> right right`. -/
def productionText (p : Production) : String :=
  let right := if p.right.isEmpty then emptyMark else " ".intercalate (p.right.map g.symbolName)
  g.symbolName p.left ++ " -> " ++ right

/-! ## Changes -/

/-- Adds a production at the end. -/
def addProduction (p : Production) : Grammar := { g with productions := g.productions.push p }

/-- Gives a terminal another precedence; a nonterminal stays as it is. -/
def setPrecedence (symbol : Nat) (precedence : Option Precedence) : Grammar :=
  { g with terminals := g.terminals.modify symbol fun t => { t with precedence } }

end Grammar

end SlrCompiler
