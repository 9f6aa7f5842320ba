import SlrCompiler.Grammar.Basic
import SlrCompiler.Specification.Declarations
import SlrCompiler.Specification.Rule
import SlrCompiler.Specification.Sections

/-! # Resolution of names

    A specification becomes a grammar when its names are resolved to symbols. Terminals
    are the declared tokens, then `error` and `$end`, then the quoted literals that no
    line declares; nonterminals are `$accept` and the left sides of the rules. Every
    name in a right side has to be one of them, and no declared token may be a left
    side.
-/

namespace SlrCompiler

namespace Grammar

/-! ## The symbols -/

/-- The names of the terminals in order. -/
def terminalNames (d : Declarations) (rules : List Rule) : List String :=
  (d.tokens ++ [errorName, endName] ++ Rule.literals rules).eraseDups

/-- The terminal with the given name as it is declared. -/
def declaredTerminal (d : Declarations) (name : String) : Terminal where
  name := name
  precedence := d.precedence.lookup name
  unionMember := d.tokenMembers.lookup name

/-- The nonterminal with the given name as it is declared. -/
def declaredNonterminal (d : Declarations) (name : String) : Nonterminal where
  name := name
  unionMember := d.typeMembers.lookup name

/-- A token that is a left side: the first declared one, or else `error`. -/
def tokenOnLeft (d : Declarations) (rules : List Rule) : Option String :=
  match d.tokens.find? (· ∈ Rule.leftSides rules) with
  | some name => some name
  | none => if errorName ∈ Rule.leftSides rules then some errorName else none

/-- The grammar of a specification before its productions are resolved. -/
def withSymbols (s : Sections) (d : Declarations) (rules : List Rule) : Grammar where
  terminals := ((terminalNames d rules).map (declaredTerminal d)).toArray
  nonterminals := ((Rule.leftSides rules).map (declaredNonterminal d)).toArray
  productions := #[]
  startSymbol := 0
  acceptSymbol := 0
  endMark := 0
  errorSymbol := 0
  epsilon := []
  literalBlock := d.literalBlock
  union := d.union
  support := String.ofList s.support

/-! ## The productions -/

variable (g : Grammar)

/-- Resolves the symbols of a right side, up to the first name that is unknown. -/
def resolveRight : List RuleSymbol → Except GrammarError (List Nat)
  | [] => .ok []
  | s :: rest =>
    match g.symbolIndex? s.text with
    | none => .error (.undefinedSymbol s.text)
    | some i => (resolveRight rest).map (i :: ·)

/-- Reads the action of a rule, if it has one. -/
def resolveAction (rule arity : Nat) : Option String → Except GrammarError (Option SemanticAction)
  | none => .ok none
  | some text => (SemanticAction.parse text.toList rule arity).map some

/-- Resolves one rule. -/
def resolveRule (number : Nat) (r : Rule) : Except GrammarError Production :=
  match g.symbolIndex? r.left with
  | none => .error (.internal (.lostLeftSide r.left))
  | some left =>
    match g.resolveRight r.right with
    | .error e => .error e
    | .ok right =>
      (resolveAction number right.length r.action).map fun action =>
        { left, right, precedence := r.precedence, action }

/-- Resolves rules in order, the first of them having the given number. -/
def resolveRules (number : Nat) : List Rule → Except GrammarError (List Production)
  | [] => .ok []
  | r :: rest =>
    match g.resolveRule number r with
    | .error e => .error e
    | .ok p => (resolveRules (number + 1) rest).map (p :: ·)

/-! ## The grammar -/

/-- The symbol with the given name, or else a refusal. -/
def require (name : String) (e : GrammarError) : Except GrammarError Nat :=
  match g.symbolIndex? name with
  | none => .error e
  | some i => .ok i

/-- Resolves the rules of a specification. -/
def resolve (s : Sections) (d : Declarations) (rules : List Rule) : Except GrammarError Grammar :=
  match tokenOnLeft d rules with
  | some name => .error (.terminalOnLeft name)
  | none => do
    let g := withSymbols s d rules
    let productions ← g.resolveRules 0 rules
    let startSymbol ← g.require s.startSymbol .missingStartRule
    let acceptSymbol ← g.require acceptName (.internal .missingAugmentingSymbol)
    let endMark ← g.require endName (.internal .missingEndMark)
    let errorSymbol ← g.require errorName (.internal .missingErrorToken)
    return { g with
      productions := productions.toArray
      startSymbol, acceptSymbol, endMark, errorSymbol
      epsilon := (Rule.emptyLeftSides rules).filterMap g.symbolIndex? }

/-- Reads a specification and resolves its names. -/
def parse (spec : String) : Except GrammarError Grammar :=
  match Sections.split spec.toList with
  | .error e => .error e
  | .ok s =>
    match Declarations.parse s.declarations with
    | .error e => .error e
    | .ok d =>
      match Rule.parse s.startSymbol d.precedence.lookup s.rules with
      | .error e => .error e
      | .ok rules => resolve s d rules

end Grammar

end SlrCompiler
