import SlrCompiler.Finite.Bindings
import SlrCompiler.Specification.Blocks
import SlrCompiler.Specification.Directive

/-! # Declarations

    What the declarations section says about symbols. Tokens are listed in the order in
    which they are first declared, by `%token` or by a precedence line. Every precedence
    line opens a new level, and the last line that names a symbol gives its precedence.
-/

namespace SlrCompiler

open Text

/-- The contents of a declarations section. -/
structure Declarations where
  literalBlock : String
  union : Option String
  /-- The declared tokens in order of first appearance. -/
  tokens : List String
  precedence : Bindings Precedence
  /-- The number of precedence lines. -/
  levels : Nat
  tokenMembers : Bindings String
  typeMembers : Bindings String
  deriving DecidableEq, Repr

namespace Declarations

/-- The declarations before any directive is read. -/
def ofBlocks (b : Blocks) : Declarations where
  literalBlock := String.ofList b.literalBlock
  union := b.union.map String.ofList
  tokens := []
  precedence := .empty
  levels := 0
  tokenMembers := .empty
  typeMembers := .empty

/-- Adds a token unless it is declared already. -/
def addToken (d : Declarations) (name : String) : Declarations :=
  if name ∈ d.tokens then d else { d with tokens := d.tokens ++ [name] }

/-- Binds a name to its member, if it has one. -/
def bindMember (b : Bindings String) : String × Option String → Bindings String
  | (_, none) => b
  | (name, some member) => b.bind name member

/-- Declares the symbols of a `%token` line. -/
def addTokenLine (d : Declarations) (symbols : List (String × Option String)) : Declarations :=
  symbols.foldl
    (fun d symbol =>
      { d.addToken symbol.1 with tokenMembers := bindMember d.tokenMembers symbol })
    d

/-- Declares the symbols of a `%type` line. -/
def addTypeLine (d : Declarations) (symbols : List (String × Option String)) : Declarations :=
  { d with typeMembers := symbols.foldl bindMember d.typeMembers }

/-- Declares the symbols of a precedence line, on a level above all earlier ones. -/
def addPrecedenceLine (d : Declarations) (associativity : Associativity)
    (names : List String) : Declarations :=
  let level := d.levels + 1
  names.foldl
    (fun d name =>
      { d.addToken name with precedence := d.precedence.bind name ⟨associativity, level⟩ })
    { d with levels := level }

/-- Takes up one directive of a section with the given blocks. -/
def declare (blocks : Blocks) (d : Declarations) :
    Nat × Directive → Except GrammarError Declarations
  | (line, .token words) =>
    (Directive.bindMembers blocks.declares line none words).map d.addTokenLine
  | (line, .type words) =>
    if blocks.union.isNone then .error (.typeWithoutUnion line)
    else (Directive.bindMembers blocks.declares line none words).map d.addTypeLine
  | (_, .precedence associativity words) =>
    .ok (d.addPrecedenceLine associativity (words.map String.ofList))
  | (_, .unrecognized _) => .ok d

/-- Takes up directives in order, up to the first that is refused. -/
def declareAll (blocks : Blocks) (d : Declarations) :
    List (Nat × Directive) → Except GrammarError Declarations
  | [] => .ok d
  | directive :: rest =>
    match declare blocks d directive with
    | .error e => .error e
    | .ok next => declareAll blocks next rest

/-- Reads a declarations section. -/
def parse (text : List Char) : Except GrammarError Declarations :=
  match Blocks.ofText text with
  | .error e => .error e
  | .ok blocks => declareAll blocks (ofBlocks blocks) (Directive.numbered blocks.directives)

end Declarations

end SlrCompiler
