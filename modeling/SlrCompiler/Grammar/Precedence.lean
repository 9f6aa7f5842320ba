/-! # Precedence

    A precedence line gives its symbols an associativity and a level. A higher level
    binds tighter, and among equal levels the associativity decides.
-/

namespace SlrCompiler

/-- How operators of one level group. -/
inductive Associativity where
  | left
  | right
  | nonassoc
  deriving DecidableEq, Repr

/-- The precedence of a terminal, inherited by rules. -/
structure Precedence where
  associativity : Associativity
  level : Nat
  deriving DecidableEq, Repr

/-- The two sides of a choice between reading on and closing a rule. -/
inductive Preference where
  | shift
  | reduce
  deriving DecidableEq, Repr

namespace Precedence

/-- What the precedences of the next terminal and of the finished rule decide: the higher level
    wins, and a tie goes by the terminal's associativity. A nonassociative tie decides nothing. -/
def favoured (terminal rule : Precedence) : Option Preference :=
  if rule.level < terminal.level then some .shift
  else if terminal.level < rule.level then some .reduce
  else match terminal.associativity with
    | .right => some .shift
    | .left => some .reduce
    | .nonassoc => none

/-- Without a precedence on both sides nothing is decided. -/
def favoured? : Option Precedence → Option Precedence → Option Preference
  | some terminal, some rule => favoured terminal rule
  | _, _ => none

end Precedence

end SlrCompiler
