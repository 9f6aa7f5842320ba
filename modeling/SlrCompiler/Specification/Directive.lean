import SlrCompiler.Grammar.Precedence
import SlrCompiler.GrammarError
import SlrCompiler.Text.Cutting

/-! # Directives

    A line of the declarations section is read by its first word. The words after
    `%token` and `%type` are symbols, each of which may have a union member, written
    `<member>`, right before it. The words after a precedence directive are symbols
    throughout.
-/

namespace SlrCompiler

open Text

/-- A line of the declarations section that holds a word. -/
inductive Directive where
  | token (words : List (List Char))
  | type (words : List (List Char))
  | precedence (associativity : Associativity) (words : List (List Char))
  /-- A line that opens with no known directive; it declares nothing. -/
  | unrecognized (text : List Char)
  deriving DecidableEq, Repr

namespace Directive

/-- The directive that a first word names, given the words after it. -/
def ofKeyword (keyword : String) (arguments : List (List Char)) (line : List Char) : Directive :=
  match keyword with
  | "%token" => .token arguments
  | "%type" => .type arguments
  | "%left" => .precedence .left arguments
  | "%right" => .precedence .right arguments
  | "%nonassoc" => .precedence .nonassoc arguments
  | _ => .unrecognized (trim line)

/-- The directive on a line; nothing for a line without words. -/
def ofLine (line : List Char) : Option Directive :=
  match words line with
  | [] => none
  | keyword :: arguments => some (ofKeyword (String.ofList keyword) arguments line)

/-- The directives of a text with their line numbers, the first line being number one. -/
def numbered (text : List Char) : List (Nat × Directive) :=
  ((lines text).zipIdx 1).filterMap fun (line, number) => (ofLine line).map fun d => (number, d)

/-! ## Union members -/

/-- The member that a word names, given the word without its opening `<`. -/
def memberOf (inner : List Char) : Option (List Char) :=
  if inner.getLast? = some '>' ∧ inner.dropLast ≠ [] then some inner.dropLast else none

/-- Goes through the words of a line and gives each symbol the member written right before it.
    `pending` is the member that the next symbol takes, `declared` tells the members that the
    union has. -/
def bindMembers (declared : List Char → Bool) (line : Nat) :
    Option String → List (List Char) → Except GrammarError (List (String × Option String))
  | _, [] => .ok []
  | pending, ('<' :: inner) :: rest =>
    match memberOf inner, pending with
    | some member, none =>
      if declared member then bindMembers declared line (some (String.ofList member)) rest
      else .error (.unknownUnionMember line (String.ofList member))
    | _, _ => .error (.malformedUnionMember line (String.ofList ('<' :: inner)))
  | pending, name :: rest =>
    (bindMembers declared line none rest).map fun symbols =>
      (String.ofList name, pending) :: symbols

end Directive

end SlrCompiler
