import SlrCompiler.GrammarError
import SlrCompiler.Text.Comment

/-! # The blocks of a declarations section

    Before its lines are read, a declarations section is relieved of the code that it
    carries: the first literal block `%{ … %}`, the first `%union { … }` and all
    comments. Each of them leaves its line ends behind, so that the directives keep
    their line numbers.
-/

namespace SlrCompiler

open Text

/-- A declarations section with its code taken out. -/
structure Blocks where
  /-- What stands between `%{` and `%}`; empty if there is no literal block. -/
  literalBlock : List Char
  /-- The union's text, from its opening to its closing brace. -/
  union : Option (List Char)
  /-- The section without literal block, union and comments. -/
  directives : List Char
  deriving DecidableEq, Repr

namespace Blocks

/-! ## The literal block -/

/-- Takes out the first literal block. -/
def takeLiteralBlock (text : List Char) : Except GrammarError (List Char × List Char) :=
  match cutAt ['%', '{'] text with
  | none => .ok ([], text)
  | some (before, rest) =>
    match cutAt ['%', '}'] rest with
    | none => .error .unmatchedLiteralBlock
    | some (block, after) => .ok (block, before ++ lineEnds block ++ after)

/-! ## The union -/

/-- The text up to the brace that closes `depth + 1` open ones, that brace included, and the
    text after it. -/
def closeBraces : Nat → List Char → Option (List Char × List Char)
  | _, [] => none
  | depth, '{' :: rest =>
    (closeBraces (depth + 1) rest).map fun (inner, after) => ('{' :: inner, after)
  | 0, '}' :: rest => some (['}'], rest)
  | depth + 1, '}' :: rest =>
    (closeBraces depth rest).map fun (inner, after) => ('}' :: inner, after)
  | depth, c :: rest => (closeBraces depth rest).map fun (inner, after) => (c :: inner, after)

/-- Takes out the first `%union`, from its keyword to its closing brace. -/
def takeUnion (text : List Char) : Except GrammarError (Option (List Char) × List Char) :=
  match cutAt "%union".toList text with
  | none => .ok (none, text)
  | some (before, rest) =>
    match cutAt ['{'] rest with
    | none => .error .incompleteUnion
    | some (gap, body) =>
      match closeBraces 0 body with
      | none => .error .incompleteUnion
      | some (inner, after) =>
        .ok (some ('{' :: inner), before ++ lineEnds (gap ++ inner) ++ after)

/-! ## All of them -/

/-- Takes out the literal block, then the union, then the comments. -/
def ofText (text : List Char) : Except GrammarError Blocks := do
  let (literalBlock, text) ← takeLiteralBlock text
  let (union, text) ← takeUnion text
  match stripComments text with
  | none => .error (.unmatchedComment .declarations)
  | some directives => .ok { literalBlock, union, directives }

/-- A name is a member of the union if the union's text holds it as a whole name. -/
def declares (b : Blocks) (member : List Char) : Bool :=
  match b.union with
  | none => false
  | some union => (identifiers union).contains member

end Blocks

end SlrCompiler
