import SlrCompiler.GrammarError
import SlrCompiler.Text.Comment

/-! # The three sections of a specification

    A specification is written `declarations %% rules %% support`. The first two `%%`
    count, wherever they stand. The rules section is kept without its comments, and the
    name before its first colon is the start symbol.
-/

namespace SlrCompiler

open Text

/-- A specification cut at its two section marks. -/
structure Sections where
  declarations : List Char
  /-- The rules, comments taken out. -/
  rules : List Char
  support : List Char
  /-- The left side of the first rule. -/
  startSymbol : String
  deriving DecidableEq, Repr

namespace Sections

/-- The mark between two sections. -/
def mark : List Char := ['%', '%']

/-- The name before the first colon of the rules. -/
def startSymbol? (rules : List Char) : Except GrammarError String :=
  let trimmed := trim rules
  if trimmed.isEmpty then .error .emptyRules
  else match cutAt [':'] trimmed with
    | none => .error .missingStartRule
    | some (before, _) =>
      let name := trim before
      if isIdentifier name then .ok (String.ofList name) else .error .missingStartRule

/-- Cuts a specification into its sections. -/
def split (spec : List Char) : Except GrammarError Sections :=
  match cutAt mark spec with
  | none => .error (.missingSectionMark .first)
  | some (declarations, rest) =>
    match cutAt mark rest with
    | none => .error (.missingSectionMark .second)
    | some (commented, support) =>
      match stripComments commented with
      | none => .error (.unmatchedComment .rules)
      | some rules =>
        (startSymbol? rules).map fun startSymbol => { declarations, rules, support, startSymbol }

end Sections

end SlrCompiler
