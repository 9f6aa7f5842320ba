/-! # What can be wrong with a specification

    Every refusal of a specification is a `GrammarError`, kept as a cause with its data.
    The wording of each cause stands in one place, `GrammarError.message`.
-/

namespace SlrCompiler

/-- Which of the two `%%` marks is meant. -/
inductive SectionMark where
  | first
  | second
  deriving DecidableEq, Repr

/-- The sections out of which comments are taken. -/
inductive CommentedSection where
  | declarations
  | rules
  deriving DecidableEq, Repr

/-- The parts of a rule that may stand only on its right side. -/
inductive RightPart where
  | literal
  | action
  | prec
  deriving DecidableEq, Repr

/-- What breaks the form of the rules section. -/
inductive RuleFault where
  /-- A colon after the colon of an open rule. -/
  | colonInRight
  /-- A colon with no name before it. -/
  | colonWithoutLeft
  /-- A part of a right side where a left side is due. -/
  | misplaced (part : RightPart)
  | secondAction
  | barWithoutRule
  | semicolonWithoutRule
  | unknownDirective (name : String)
  /-- A second name where the colon is due. -/
  | missingColon (left : String)
  | strayCharacter (c : Char)
  | unterminatedRule
  deriving DecidableEq, Repr

/-- What breaks the form of a semantic action. -/
inductive ActionFault where
  | unterminatedLiteral
  | unterminatedComment
  | unterminatedTag
  | malformedTag
  | indexTooLarge
  | strayTag
  deriving DecidableEq, Repr

/-- A stage that finds the result of an earlier stage incomplete. None of these arises from a
    specification: they need an automaton or a rule list that was edited by hand. -/
inductive InternalFault where
  | lostLeftSide (name : String)
  | missingAugmentingSymbol
  | missingEndMark
  | missingErrorToken
  | missingTransition (state : Nat) (symbol : String)
  | unmatchedItem (item : String)
  deriving DecidableEq, Repr

/-- The causes for which a specification is refused. -/
inductive GrammarError where
  | missingSectionMark (mark : SectionMark)
  | emptyRules
  | missingStartRule
  | unmatchedComment (part : CommentedSection)
  | unmatchedLiteralBlock
  | incompleteUnion
  | malformedUnionMember (line : Nat) (text : String)
  | unknownUnionMember (line : Nat) (member : String)
  | typeWithoutUnion (line : Nat)
  | unmatchedQuote (line : Nat)
  | unmatchedBrace (line : Nat)
  | unexpectedCloseBrace (line : Nat)
  | malformedRule (line : Nat) (fault : RuleFault)
  | malformedPrec (line : Nat) (argument : String)
  | missingPrecArgument (line : Nat)
  | undefinedSymbol (name : String)
  | terminalOnLeft (name : String)
  | placeholderOutOfRange (rule index arity : Nat)
  | malformedAction (rule : Nat) (fault : ActionFault)
  | internal (fault : InternalFault)
  deriving DecidableEq, Repr

/-! ## Wording -/

/-- The word for a section mark in a message. -/
def SectionMark.word : SectionMark → String
  | .first => "first"
  | .second => "second"

/-- The word for a section in a message. -/
def CommentedSection.word : CommentedSection → String
  | .declarations => "declarations"
  | .rules => "rules"

/-- The words for a part of a right side in a message. -/
def RightPart.words : RightPart → String
  | .literal => "quoted literal"
  | .action => "action block"
  | .prec => "%prec"

/-- The message for a fault in the form of the rules. -/
def RuleFault.message : RuleFault → String
  | .colonInRight => "unexpected ':' in right side"
  | .colonWithoutLeft => "':' without a left side"
  | .misplaced part => part.words ++ " in left side"
  | .secondAction => "second action block in one alternative"
  | .barWithoutRule => "'|' without an open rule"
  | .semicolonWithoutRule => "';' without an open rule"
  | .unknownDirective name => "unknown directive '%" ++ name ++ "'"
  | .missingColon left => "expected ':' after '" ++ left ++ "'"
  | .strayCharacter c => "unexpected character '" ++ c.toString ++ "'"
  | .unterminatedRule => "rule not terminated with ';'"

/-- The message for a fault in the form of an action. -/
def ActionFault.message : ActionFault → String
  | .unterminatedLiteral => "unterminated literal"
  | .unterminatedComment => "unterminated comment"
  | .unterminatedTag => "unterminated type tag"
  | .malformedTag => "malformed type tag"
  | .indexTooLarge => "placeholder index too large"
  | .strayTag => "type tag must precede $$ or $n"

/-- The message for an incomplete intermediate result. -/
def InternalFault.message : InternalFault → String
  | .lostLeftSide name => "lost left side '" ++ name ++ "'"
  | .missingAugmentingSymbol => "missing augmenting symbol"
  | .missingEndMark => "missing end marker"
  | .missingErrorToken => "missing error token"
  | .missingTransition state symbol => s!"state {state} has no transition on {symbol}"
  | .unmatchedItem item => "no production matches reducible item " ++ item

/-- A message about a line of the declarations section. -/
def inDeclarations (line : Nat) (message : String) : String :=
  s!"declarations line {line}: " ++ message

/-- A message about a line of the rules section. -/
def inRules (line : Nat) (message : String) : String :=
  s!"rules line {line}: " ++ message

/-- The message that goes with a refusal. -/
def GrammarError.message : GrammarError → String
  | .missingSectionMark mark => "missing " ++ mark.word ++ " '%%' section marker"
  | .emptyRules => "empty rules section"
  | .missingStartRule => "missing start rule in rules section"
  | .unmatchedComment part => "unmatched comment in " ++ part.word ++ " section"
  | .unmatchedLiteralBlock => "unmatched '%\x7b' in declarations section"
  | .incompleteUnion => "incomplete %union in declarations section"
  | .malformedUnionMember line text =>
    inDeclarations line ("malformed union member reference '" ++ text ++ "'")
  | .unknownUnionMember line member =>
    inDeclarations line ("member '" ++ member ++ "' not found in union")
  | .typeWithoutUnion line => inDeclarations line "%type requires a %union declaration"
  | .unmatchedQuote line => inRules line "unmatched quote"
  | .unmatchedBrace line => inRules line "unmatched '\x7b'"
  | .unexpectedCloseBrace line => inRules line "unexpected '\x7d'"
  | .malformedRule line fault => inRules line fault.message
  | .malformedPrec line argument => inRules line ("invalid %prec argument '" ++ argument ++ "'")
  | .missingPrecArgument line => inRules line "missing %prec argument"
  | .undefinedSymbol name =>
    "symbol '" ++ name ++ "' is neither a declared token nor the left side of a rule"
  | .terminalOnLeft name => "token '" ++ name ++ "' cannot appear on the left side of a rule"
  | .placeholderOutOfRange rule index arity =>
    s!"rule {rule}: ${index} is out of range for a rule with {arity} symbols"
  | .malformedAction rule fault =>
    s!"rule {rule}: malformed semantic action (" ++ fault.message ++ ")"
  | .internal fault => "internal error: " ++ fault.message

end SlrCompiler
