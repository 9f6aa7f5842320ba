import SlrCompiler.JsonValue
import SlrCompiler.Table.ParseTable

/-! # Parse tables as JSON

    The JSON value of a parse table. Absent values are `null`. A value of several kinds
    is an object that names its kind, with its data beside it.
-/

namespace SlrCompiler

open JsonValue (ofOption ofList ofArray)

/-! ## Parts -/

/-- The word for an associativity. -/
def Associativity.word : Associativity → String
  | .left => "left"
  | .right => "right"
  | .nonassoc => "nonassoc"

/-- A precedence names its associativity and its level. -/
def Precedence.toJson (p : Precedence) : JsonValue :=
  .object [("associativity", .text p.associativity.word), ("level", .number p.level)]

/-- A terminal as a parser needs it. -/
def Terminal.toJson (t : Terminal) : JsonValue :=
  .object [
    ("name", .text t.name), ("precedence", ofOption Precedence.toJson t.precedence),
    ("union_member", ofOption .text t.unionMember)]

/-- A nonterminal as a parser needs it. -/
def Nonterminal.toJson (n : Nonterminal) : JsonValue :=
  .object [("name", .text n.name), ("union_member", ofOption .text n.unionMember)]

/-- A value that consists of its kind alone. -/
def JsonValue.ofKind (kind : String) : JsonValue := .object [("kind", .text kind)]

/-- A segment names its kind; what it holds is its value. -/
def Segment.toJson : Segment → JsonValue
  | .text value => .object [("kind", .text "text"), ("value", .text value)]
  | .result => .ofKind "result"
  | .argument index => .object [("kind", .text "arg"), ("value", .number index)]
  | .typedResult member =>
    .object [("kind", .text "typed_result"), ("value", .object [("member", .text member)])]
  | .typedArgument member index =>
    .object [
      ("kind", .text "typed_arg"),
      ("value", .object [("member", .text member), ("index", .number index)])]

/-- An action is given by its text and by its segments. -/
def SemanticAction.toJson (a : SemanticAction) : JsonValue :=
  .object [("text", .text a.text), ("segments", ofList Segment.toJson a.segments)]

/-- A rule with its goto column and its length. -/
def TableRule.toJson (r : TableRule) : JsonValue :=
  .object [
    ("left", .number r.left), ("arity", .number r.arity), ("text", .text r.text),
    ("precedence", ofOption Precedence.toJson r.precedence),
    ("action", ofOption SemanticAction.toJson r.action)]

/-- An action names its kind; a shift or a reduction has a target. -/
def Action.toJson : Action → JsonValue
  | .shift target => .object [("kind", .text "shift"), ("target", .number target)]
  | .reduce rule => .object [("kind", .text "reduce"), ("target", .number rule)]
  | .accept => .ofKind "accept"
  | .error => .ofKind "error"

/-- The word for a kind of conflict. -/
def ConflictKind.word : ConflictKind → String
  | .shiftReduce => "shift_reduce"
  | .reduceReduce => "reduce_reduce"

/-- A conflict with its place and the three actions involved. -/
def Conflict.toJson (c : Conflict) : JsonValue :=
  .object [
    ("state", .number c.state), ("terminal", .number c.terminal), ("kind", .text c.kind.word),
    ("existing", c.existing.toJson), ("proposed", c.proposed.toJson),
    ("chosen", c.chosen.toJson)]

/-! ## The table -/

namespace ParseTable

/-- The whole table; its fields stand in a fixed order. -/
def toJson (t : ParseTable) : JsonValue :=
  .object [
    ("start_symbol", .text t.startSymbol), ("start_state", .number t.startState),
    ("end_mark", .number t.endMark), ("terminals", ofArray Terminal.toJson t.terminals),
    ("non_terminals", ofArray Nonterminal.toJson t.nonterminals),
    ("rules", ofArray TableRule.toJson t.rules),
    ("actions", ofArray (ofArray Action.toJson) t.actions),
    ("gotos", ofArray (ofArray (ofOption .number)) t.gotos),
    ("conflicts", ofList Conflict.toJson t.conflicts),
    ("literal_block", .text t.literalBlock), ("union", ofOption .text t.union),
    ("support", .text t.support)]

end ParseTable

end SlrCompiler
