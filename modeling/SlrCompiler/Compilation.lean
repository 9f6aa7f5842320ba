import SlrCompiler.Grammar.Resolution
import SlrCompiler.Table.Json

/-! # Compilation

    From the text of a specification to its parse table, and to the table's JSON text.
-/

namespace SlrCompiler

/-- The parse table of a grammar. -/
def Grammar.parseTable (g : Grammar) : Except GrammarError ParseTable :=
  let a := g.automaton
  (g.actionTable g.lookahead a).map (ParseTable.assemble g a)

/-- Compiles a specification. -/
def compile (spec : String) : Except GrammarError ParseTable :=
  match Grammar.parse spec with
  | .error e => .error e
  | .ok g => g.parseTable

/-- The JSON text of a specification's parse table, or of the message that refuses it. -/
def compileToJson (spec : String) : String :=
  match compile spec with
  | .ok t => t.toJson.render
  | .error e => (JsonValue.object [("error", .text e.message)]).render

end SlrCompiler
