import SlrCompiler.Compilation
import SlrCompiler.Proofs.Json.Reading
import SlrCompiler.Proofs.Success

/-! # Parse tables from their JSON texts

    The JSON text of a parse table loses nothing. The proof is a decoder with
    one function for each type of the table, each of them a left inverse of the
    type's encoder (`ofJson?_toJson`); together with the reader for JSON texts
    they take the text of a table back to the table.

    Three things could clash, and each has its place below. Something absent is
    written `null`, so no present value may be written so (`optional?_ofOption`
    asks for that). Values of several kinds carry the kind's name, so the names
    of the kinds have to differ (`Segment`, `Action`). The text of a refusal is
    an object as well, but it has none of the fields of a table
    (`ofJson?_refusal`).
-/

namespace SlrCompiler

/-! ## Section 1: Taking values apart -/

namespace JsonValue

variable {α : Type} {encode : α → JsonValue} {decode : JsonValue → Option α}

/-- The content of a text. -/
def text? : JsonValue → Option String
  | .text word => some word
  | _ => none

/-- The value of a number. -/
def number? : JsonValue → Option Nat
  | .number n => some n
  | _ => none

/-- Something that is absent if its value is null. -/
def optional? (decode : JsonValue → Option α) : JsonValue → Option (Option α)
  | .null => some none
  | v => (decode v).map some

/-- The items of an array. -/
def items? (decode : JsonValue → Option α) : JsonValue → Option (List α)
  | .array items => items.mapM decode
  | _ => none

/-- The items of an array, as an array. -/
def itemArray? (decode : JsonValue → Option α) (v : JsonValue) : Option (Array α) :=
  (v.items? decode).map List.toArray

/-- What an object holds under a name. -/
def field? (name : String) (decode : JsonValue → Option α) : JsonValue → Option α
  | .object fields => (fields.lookup name).bind decode
  | _ => none

@[simp] theorem text?_text (word : String) : text? (.text word) = some word := rfl

@[simp] theorem number?_number (n : Nat) : number? (.number n) = some n := rfl

/-- Absent and present values are told apart if nothing present is written as null. -/
theorem optional?_ofOption (hnull : decode .null = none) (h : ∀ a, decode (encode a) = some a)
    (o : Option α) : optional? decode (ofOption encode o) = some o := by
  cases o with
  | none => rfl
  | some a =>
    show optional? decode (encode a) = some (some a)
    have ha := h a
    cases hvalue : encode a with
    | null =>
      rw [hvalue, hnull] at ha
      contradiction
    | _ => simp [optional?, ← hvalue, ha]

theorem items?_ofList (h : ∀ a, decode (encode a) = some a) (items : List α) :
    items? decode (ofList encode items) = some items := by
  show (items.map encode).mapM decode = some items
  induction items with
  | nil => rfl
  | cons a items ih => simp [h a, ih]

theorem itemArray?_ofArray (h : ∀ a, decode (encode a) = some a) (items : Array α) :
    itemArray? decode (ofArray encode items) = some items := by
  simp [itemArray?, ofArray, items?_ofList h]

end JsonValue

open JsonValue

/-! ## Section 2: The parts of a table -/

/-- The associativity that a word names. -/
def Associativity.ofWord? (word : String) : Option Associativity :=
  if word = "left" then some .left
  else if word = "right" then some .right
  else if word = "nonassoc" then some .nonassoc
  else none

@[simp] theorem Associativity.ofWord?_word (a : Associativity) : ofWord? a.word = some a := by
  cases a <;> decide

def Precedence.ofJson? (v : JsonValue) : Option Precedence := do
  let associativity ← v.field? "associativity" fun w => w.text?.bind Associativity.ofWord?
  let level ← v.field? "level" number?
  return ⟨associativity, level⟩

@[simp] theorem Precedence.ofJson?_toJson (p : Precedence) : ofJson? p.toJson = some p := by
  simp [ofJson?, toJson, field?, List.lookup_cons]

def Terminal.ofJson? (v : JsonValue) : Option Terminal := do
  let name ← v.field? "name" text?
  let precedence ← v.field? "precedence" (optional? Precedence.ofJson?)
  let unionMember ← v.field? "union_member" (optional? text?)
  return ⟨name, precedence, unionMember⟩

@[simp] theorem Terminal.ofJson?_toJson (t : Terminal) : ofJson? t.toJson = some t := by
  simp [ofJson?, toJson, field?, List.lookup_cons,
    optional?_ofOption rfl Precedence.ofJson?_toJson, optional?_ofOption rfl text?_text]

def Nonterminal.ofJson? (v : JsonValue) : Option Nonterminal := do
  let name ← v.field? "name" text?
  let unionMember ← v.field? "union_member" (optional? text?)
  return ⟨name, unionMember⟩

@[simp] theorem Nonterminal.ofJson?_toJson (n : Nonterminal) : ofJson? n.toJson = some n := by
  simp [ofJson?, toJson, field?, List.lookup_cons, optional?_ofOption rfl text?_text]

/-- The kind of a segment says which value to expect beside it. -/
def Segment.ofJson? (v : JsonValue) : Option Segment := do
  let kind ← v.field? "kind" text?
  if kind = "text" then
    return .text (← v.field? "value" text?)
  else if kind = "result" then
    return .result
  else if kind = "arg" then
    return .argument (← v.field? "value" number?)
  else if kind = "typed_result" then
    return .typedResult (← v.field? "value" (field? "member" text?))
  else if kind = "typed_arg" then
    let member ← v.field? "value" (field? "member" text?)
    let index ← v.field? "value" (field? "index" number?)
    return .typedArgument member index
  else none

@[simp] theorem Segment.ofJson?_toJson (s : Segment) : ofJson? s.toJson = some s := by
  cases s <;> simp [ofJson?, toJson, ofKind, field?, List.lookup_cons]

def SemanticAction.ofJson? (v : JsonValue) : Option SemanticAction := do
  let code ← v.field? "text" text?
  let segments ← v.field? "segments" (items? Segment.ofJson?)
  return ⟨code, segments⟩

@[simp] theorem SemanticAction.ofJson?_toJson (a : SemanticAction) :
    ofJson? a.toJson = some a := by
  simp [ofJson?, toJson, field?, List.lookup_cons, items?_ofList]

def TableRule.ofJson? (v : JsonValue) : Option TableRule := do
  let left ← v.field? "left" number?
  let arity ← v.field? "arity" number?
  let display ← v.field? "text" text?
  let precedence ← v.field? "precedence" (optional? Precedence.ofJson?)
  let action ← v.field? "action" (optional? SemanticAction.ofJson?)
  return ⟨left, arity, display, precedence, action⟩

@[simp] theorem TableRule.ofJson?_toJson (r : TableRule) : ofJson? r.toJson = some r := by
  simp [ofJson?, toJson, field?, List.lookup_cons,
    optional?_ofOption rfl Precedence.ofJson?_toJson,
    optional?_ofOption rfl SemanticAction.ofJson?_toJson]

/-- The kind of an action says whether a target stands beside it. -/
def Action.ofJson? (v : JsonValue) : Option Action := do
  let kind ← v.field? "kind" text?
  if kind = "shift" then
    return .shift (← v.field? "target" number?)
  else if kind = "reduce" then
    return .reduce (← v.field? "target" number?)
  else if kind = "accept" then
    return .accept
  else if kind = "error" then
    return .error
  else none

@[simp] theorem Action.ofJson?_toJson (a : Action) : ofJson? a.toJson = some a := by
  cases a <;> simp [ofJson?, toJson, ofKind, field?, List.lookup_cons]

/-- The kind of conflict that a word names. -/
def ConflictKind.ofWord? (word : String) : Option ConflictKind :=
  if word = "shift_reduce" then some .shiftReduce
  else if word = "reduce_reduce" then some .reduceReduce
  else none

@[simp] theorem ConflictKind.ofWord?_word (k : ConflictKind) : ofWord? k.word = some k := by
  cases k <;> decide

def Conflict.ofJson? (v : JsonValue) : Option Conflict := do
  let state ← v.field? "state" number?
  let terminal ← v.field? "terminal" number?
  let kind ← v.field? "kind" fun w => w.text?.bind ConflictKind.ofWord?
  let existing ← v.field? "existing" Action.ofJson?
  let proposed ← v.field? "proposed" Action.ofJson?
  let chosen ← v.field? "chosen" Action.ofJson?
  return ⟨state, terminal, kind, existing, proposed, chosen⟩

@[simp] theorem Conflict.ofJson?_toJson (c : Conflict) : ofJson? c.toJson = some c := by
  simp [ofJson?, toJson, field?, List.lookup_cons]

/-! ## Section 3: The table -/

namespace ParseTable

/-- The table that a value spells. -/
def ofJson? (v : JsonValue) : Option ParseTable := do
  let startSymbol ← v.field? "start_symbol" text?
  let startState ← v.field? "start_state" number?
  let endMark ← v.field? "end_mark" number?
  let terminals ← v.field? "terminals" (itemArray? Terminal.ofJson?)
  let nonterminals ← v.field? "non_terminals" (itemArray? Nonterminal.ofJson?)
  let rules ← v.field? "rules" (itemArray? TableRule.ofJson?)
  let actions ← v.field? "actions" (itemArray? (itemArray? Action.ofJson?))
  let gotos ← v.field? "gotos" (itemArray? (itemArray? (optional? number?)))
  let conflicts ← v.field? "conflicts" (items? Conflict.ofJson?)
  let literalBlock ← v.field? "literal_block" text?
  let union ← v.field? "union" (optional? text?)
  let support ← v.field? "support" text?
  return ⟨startSymbol, startState, endMark, terminals, nonterminals, rules, actions, gotos,
    conflicts, literalBlock, union, support⟩

@[simp] theorem ofJson?_toJson (t : ParseTable) : ofJson? t.toJson = some t := by
  simp [ofJson?, toJson, field?, List.lookup_cons, items?_ofList, itemArray?_ofArray,
    optional?_ofOption rfl text?_text, optional?_ofOption rfl number?_number]

/-- The table that a whole text spells. -/
def ofText? (input : String) : Option ParseTable := (JsonValue.ofText? input).bind ofJson?

/-- The text of a table spells that table. -/
theorem ofText?_render_toJson (t : ParseTable) : ofText? t.toJson.render = some t := by
  simp [ofText?, JsonValue.ofText?_render]

/-- A refusal spells no table: it lacks the fields of one. -/
theorem ofText?_render_refusal (message : String) :
    ofText? (JsonValue.object [("error", .text message)]).render = none := by
  simp [ofText?, JsonValue.ofText?_render, ofJson?, field?, List.lookup_cons]

end ParseTable

/-- What a specification compiles to is known from the text. -/
theorem ofText?_compileToJson (spec : String) :
    ParseTable.ofText? (compileToJson spec) = (compile spec).toOption := by
  unfold compileToJson
  cases compile spec with
  | ok t => exact ParseTable.ofText?_render_toJson t
  | error e => exact ParseTable.ofText?_render_refusal e.message

/-- **The JSON text of a table loses nothing**: the decoder takes the text of every table
    back to that table, and the text for a specification to whatever it compiles to. So
    specifications with equal texts that compile have equal tables, and no text is both a
    refusal's and a table's. -/
theorem json_text_determines_table :
    (∀ t : ParseTable, ParseTable.ofText? t.toJson.render = some t) ∧
    (∀ spec, ParseTable.ofText? (compileToJson spec) = (compile spec).toOption) ∧
    (∀ spec other t u, compile spec = .ok t → compile other = .ok u →
      compileToJson spec = compileToJson other → t = u) ∧
    (∀ spec other t e, compile spec = .ok t → compile other = .error e →
      compileToJson spec ≠ compileToJson other) := by
  refine ⟨ParseTable.ofText?_render_toJson, ofText?_compileToJson, ?_, ?_⟩
  · intro spec other t u ht hu htext
    have hdecoded := congrArg ParseTable.ofText? htext
    simpa [ofText?_compileToJson, ht, hu, Except.toOption] using hdecoded
  · intro spec other t e ht he htext
    have hdecoded := congrArg ParseTable.ofText? htext
    simp [ofText?_compileToJson, ht, he, Except.toOption] at hdecoded

/-- At two spellings of one grammar, whose action holds a quote, a backslash and a control
    character, and at a text without rules. -/
theorem json_text_determines_table_quoted :
    ∃ t u e,
      compile "%% s : 'a' \x7b \"\\\x01\" $1 \x7d ; %%" = .ok t ∧
      compile "%% s : /* one */ 'a' \x7b \"\\\x01\" $1 \x7d ; %%" = .ok u ∧
      compile "%%" = .error e ∧ t = u ∧
      compileToJson "%% s : 'a' \x7b \"\\\x01\" $1 \x7d ; %%" ≠ compileToJson "%%" := by
  have hrun : (compile "%% s : 'a' \x7b \"\\\x01\" $1 \x7d ; %%").map (fun t => decide
      (compile "%% s : /* one */ 'a' \x7b \"\\\x01\" $1 \x7d ; %%" = .ok t)) = .ok true := by
    decide +kernel
  have hrefused : compile "%%" = .error (.missingSectionMark .second) := by decide +kernel
  obtain ⟨t, ht, hu⟩ := exists_of_map_decide hrun
  have htext : compileToJson "%% s : 'a' \x7b \"\\\x01\" $1 \x7d ; %%" =
      compileToJson "%% s : /* one */ 'a' \x7b \"\\\x01\" $1 \x7d ; %%" := by
    simp only [compileToJson, ht, hu]
  exact ⟨t, t, _, ht, hu, hrefused,
    json_text_determines_table.2.2.1 _ _ t t ht hu htext,
    json_text_determines_table.2.2.2 _ _ t _ ht hrefused⟩

end SlrCompiler
