import SlrCompiler.Table.ParseTable

/-! # Recognition

    A parse table runs over a list of terminals, followed by the end mark, with a stack
    of states. In every step the action of the top state at the next terminal is carried
    out: a shift stacks a state and reads the terminal, a reduction takes as many states
    off as its rule has symbols and stacks the goto of the state that is uncovered.

    `Configuration.step` is one step and `ParseTable.run` iterates it. A table that was
    edited by hand can send a run out of its bounds, which is told apart from a refusal
    of the input. It can also reduce forever; the number of steps is therefore bounded,
    by more than any run takes that ends.
-/

namespace SlrCompiler

/-- Why an input is refused. -/
inductive RecognizeError where
  | unknownTerminal (name : String)
  | noAction (state position : Nat) (token : String)
  | missingGoto (state : Nat) (nonterminal : String)
  deriving DecidableEq, Repr

/-- The message that goes with a refusal. -/
def RecognizeError.message : RecognizeError → String
  | .unknownTerminal name => "unknown terminal '" ++ name ++ "'"
  | .noAction state position token =>
    s!"no action in state {state} for token {position} ('" ++ token ++ "')"
  | .missingGoto state nonterminal => s!"missing goto from state {state} on {nonterminal}"

/-- How a run leaves the bounds of its table. -/
inductive Breakdown where
  /-- The end mark was read like any other terminal. -/
  | pastEnd
  | noRule (rule : Nat)
  /-- No cell for the goto of a state on a nonterminal. -/
  | noGotoCell (state column : Nat)
  | noNonterminal (column : Nat)
  deriving DecidableEq, Repr

/-- The stack of states, never empty, and the number of terminals read. -/
structure Configuration where
  top : Nat
  below : List Nat
  position : Nat
  deriving DecidableEq, Repr

/-- What comes of a step. -/
inductive Outcome where
  | next (c : Configuration)
  | accepted
  | rejected (e : RecognizeError)
  | broken (b : Breakdown)
  deriving DecidableEq, Repr

/-- What comes of a run. -/
inductive Verdict where
  | accepted
  | rejected (e : RecognizeError)
  | broken (b : Breakdown)
  /-- The steps are used up. -/
  | endless
  deriving DecidableEq, Repr

namespace Configuration

/-- The refusal of a reduction for which no goto exists. -/
def refuseGoto (t : ParseTable) (state column : Nat) : Outcome :=
  match t.nonterminals[column]? with
  | none => .broken (.noNonterminal column)
  | some n => .rejected (.missingGoto state n.name)

/-- Carries out a reduction by a rule. -/
def reduce (t : ParseTable) (c : Configuration) (rule : TableRule) : Outcome :=
  match (c.top :: c.below).drop rule.arity with
  | [] => refuseGoto t c.top rule.left
  | uncovered :: below =>
    match t.gotoCell? uncovered rule.left with
    | none => .broken (.noGotoCell uncovered rule.left)
    | some none => refuseGoto t uncovered rule.left
    | some (some target) => .next ⟨target, uncovered :: below, c.position⟩

/-- The action of the top state at the next terminal of the input. -/
def action (t : ParseTable) (input : Array Nat) (c : Configuration) : Option (Nat × Action) :=
  input[c.position]?.map fun terminal => (terminal, t.actionAt c.top terminal)

/-- Carries out one action. -/
def step (t : ParseTable) (input : Array Nat) (c : Configuration) : Outcome :=
  match c.action t input with
  | none => .broken .pastEnd
  | some (_, .shift target) => .next ⟨target, c.top :: c.below, c.position + 1⟩
  | some (_, .reduce rule) =>
    match t.rules[rule]? with
    | none => .broken (.noRule rule)
    | some r => c.reduce t r
  | some (_, .accept) => .accepted
  | some (terminal, .error) =>
    .rejected (.noAction c.top c.position (t.terminalName terminal))

end Configuration

namespace ParseTable

variable (t : ParseTable)

/-- The configuration before the first step. -/
def begin : Configuration := ⟨t.startState, [], 0⟩

/-- The numbers of the terminals with the given names, or else the first name that is unknown. -/
def terminalIndices : List String → Except RecognizeError (List Nat)
  | [] => .ok []
  | name :: rest =>
    match t.terminalIndex? name with
    | none => .error (.unknownTerminal name)
    | some i => (terminalIndices rest).map (i :: ·)

/-- The terminals of an input, the end mark after them. -/
def input (terminals : List Nat) : Array Nat := (terminals ++ [t.endMark]).toArray

/-- Iterates steps, up to the given number. -/
def run (input : Array Nat) : Nat → Configuration → Verdict
  | 0, _ => .endless
  | steps + 1, c =>
    match c.step t input with
    | .next c => run input steps c
    | .accepted => .accepted
    | .rejected e => .rejected e
    | .broken b => .broken b

/-- More steps than any run takes that ends, given the size of its input. Between two shifts the
    states that were stacked since the first of them are all different, or the run would repeat
    itself forever. So there are fewer than `(n + 2) ^ (n + 2)` ways to stack them on what is left
    of the old stack, if `n` is the number of states; and the old stack, which can be left at any
    height, is no higher than the states that were stacked between all earlier shifts. -/
def stepBound (inputSize : Nat) : Nat :=
  (inputSize + 1) * (inputSize + 1) * Nat.pow (t.stateCount + 2) (t.stateCount + 4)

/-- A run that ends is not changed by a higher number of steps. -/
theorem run_of_le {input : Array Nat} {m n : Nat} {c : Configuration} (h : m ≤ n)
    (hend : t.run input m c ≠ .endless) : t.run input n c = t.run input m c := by
  induction m generalizing n c with
  | zero => exact absurd rfl hend
  | succ m ih =>
    obtain ⟨n, rfl⟩ : ∃ k, n = k + 1 := ⟨n - 1, by omega⟩
    simp only [run] at hend ⊢
    split <;> simp_all

/-- Runs the table over the terminals with the given names. -/
def recognize (tokens : List String) : Verdict :=
  match t.terminalIndices tokens with
  | .error e => .rejected e
  | .ok terminals =>
    let input := t.input terminals
    t.run input (t.stepBound input.size) t.begin

end ParseTable

end SlrCompiler
