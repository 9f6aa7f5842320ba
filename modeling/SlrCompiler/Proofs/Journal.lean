import SlrCompiler.Journal
import SlrCompiler.Proofs.Compilation.Outcome

/-! # What the journal says

    The records are read off the results of the stages, so it has to be shown that
    they say what happened. Two things are asked of a journal.

    A compilation warns of what it passes over and of nothing else
    (`keep_ofCompilation`): each line of the declarations that declares nothing, each
    `%prec` clause whose argument has no precedence, each `%type` name that is no
    nonterminal, and each choice by default, which is each conflict that the table
    records, all of them in the order of the text or of the table. One that is refused
    reports no more than the reading of its text (`ofCompilation_of_error`).

    A run reports its moves until it ends, whatever bound is set to its steps
    (`ofRun_of_le`), and an input is accepted exactly if the journal says so
    (`recognize_eq_accepted_iff_mem`).
-/

namespace SlrCompiler

namespace Journal

/-! ## Section 1: What is kept -/

variable {least : Severity} {g : Grammar}

@[simp] theorem keep_nil : keep least [] = [] := rfl

@[simp] theorem keep_append (records others : List Record) :
    keep least (records ++ others) = keep least records ++ keep least others :=
  List.filter_append records others

theorem keep_eq_self {records : List Record} (h : ∀ r ∈ records, r.severity.rank ≤ least.rank) :
    keep least records = records :=
  List.filter_eq_self.2 fun r hr => decide_eq_true (h r hr)

theorem keep_eq_nil {records : List Record} (h : ∀ r ∈ records, least.rank < r.severity.rank) :
    keep least records = [] :=
  List.filter_eq_nil_iff.2 fun r hr => by simpa using h r hr

/-! ## Section 2: Warnings of the text -/

theorem keep_skipped (directive : Nat × Directive) :
    keep .warn (skipped directive) = skipped directive := by
  refine keep_eq_self fun r hr => ?_
  unfold skipped at hr
  split at hr
  · rw [List.mem_singleton.1 hr]
  · simp at hr

/-- The warnings of directives that are taken up are those of the lines that declare
    nothing. -/
theorem keep_ofDirectives {blocks : Blocks} {d last : Declarations}
    {directives : List (Nat × Directive)}
    (h : Declarations.declareAll blocks d directives = .ok last) :
    keep .warn (ofDirectives blocks d directives) = directives.flatMap skipped := by
  induction directives generalizing d with
  | nil => rfl
  | cons directive rest ih =>
    unfold Declarations.declareAll at h
    split at h
    · simp at h
    rename_i next hnext
    simp only [ofDirectives, hnext, keep_append, keep_skipped, ih h, List.flatMap_cons]

theorem keep_ignoredPrec (precedence : String → Option Precedence) (p : PlacedLexeme) :
    keep .warn (ignoredPrec precedence p) = ignoredPrec precedence p := by
  refine keep_eq_self fun r hr => ?_
  unfold ignoredPrec at hr
  split at hr
  · split at hr
    · simp at hr
    · rw [List.mem_singleton.1 hr]
  · simp at hr

/-- The warnings of lexemes that are taken up are those of the `%prec` clauses without
    a precedence. -/
theorem keep_ofLexemes {precedence : String → Option Precedence} {r last : Rule.Reading}
    {lexemes : List PlacedLexeme} (h : r.feedAll precedence lexemes = .ok last) :
    keep .warn (ofLexemes precedence r lexemes) = lexemes.flatMap (ignoredPrec precedence) := by
  induction lexemes generalizing r with
  | nil => rfl
  | cons p rest ih =>
    unfold Rule.Reading.feedAll at h
    split at h
    · simp at h
    rename_i next hnext
    simp only [ofLexemes, hnext, keep_append, keep_ignoredPrec, ih h, List.flatMap_cons]

theorem keep_ofRules {start : String} {precedence : String → Option Precedence}
    {text : List Char} {rules : List Rule} (h : Rule.parse start precedence text = .ok rules) :
    keep .warn (ofRules start precedence text)
      = (Lexeme.scan 1 text).lexemes.flatMap (ignoredPrec precedence) := by
  have hread := h
  simp only [Rule.parse] at hread
  split at hread
  · simp at hread
  rename_i last hlast
  rw [ofRules, h, keep_append, keep_ofLexemes hlast]
  exact List.append_nil _

theorem keep_ignoredTypes (d : Declarations) (rules : List Rule) :
    keep .warn (ignoredTypes d rules) = ignoredTypes d rules := by
  refine keep_eq_self fun r hr => ?_
  obtain ⟨message, -, rfl⟩ := List.mem_map.1 hr
  exact Nat.le_refl _

theorem keep_ofResolution {s : Sections} {d : Declarations} {rules : List Rule}
    (h : Grammar.resolve s d rules = .ok g) :
    keep .warn (ofResolution s d rules) = ignoredTypes d rules := by
  rw [ofResolution, (Grammar.exists_of_resolve h).1]
  simp only [h, keep_append, keep_ignoredTypes]
  exact List.append_nil _

/-! ## Section 3: Warnings of the table -/

theorem keep_ofAutomaton (a : Automaton) : keep .warn (ofAutomaton g a) = [] := by
  refine keep_eq_nil fun r hr => ?_
  rcases List.mem_append.1 hr with hr | hr
  · obtain ⟨e, -, rfl⟩ := List.mem_map.1 hr
    exact Nat.zero_lt_succ _
  · rw [List.mem_singleton.1 hr]
    exact Nat.zero_lt_succ _

/-- A decision is warned of if it went by default. -/
theorem keep_ofDecision (d : Decision) :
    keep .warn (ofDecision g d) = d.conflict?.toList.map (conflictRecord g) := by
  have hconflict : keep .warn (d.conflict?.toList.map (conflictRecord g))
      = d.conflict?.toList.map (conflictRecord g) := by
    refine keep_eq_self fun r hr => ?_
    obtain ⟨c, -, rfl⟩ := List.mem_map.1 hr
    exact Nat.le_refl _
  rw [ofDecision, keep_append, hconflict]
  split <;> exact List.append_nil _

/-- The warnings of an action table are its conflicts. -/
theorem keep_ofActionTable (t : ActionTable) :
    keep .warn (ofActionTable g t) = t.conflicts.map (conflictRecord g) := by
  have hdecisions : ∀ decisions : List Decision,
      keep .warn (decisions.flatMap (ofDecision g))
        = (decisions.filterMap Decision.conflict?).map (conflictRecord g) := by
    intro decisions
    induction decisions with
    | nil => rfl
    | cons d rest ih =>
      rw [List.flatMap_cons, keep_append, keep_ofDecision, ih, List.filterMap_cons]
      cases d.conflict? <;> rfl
  rw [ofActionTable, keep_append, hdecisions]
  exact List.append_nil _

/-! ## Section 4: Compilation -/

/-- A compilation that is refused reports no more than the reading of its text: the
    table of a grammar is never what it fails on. -/
theorem ofCompilation_of_error {spec : String} {e : GrammarError}
    (h : compile spec = .error e) : ofCompilation spec = ofGrammar spec := by
  rw [ofCompilation, compile_eq_error_iff.1 h]
  exact List.append_nil _

/-- **The warnings of a compilation** that succeeds are those of what its text gives
    up and of the conflicts that its table records. -/
theorem keep_ofCompilation {spec : String} {t : ParseTable} (h : compile spec = .ok t) :
    ∃ g s b d rules, Grammar.parse spec = .ok g ∧ Sections.split spec.toList = .ok s ∧
      Blocks.ofText s.declarations = .ok b ∧ Declarations.parse s.declarations = .ok d ∧
      Rule.parse s.startSymbol d.precedence.lookup s.rules = .ok rules ∧
      keep .warn (ofCompilation spec)
        = (Directive.numbered b.directives).flatMap skipped
          ++ (Lexeme.scan 1 s.rules).lexemes.flatMap (ignoredPrec d.precedence.lookup)
          ++ ignoredTypes d rules ++ t.conflicts.map (conflictRecord g) := by
  cases hparse : Grammar.parse spec with
  | error e => simp [compile_eq_error_iff.2 hparse] at h
  | ok g =>
    obtain ⟨s, d, rules, hs, hd, hrules, hresolve⟩ := Grammar.exists_resolve_of_parse hparse
    obtain ⟨b, hb, hdeclare⟩ := Declarations.exists_ofText_of_parse hd
    obtain ⟨actions, hactions, rfl⟩ :=
      Grammar.exists_assemble (Grammar.parseTable_of_compile h hparse)
    refine ⟨g, s, b, d, rules, rfl, hs, hb, hd, hrules, ?_⟩
    have hdeclarations : keep .warn (ofDeclarations s.declarations)
        = (Directive.numbered b.directives).flatMap skipped := by
      rw [ofDeclarations, hb]
      exact keep_ofDirectives hdeclare
    simp only [ofCompilation, ofGrammar, hs, hd, hrules, hparse, hactions, keep_append,
      hdeclarations, keep_ofRules hrules, keep_ofResolution hresolve, keep_ofAutomaton,
      keep_ofActionTable, ParseTable.assemble, List.append_assoc, List.nil_append]

/-! ## Section 5: Recognition -/

section Runs

variable {t : ParseTable} {input : Array Nat} {c : Configuration}

/-- A run that ends has all its moves reported, whatever bound is set. -/
theorem ofRun_of_le {m n : Nat} (h : m ≤ n) (hend : t.run input m c ≠ .endless) :
    ofRun t input n c = ofRun t input m c := by
  induction m generalizing n c with
  | zero => exact absurd rfl hend
  | succ m ih =>
    obtain ⟨n, rfl⟩ : ∃ k, n = k + 1 := ⟨n - 1, by omega⟩
    simp only [ofRun, ParseTable.run] at hend ⊢
    split
    · rename_i next hnext
      rw [hnext] at hend
      rw [ih (by omega) hend]
    · rfl

theorem reduce_ne_accepted (r : TableRule) : c.reduce t r ≠ .accepted := by
  have hrefuse : ∀ state, Configuration.refuseGoto t state r.left ≠ .accepted := by
    intro state
    unfold Configuration.refuseGoto
    split <;> simp
  unfold Configuration.reduce
  split
  · exact hrefuse c.top
  · split
    · simp
    · exact hrefuse _
    · simp

/-- Only the accepting move is reported as accepting. -/
theorem mem_moveRecord_iff :
    ⟨.trace, "accept"⟩ ∈ moveRecord t input c ↔ c.step t input = .accepted := by
  -- The records of the other moves begin with another letter.
  have hletter : ∀ front ∈ ["shift ", "reduce "], ∀ rest, "accept" ≠ front ++ rest := by
    intro front hfront rest h
    have hhead := congrArg (fun text => text.toList.head?) h
    rcases List.mem_pair.1 hfront with rfl | rfl
    all_goals
      rw [String.toList_append] at hhead
      exact absurd hhead (by simp)
  unfold moveRecord Configuration.step
  cases haction : c.action t input with
  | none => simp
  | some next =>
    obtain ⟨x, action⟩ := next
    cases action with
    | shift target =>
      simp only [List.mem_singleton, Record.mk.injEq, true_and, reduceCtorEq, iff_false,
        String.append_assoc]
      exact hletter "shift " (by simp) _
    | reduce rule =>
      have hmessage := hletter "reduce " (by simp)
      dsimp only
      cases hrule : t.rules[rule]? with
      | none => simp
      | some r => simp [reduce_ne_accepted, hmessage]
    | accept => simp
    | error => simp

/-- The journal of a run says that it accepts exactly if it does. -/
theorem mem_ofRun_iff {n : Nat} :
    ⟨.trace, "accept"⟩ ∈ ofRun t input n c ↔ t.run input n c = .accepted := by
  induction n generalizing c with
  | zero => simp [ofRun, ParseTable.run]
  | succ n ih =>
    rw [ofRun, List.mem_append, mem_moveRecord_iff, ParseTable.run]
    cases hstep : c.step t input with
    | next next => simp [ih]
    | accepted => simp
    | rejected e => simp
    | broken b => simp

end Runs

/-- **Acceptance** is what the journal of a recognition says. -/
theorem recognize_eq_accepted_iff_mem (t : ParseTable) (names : List String) :
    t.recognize names = .accepted ↔ ⟨.trace, "accept"⟩ ∈ ofRecognition t names := by
  unfold ParseTable.recognize ofRecognition
  cases t.terminalIndices names with
  | error e => simp
  | ok terminals => exact mem_ofRun_iff.symm

end Journal

end SlrCompiler
