import SlrCompiler.Proofs.Grammar.Symbols

/-! # Which specifications resolve

    A specification whose parts can be read may still be refused when its names are
    resolved. That has three causes: a token or `error` is a left side, a right side
    has a name that nothing introduces, or an action cannot be read. `Resolvable` says
    that none of them is there, and then there is a grammar
    (`exists_parse_iff_resolvable`).

    Resolution goes through the rules in order and stops at the first fault, so it
    succeeds exactly if it succeeds for every rule at its place
    (`exists_resolveRules_iff`). A rule in turn resolves exactly if its names are known
    and its action can be read (`resolveRule_eq_ok_iff`). The names that are known are
    those of the terminals and the left sides (`exists_symbolIndex?_withSymbols_iff`);
    of these `$end` alone is none that a rule can write.

    What comes out is what went in: the production at a place says by name what the
    rule at that place says (`Represents`), and no two symbols share a name.

    Nothing else is refused. Left sides and special symbols are always found, so what
    is refused is a token on the left, or a rule for a name or for its action
    (`terminalOnLeft_or_refuses_of_parse`).
-/

namespace SlrCompiler

namespace Grammar

/-! ## Section 1: What is to be shown -/

/-- Nothing in the rules keeps them from being resolved. -/
structure Resolvable (d : Declarations) (rules : List Rule) : Prop where
  /-- No declared token is a left side. -/
  token_notMem : ∀ name ∈ d.tokens, name ∉ Rule.leftSides rules
  /-- Neither is `error`. -/
  error_notMem : errorName ∉ Rule.leftSides rules
  /-- A name in a right side is a token, `error`, a quoted literal or a left side. -/
  right : ∀ r ∈ rules, ∀ x ∈ r.right, x.text ∈ d.tokens ∨ x.text = errorName ∨
    x.text ∈ Rule.literals rules ∨ x.text ∈ Rule.leftSides rules
  /-- An action can be read, given the place of its rule and the length of the right side. -/
  action : ∀ (i : Nat) (r : Rule) (text : String), rules[i]? = some r → r.action = some text →
    ∃ a, SemanticAction.parse text.toList i r.right.length = .ok a

/-- The production says by name what the rule at the place says. -/
structure Represents (g : Grammar) (i : Nat) (r : Rule) (p : Production) : Prop where
  left : g.symbolName p.left = r.left
  right : p.right.map g.symbolName = r.right.map RuleSymbol.text
  precedence : p.precedence = r.precedence
  action_none : r.action = none → p.action = none
  /-- The action is what the text of the rule's action is read to. -/
  action_some : ∀ text, r.action = some text →
    ∃ a, SemanticAction.parse text.toList i r.right.length = .ok a ∧ a.text = text ∧
      p.action = some a

variable {g : Grammar}

/-! ## Section 2: Known names -/

/-- A name is found exactly if some symbol has it. -/
theorem exists_symbolIndex?_iff {name : String} : (∃ i, g.symbolIndex? name = some i) ↔
    name ∈ g.terminals.toList.map Terminal.name ∨
      name ∈ g.nonterminals.toList.map Nonterminal.name := by
  refine ⟨?_, exists_symbolIndex?_of_mem⟩
  intro h
  obtain ⟨i, hi⟩ := h
  obtain ⟨hlt, rfl⟩ := symbolName_of_symbolIndex? hi
  rw [← List.mem_append, ← map_symbolName_symbols]
  exact List.mem_map_of_mem (List.mem_range.2 hlt)

section Names

variable {s : Sections} {d : Declarations} {rules : List Rule}

/-- The known names are those of the terminals and the left sides. -/
theorem exists_symbolIndex?_withSymbols_iff {name : String} :
    (∃ i, (withSymbols s d rules).symbolIndex? name = some i) ↔
      name ∈ terminalNames d rules ∨ name ∈ Rule.leftSides rules := by
  rw [exists_symbolIndex?_iff]
  simp [withSymbols, declaredTerminal, declaredNonterminal, Function.comp_def]

/-- Of the known names `$end` alone is not written in a right side. -/
theorem exists_symbolIndex?_text_iff {x : RuleSymbol} (hx : x.Proper) :
    (∃ i, (withSymbols s d rules).symbolIndex? x.text = some i) ↔
      x.text ∈ d.tokens ∨ x.text = errorName ∨ x.text ∈ Rule.literals rules ∨
        x.text ∈ Rule.leftSides rules := by
  have hend : x.text ≠ endName := hx.text_ne.2
  rw [exists_symbolIndex?_withSymbols_iff, mem_terminalNames]
  simp only [hend, false_or, or_assoc]

end Names

/-! ## Section 3: Rules -/

/-- A right side resolves exactly if its names are known. -/
theorem exists_resolveRight_iff {right : List RuleSymbol} :
    (∃ indices, g.resolveRight right = .ok indices) ↔
      ∀ x ∈ right, ∃ i, g.symbolIndex? x.text = some i := by
  simp only [resolveRight_eq_ok_iff]
  induction right with
  | nil => simp
  | cons x rest ih =>
    rw [List.forall_mem_cons, ← ih]
    constructor
    · intro h
      obtain ⟨indices, h⟩ := h
      obtain ⟨i, others, hi, hothers, -⟩ := List.forall₂_cons_left_iff.1 h
      exact ⟨⟨i, hi⟩, others, hothers⟩
    · intro h
      obtain ⟨⟨i, hi⟩, others, hothers⟩ := h
      exact ⟨i :: others, .cons hi hothers⟩

/-- Rules are resolved in order, each by its number. -/
theorem getElem?_resolveRules {first : Nat} {rules : List Rule} {productions : List Production}
    (h : g.resolveRules first rules = .ok productions) :
    productions.length = rules.length ∧ ∀ (n : Nat) (r : Rule), rules[n]? = some r →
      ∃ p, productions[n]? = some p ∧ g.resolveRule (first + n) r = .ok p := by
  induction rules generalizing first productions with
  | nil =>
    obtain rfl := Except.ok.inj h
    simp
  | cons r rest ih =>
    unfold resolveRules at h
    split at h
    · simp at h
    rename_i p hp
    obtain ⟨others, hothers, rfl⟩ := map_eq_ok_iff.1 h
    obtain ⟨hlength, hrest⟩ := ih hothers
    refine ⟨by simp [hlength], ?_⟩
    intro n q hq
    cases n with
    | zero =>
      obtain rfl := Option.some.inj hq
      exact ⟨p, rfl, hp⟩
    | succ n =>
      obtain ⟨p', hp', hresolved⟩ := hrest n q hq
      exact ⟨p', hp', by rwa [Nat.add_right_comm] at hresolved⟩

/-- Rules resolve exactly if every one of them does at its place. -/
theorem exists_resolveRules_iff {first : Nat} {rules : List Rule} :
    (∃ productions, g.resolveRules first rules = .ok productions) ↔
      ∀ (n : Nat) (r : Rule), rules[n]? = some r → ∃ p, g.resolveRule (first + n) r = .ok p := by
  constructor
  · intro h n r hr
    obtain ⟨productions, hproductions⟩ := h
    obtain ⟨p, -, hp⟩ := (getElem?_resolveRules hproductions).2 n r hr
    exact ⟨p, hp⟩
  · intro hall
    induction rules generalizing first with
    | nil => exact ⟨[], rfl⟩
    | cons r rest ih =>
      obtain ⟨p, hp⟩ := hall 0 r rfl
      have hrest : ∀ (n : Nat) (q : Rule), rest[n]? = some q →
          ∃ p, g.resolveRule (first + 1 + n) q = .ok p := by
        intro n q hq
        rw [Nat.add_right_comm]
        exact hall (n + 1) q hq
      obtain ⟨productions, hproductions⟩ := ih hrest
      rw [Nat.add_zero] at hp
      exact ⟨p :: productions, by rw [resolveRules, hp, hproductions]; rfl⟩

theorem exists_resolveAction_iff {i arity : Nat} {action : Option String} :
    (∃ a, resolveAction i arity action = .ok a) ↔
      ∀ text, action = some text → ∃ a, SemanticAction.parse text.toList i arity = .ok a := by
  cases action with
  | none => simp [resolveAction]
  | some text =>
    constructor
    · intro h text' htext
      obtain rfl := Option.some.inj htext
      obtain ⟨a, ha⟩ := h
      obtain ⟨b, hb, -⟩ := map_eq_ok_iff.1 ha
      exact ⟨b, hb⟩
    · intro h
      obtain ⟨a, ha⟩ := h text rfl
      exact ⟨some a, by rw [resolveAction, ha]; rfl⟩

/-- A rule resolves exactly if its names are known and its action can be read. -/
theorem exists_resolveRule_iff {i : Nat} {r : Rule} : (∃ p, g.resolveRule i r = .ok p) ↔
    (∃ left, g.symbolIndex? r.left = some left) ∧
      (∀ x ∈ r.right, ∃ index, g.symbolIndex? x.text = some index) ∧
      ∀ text, r.action = some text →
        ∃ a, SemanticAction.parse text.toList i r.right.length = .ok a := by
  rw [← exists_resolveAction_iff, ← exists_resolveRight_iff]
  constructor
  · intro h
    obtain ⟨p, hp⟩ := h
    obtain ⟨hresolves, haction⟩ := resolveRule_eq_ok_iff.1 hp
    exact ⟨⟨_, hresolves.left⟩, ⟨_, resolveRight_eq_ok_iff.2 hresolves.right⟩, _, haction⟩
  · intro h
    obtain ⟨⟨left, hleft⟩, ⟨right, hright⟩, action, haction⟩ := h
    exact ⟨⟨left, right, r.precedence, action⟩,
      resolveRule_eq_ok_iff.2 ⟨⟨hleft, resolveRight_eq_ok_iff.1 hright, rfl⟩, haction⟩⟩

/-! ## Section 4: Specifications -/

theorem exists_require_iff {name : String} {e : GrammarError} :
    (∃ i, g.require name e = .ok i) ↔ ∃ i, g.symbolIndex? name = some i := by
  rw [require]
  cases g.symbolIndex? name <;> simp

section Specification

variable {s : Sections} {d : Declarations} {rules : List Rule}

/-- The names of the symbols are there before the productions are. -/
theorem exists_productions_of_resolve (h : resolve s d rules = .ok g) :
    tokenOnLeft d rules = none ∧ ∃ productions,
      (withSymbols s d rules).resolveRules 0 rules = .ok productions ∧
      g.productions = productions.toArray ∧
      g.symbolName = (withSymbols s d rules).symbolName := by
  obtain ⟨htoken, productions, startSymbol, acceptSymbol, endMark, errorSymbol, hproductions, -, -,
    -, rfl⟩ := exists_of_resolve h
  exact ⟨htoken, productions, hproductions, rfl, rfl⟩

/-- Once its rules resolve, a specification does: the start symbol and `$accept` are left sides,
    and the other special symbols are terminals. -/
theorem exists_resolve_iff (hstart : s.startSymbol ∈ Rule.leftSides rules)
    (haccept : acceptName ∈ Rule.leftSides rules) :
    (∃ g, resolve s d rules = .ok g) ↔ tokenOnLeft d rules = none ∧
      ∃ productions, (withSymbols s d rules).resolveRules 0 rules = .ok productions := by
  constructor
  · intro h
    obtain ⟨g, h⟩ := h
    obtain ⟨htoken, productions, hproductions, -⟩ := exists_productions_of_resolve h
    exact ⟨htoken, productions, hproductions⟩
  · intro h
    obtain ⟨htoken, productions, hproductions⟩ := h
    have hknown : ∀ name (e : GrammarError),
        name ∈ terminalNames d rules ∨ name ∈ Rule.leftSides rules →
        ∃ i, (withSymbols s d rules).require name e = .ok i :=
      fun name e hname => exists_require_iff.2 (exists_symbolIndex?_withSymbols_iff.2 hname)
    obtain ⟨startSymbol, hstart⟩ := hknown s.startSymbol .missingStartRule (.inr hstart)
    obtain ⟨acceptSymbol, haccept⟩ :=
      hknown acceptName (.internal .missingAugmentingSymbol) (.inr haccept)
    obtain ⟨endMark, hend⟩ := hknown endName (.internal .missingEndMark)
      (.inl (mem_terminalNames.2 (.inr (.inr (.inl rfl)))))
    obtain ⟨errorSymbol, herror⟩ := hknown errorName (.internal .missingErrorToken)
      (.inl (mem_terminalNames.2 (.inr (.inl rfl))))
    rw [resolve, htoken]
    simp only [hproductions, hstart, haccept, hend, herror, bind, Except.bind]
    exact ⟨_, rfl⟩

/-- The rules of a specification resolve exactly if nothing keeps them from it. -/
theorem resolvable_iff (hrules : ProperRules s.startSymbol rules) :
    Resolvable d rules ↔ tokenOnLeft d rules = none ∧
      ∃ productions, (withSymbols s d rules).resolveRules 0 rules = .ok productions := by
  -- Resolution is a condition on each rule by itself, and so are the causes to refuse it.
  rw [tokenOnLeft_eq_none_iff, exists_resolveRules_iff]
  simp only [exists_resolveRule_iff, Nat.zero_add]
  constructor
  · intro h
    refine ⟨⟨h.token_notMem, h.error_notMem⟩, ?_⟩
    intro n r hr
    have hmem : r ∈ rules := List.mem_of_getElem? hr
    refine ⟨?_, ?_, fun text => h.action n r text hr⟩
    · exact exists_symbolIndex?_withSymbols_iff.2
        (.inr (Rule.mem_leftSides.2 ⟨r, hmem, rfl⟩))
    · intro x hx
      exact (exists_symbolIndex?_text_iff (hrules.right hmem x hx)).2 (h.right r hmem x hx)
  · intro h
    obtain ⟨⟨htoken, herror⟩, hall⟩ := h
    constructor
    case token_notMem => exact htoken
    case error_notMem => exact herror
    case right =>
      intro r hr x hx
      obtain ⟨n, hn⟩ := List.getElem?_of_mem hr
      exact (exists_symbolIndex?_text_iff (hrules.right hr x hx)).1 ((hall n r hn).2.1 x hx)
    case action =>
      intro n r text hr
      exact (hall n r hr).2.2 text

/-- The production at a place represents the rule there. -/
theorem exists_represents (h : resolve s d rules = .ok g) {n : Nat} {r : Rule}
    (hr : rules[n]? = some r) : ∃ p, g.productions[n]? = some p ∧ g.Represents n r p := by
  obtain ⟨-, productions, hproductions, heq, hnames⟩ := exists_productions_of_resolve h
  obtain ⟨p, hp, hrule⟩ := (getElem?_resolveRules hproductions).2 n r hr
  rw [Nat.zero_add] at hrule
  obtain ⟨hresolves, haction⟩ := resolveRule_eq_ok_iff.1 hrule
  refine ⟨p, by rw [heq, List.getElem?_toArray, hp], ?_⟩
  constructor
  case left => rw [hnames, hresolves.names.1]
  case right => rw [hnames, hresolves.names.2]
  case precedence => exact hresolves.precedence
  case action_none =>
    intro hnone
    rw [hnone] at haction
    exact (Except.ok.inj haction).symm
  case action_some =>
    intro text htext
    rw [htext] at haction
    obtain ⟨a, ha, hp⟩ := map_eq_ok_iff.1 haction
    refine ⟨a, ha, ?_, hp.symm⟩
    obtain ⟨pieces, -, rfl⟩ := map_eq_ok_iff.1 ha
    exact String.ofList_toList

end Specification

/-! ## Section 5: Refusals -/

/-- A right side is refused for a name in it that is unknown. -/
theorem exists_unknown_of_resolveRight {right : List RuleSymbol} {e : GrammarError}
    (h : g.resolveRight right = .error e) :
    ∃ x ∈ right, g.symbolIndex? x.text = none ∧ e = .undefinedSymbol x.text := by
  induction right with
  | nil => simp [resolveRight] at h
  | cons x rest ih =>
    unfold resolveRight at h
    split at h
    · next hunknown => exact ⟨x, List.mem_cons_self, hunknown, (Except.error.inj h).symm⟩
    · obtain ⟨y, hy, hunknown⟩ := ih (map_eq_error_iff.1 h)
      exact ⟨y, List.mem_cons_of_mem x hy, hunknown⟩

variable (g) in
/-- What a rule with a known left side is refused for. -/
def Refuses (i : Nat) (r : Rule) (e : GrammarError) : Prop :=
  (∃ x ∈ r.right, g.symbolIndex? x.text = none ∧ e = .undefinedSymbol x.text) ∨
    ∃ text, r.action = some text ∧
      SemanticAction.parse text.toList i r.right.length = .error e

theorem refuses_of_resolveRule {i left : Nat} {r : Rule} {e : GrammarError}
    (hleft : g.symbolIndex? r.left = some left) (h : g.resolveRule i r = .error e) :
    g.Refuses i r e := by
  rw [resolveRule, hleft] at h
  simp only at h
  split at h
  · next hright => exact .inl (exists_unknown_of_resolveRight (Except.error.inj h ▸ hright))
  · next right hright =>
    rw [← (resolveRight_eq_ok_iff.1 hright).length_eq] at h
    have haction := map_eq_error_iff.1 h
    cases htext : r.action with
    | none => simp [htext, resolveAction] at haction
    | some text =>
      rw [htext] at haction
      exact .inr ⟨text, htext, map_eq_error_iff.1 haction⟩

/-- Rules are refused for one of them, at its place. -/
theorem exists_resolveRule_of_resolveRules {first : Nat} {rules : List Rule} {e : GrammarError}
    (h : g.resolveRules first rules = .error e) :
    ∃ (n : Nat) (r : Rule), rules[n]? = some r ∧ g.resolveRule (first + n) r = .error e := by
  induction rules generalizing first with
  | nil => simp [resolveRules] at h
  | cons r rest ih =>
    unfold resolveRules at h
    split at h
    · next hrule => exact ⟨0, r, rfl, Except.error.inj h ▸ hrule⟩
    · obtain ⟨n, q, hq, hrest⟩ := ih (map_eq_error_iff.1 h)
      exact ⟨n + 1, q, hq, by rwa [Nat.add_right_comm] at hrest⟩

/-- A specification whose parts are read is refused for a token on the left, or for one of its
    rules. -/
theorem terminalOnLeft_or_refuses_of_resolve {s : Sections} {d : Declarations} {rules : List Rule}
    {e : GrammarError} (hstart : s.startSymbol ∈ Rule.leftSides rules)
    (haccept : acceptName ∈ Rule.leftSides rules) (h : resolve s d rules = .error e) :
    (∃ name, tokenOnLeft d rules = some name ∧ e = .terminalOnLeft name) ∨
      ∃ (n : Nat) (r : Rule), rules[n]? = some r ∧ (withSymbols s d rules).Refuses n r e := by
  -- If no token is on the left, it is a rule that does not resolve.
  cases htoken : tokenOnLeft d rules with
  | some name =>
    rw [resolve, htoken] at h
    exact .inl ⟨name, rfl, (Except.error.inj h).symm⟩
  | none =>
    right
    cases hproductions : (withSymbols s d rules).resolveRules 0 rules with
    | ok productions =>
      obtain ⟨g, hg⟩ := (exists_resolve_iff hstart haccept).2 ⟨htoken, productions, hproductions⟩
      simp [hg] at h
    | error fault =>
      rw [resolve, htoken] at h
      simp only [hproductions, bind, Except.bind] at h
      obtain ⟨n, r, hr, hrule⟩ := exists_resolveRule_of_resolveRules hproductions
      rw [Except.error.inj h, Nat.zero_add] at hrule
      obtain ⟨left, hleft⟩ : ∃ i, (withSymbols s d rules).symbolIndex? r.left = some i :=
        exists_symbolIndex?_withSymbols_iff.2
          (.inr (Rule.mem_leftSides.2 ⟨r, List.mem_of_getElem? hr, rfl⟩))
      exact ⟨n, r, hr, refuses_of_resolveRule hleft hrule⟩

/-! ## Section 6: Texts -/

section Text

variable {spec : String} {s : Sections} {d : Declarations} {rules : List Rule}
  (hs : Sections.split spec.toList = .ok s) (hd : Declarations.parse s.declarations = .ok d)
  (hrules : Rule.parse s.startSymbol d.precedence.lookup s.rules = .ok rules)
include hs hrules

/-- The rules that are read have the start symbol and `$accept` for left sides. -/
theorem mem_leftSides_of_split :
    s.startSymbol ∈ Rule.leftSides rules ∧ acceptName ∈ Rule.leftSides rules := by
  obtain ⟨read, heq, -⟩ := Rule.proper_of_parse hrules
  refine ⟨Rule.mem_leftSides.2 ?_, Rule.mem_leftSides.2 ⟨Rule.augmenting s.startSymbol, ?_, rfl⟩⟩
  · exact Rule.exists_left_of_parse (Sections.startSymbol?_of_split hs) hrules
  · rw [heq]
    exact List.mem_cons_self

include hd

/-- Once the parts are read, the rest is resolution. -/
theorem parse_eq_resolve : parse spec = resolve s d rules := by
  rw [parse, hs]
  simp only [hd, hrules]

/-- What a text is refused for once its parts are read. -/
theorem terminalOnLeft_or_refuses_of_parse {e : GrammarError} (h : parse spec = .error e) :
    (∃ name, tokenOnLeft d rules = some name ∧ e = .terminalOnLeft name) ∨
      ∃ (n : Nat) (r : Rule), rules[n]? = some r ∧ (withSymbols s d rules).Refuses n r e := by
  rw [parse_eq_resolve hs hd hrules] at h
  obtain ⟨hstart, haccept⟩ := mem_leftSides_of_split hs hrules
  exact terminalOnLeft_or_refuses_of_resolve hstart haccept h

end Text

/-- **Resolution is exact and faithful**: let the parts of a specification be read. Then it has a
    grammar exactly if no token and not `error` is a left side, every name in a right side is a
    token, `error`, a quoted literal or a left side, and every action can be read. The grammar
    has one production for each rule, in the same order, and the production says by name what
    the rule says; symbols have different names, so names tell them apart. -/
theorem exists_parse_iff_resolvable {spec : String} {s : Sections} {d : Declarations}
    {rules : List Rule} (hs : Sections.split spec.toList = .ok s)
    (hd : Declarations.parse s.declarations = .ok d)
    (hrules : Rule.parse s.startSymbol d.precedence.lookup s.rules = .ok rules) :
    ((∃ g, parse spec = .ok g) ↔ Resolvable d rules) ∧
      ∀ g, parse spec = .ok g → (g.symbols.map g.symbolName).Nodup ∧
        g.productionCount = rules.length ∧
        ∀ (i : Nat) (r : Rule), rules[i]? = some r →
          ∃ p, g.productions[i]? = some p ∧ g.Represents i r p := by
  have hparse := parse_eq_resolve hs hd hrules
  have hproper : ProperRules s.startSymbol rules :=
    ⟨Sections.isIdentifier_startSymbol hs, Rule.proper_of_parse hrules⟩
  obtain ⟨hstart, haccept⟩ := mem_leftSides_of_split hs hrules
  constructor
  · rw [hparse, resolvable_iff hproper, exists_resolve_iff hstart haccept]
  · intro g hg
    obtain ⟨s', d', read, hs', hd', hread, hnumbered⟩ := numberedFrom_of_parse hg
    rw [hparse] at hg
    refine ⟨hnumbered.names_nodup, ?_, fun i r => exists_represents hg⟩
    exact (resolved_of_resolve hg).productions.length_eq.symm

/-- Sums, with an action, a literal that is not declared, and `error` in a right side. -/
def sums : String := "%token NUM\n%% s : s '+' NUM { $$ = $1 + $3; } | error | NUM ; %%"

/-- The first production is the first rule of the text with its action read. -/
theorem exists_parse_iff_resolvable_sums :
    ∃ g s d rules r p, parse sums = .ok g ∧ Sections.split sums.toList = .ok s ∧
      Declarations.parse s.declarations = .ok d ∧
      Rule.parse s.startSymbol d.precedence.lookup s.rules = .ok rules ∧ Resolvable d rules ∧
      rules[1]? = some r ∧ r.action = some "{ $$ = $1 + $3; }" ∧
      g.productions[1]? = some p ∧ g.Represents 1 r p := by
  have hgrammar : (parse sums).map (fun g => decide (g.productionCount = 4)) = .ok true := by
    decide +kernel
  have hread : ((Sections.split sums.toList).bind fun s =>
      (Declarations.parse s.declarations).bind fun d =>
        Rule.parse s.startSymbol d.precedence.lookup s.rules).map (fun rules => decide
          (∃ r ∈ rules[1]?, r.action = some "{ $$ = $1 + $3; }")) = .ok true := by
    decide +kernel
  obtain ⟨g, hparse, -⟩ := exists_of_map_decide hgrammar
  obtain ⟨s, d, rules, hs, hd, hrules, -⟩ := exists_resolve_of_parse hparse
  simp only [hs, hd, hrules, Except.bind] at hread
  obtain ⟨rules', hrules', r, hr, haction⟩ := exists_of_map_decide hread
  obtain rfl := Except.ok.inj hrules'
  obtain ⟨hiff, hfaithful⟩ := exists_parse_iff_resolvable hs hd hrules
  obtain ⟨-, -, hproductions⟩ := hfaithful g hparse
  obtain ⟨p, hp, hrepresents⟩ := hproductions 1 r hr
  exact ⟨g, s, d, rules, r, p, hparse, hs, hd, hrules, hiff.1 ⟨g, hparse⟩, hr, haction, hp,
    hrepresents⟩

end Grammar

end SlrCompiler
