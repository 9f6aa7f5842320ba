import Mathlib.Data.List.Forall2
import SlrCompiler.Grammar.Resolution
import SlrCompiler.Proofs.Finite.FirstAppearance
import SlrCompiler.Proofs.Grammar.WellFormed
import SlrCompiler.Proofs.Specification.Declarations
import SlrCompiler.Proofs.Specification.Rule
import SlrCompiler.Proofs.Success

/-! # Parsed grammars are well-formed

    Resolution turns names into numbers. Names and numbers determine each
    other (`symbolName_of_symbolIndex?`), so what is known of the names in the
    rules becomes known of the symbols in the productions: no left side is a
    terminal, only production 0 expands `$accept`, and neither `$accept` nor
    `$end` stands in a right side. `wellFormed_of_parse` collects all of it.
    No symbol has a precedence but from a precedence line
    (`precedence_eq_none_of_parse`).
-/

namespace SlrCompiler

open Text

theorem Sections.isIdentifier_startSymbol {spec : List Char} {s : Sections}
    (h : Sections.split spec = .ok s) : isIdentifier s.startSymbol.toList = true := by
  unfold Sections.split at h
  split at h
  · simp at h
  split at h
  · simp at h
  split at h
  · simp at h
  · obtain ⟨name, hname, rfl⟩ := map_eq_ok_iff.1 h
    simp only [Sections.startSymbol?] at hname
    split at hname
    · simp at hname
    split at hname
    · simp at hname
    split at hname
    · obtain rfl := Except.ok.inj hname
      simpa
    · simp at hname

namespace Grammar

variable {g : Grammar}

/-! ## Section 1: Names and numbers -/

/-- The number of a name belongs to a symbol of that name. -/
theorem symbolName_of_symbolIndex? {name : String} {i : Nat}
    (h : g.symbolIndex? name = some i) : i < g.symbolCount ∧ g.symbolName i = name := by
  unfold symbolIndex? at h
  split at h
  · rename_i j hj
    obtain rfl := Option.some.inj h
    obtain ⟨hlt, heq, -⟩ := Array.findIdx?_eq_some_iff_getElem.1 hj
    refine ⟨by simp only [symbolCount, terminalCount]; omega, ?_⟩
    rw [symbolName, Array.getElem?_eq_getElem hlt]
    exact eq_of_beq heq
  · obtain ⟨j, hj, rfl⟩ := Option.map_eq_some_iff.1 h
    obtain ⟨hlt, heq, -⟩ := Array.findIdx?_eq_some_iff_getElem.1 hj
    refine ⟨by simp only [symbolCount, nonterminalCount]; omega, ?_⟩
    have hnone : g.terminals[g.terminalCount + j]? = none :=
      Array.getElem?_eq_none (by simp [terminalCount])
    rw [symbolName, hnone, Nat.add_sub_cancel_left, Array.getElem?_eq_getElem hlt]
    exact eq_of_beq heq

/-- Different names have different numbers. -/
theorem symbolIndex?_inj {m n : String} {i : Nat} (hm : g.symbolIndex? m = some i)
    (hn : g.symbolIndex? n = some i) : m = n := by
  rw [← (symbolName_of_symbolIndex? hm).2, (symbolName_of_symbolIndex? hn).2]

/-- The name of a terminal belongs to a terminal. -/
theorem exists_terminal_of_mem {name : String} (h : name ∈ g.terminals.toList.map Terminal.name) :
    ∃ (i : Nat) (t : Terminal), g.symbolIndex? name = some i ∧ g.terminals[i]? = some t ∧
      t.name = name := by
  obtain ⟨t, ht, hname⟩ := List.mem_map.1 h
  have hsome : (g.terminals.findIdx? (·.name == name)).isSome := by
    rw [Array.findIdx?_isSome, Array.any_eq_true']
    exact ⟨t, by simpa using ht, by simp [hname]⟩
  obtain ⟨i, hi⟩ := Option.isSome_iff_exists.1 hsome
  obtain ⟨hlt, heq, -⟩ := Array.findIdx?_eq_some_iff_getElem.1 hi
  exact ⟨i, _, by rw [symbolIndex?, hi], Array.getElem?_eq_getElem hlt, eq_of_beq heq⟩

/-- The name of a symbol is found. -/
theorem exists_symbolIndex?_of_mem {name : String}
    (h : name ∈ g.terminals.toList.map Terminal.name ∨
      name ∈ g.nonterminals.toList.map Nonterminal.name) : ∃ i, g.symbolIndex? name = some i := by
  rcases h with h | h
  · obtain ⟨i, -, hi, -⟩ := exists_terminal_of_mem h
    exact ⟨i, hi⟩
  · obtain ⟨n, hn, hname⟩ := List.mem_map.1 h
    have hsome : (g.nonterminals.findIdx? (·.name == name)).isSome := by
      rw [Array.findIdx?_isSome, Array.any_eq_true']
      exact ⟨n, by simpa using hn, by simp [hname]⟩
    obtain ⟨j, hj⟩ := Option.isSome_iff_exists.1 hsome
    unfold symbolIndex?
    split
    · exact ⟨_, rfl⟩
    · exact ⟨_, by rw [hj]; rfl⟩

/-- Any other name belongs to a nonterminal. -/
theorem isTerminal_eq_false_of_notMem {name : String} {i : Nat}
    (hname : name ∉ g.terminals.toList.map Terminal.name) (h : g.symbolIndex? name = some i) :
    g.isTerminal i = false := by
  unfold symbolIndex? at h
  split at h
  · rename_i j hj
    obtain ⟨hlt, heq, -⟩ := Array.findIdx?_eq_some_iff_getElem.1 hj
    exact absurd (List.mem_map.2 ⟨_, by simp, eq_of_beq heq⟩) hname
  · obtain ⟨j, -, rfl⟩ := Option.map_eq_some_iff.1 h
    simp [isTerminal]

/-! ## Section 2: Rules and productions -/

variable (g) in
/-- The production has the symbols that the rule names, and its precedence. -/
structure Resolves (r : Rule) (p : Production) : Prop where
  left : g.symbolIndex? r.left = some p.left
  right : List.Forall₂ (fun s i => g.symbolIndex? s.text = some i) r.right p.right
  precedence : p.precedence = r.precedence

theorem resolveRight_eq_ok_iff {right : List RuleSymbol} {indices : List Nat} :
    g.resolveRight right = .ok indices ↔
      List.Forall₂ (fun s i => g.symbolIndex? s.text = some i) right indices := by
  constructor
  · intro h
    induction right generalizing indices with
    | nil =>
      obtain rfl := Except.ok.inj h
      exact .nil
    | cons s rest ih =>
      unfold resolveRight at h
      split at h
      · simp at h
      · rename_i i hi
        obtain ⟨tail, htail, rfl⟩ := map_eq_ok_iff.1 h
        exact .cons hi (ih htail)
  · intro h
    induction h with
    | nil => rfl
    | cons hindex _ ih =>
      rw [resolveRight, hindex, ih]
      rfl

/-- A rule resolves to a production with its symbols and its precedence, and with its action as
    it is read. -/
theorem resolveRule_eq_ok_iff {number : Nat} {r : Rule} {p : Production} :
    g.resolveRule number r = .ok p ↔
      g.Resolves r p ∧ resolveAction number r.right.length r.action = .ok p.action := by
  constructor
  · intro h
    unfold resolveRule at h
    split at h
    · simp at h
    rename_i left hleft
    split at h
    · simp at h
    rename_i right hright
    obtain ⟨action, haction, rfl⟩ := map_eq_ok_iff.1 h
    have hsymbols := resolveRight_eq_ok_iff.1 hright
    exact ⟨⟨hleft, hsymbols, rfl⟩, by rwa [hsymbols.length_eq]⟩
  · intro h
    obtain ⟨hresolves, haction⟩ := h
    rw [resolveRule, hresolves.left, resolveRight_eq_ok_iff.2 hresolves.right]
    simp only [← hresolves.right.length_eq, haction, Except.map, ← hresolves.precedence]

theorem resolveRules_forall₂ {number : Nat} {rules : List Rule} {productions : List Production}
    (h : g.resolveRules number rules = .ok productions) :
    List.Forall₂ g.Resolves rules productions := by
  induction rules generalizing number productions with
  | nil =>
    obtain rfl := Except.ok.inj h
    exact .nil
  | cons r rest ih =>
    unfold resolveRules at h
    split at h
    · simp at h
    · rename_i p hp
      obtain ⟨tail, htail, rfl⟩ := map_eq_ok_iff.1 h
      exact .cons (resolveRule_eq_ok_iff.1 hp).1 (ih htail)

variable (g) in
/-- What a grammar has from the specification it is resolved from. -/
structure Resolved (s : Sections) (d : Declarations) (rules : List Rule) : Prop where
  tokenOnLeft : tokenOnLeft d rules = none
  terminals : g.terminals = ((terminalNames d rules).map (declaredTerminal d)).toArray
  productions : List.Forall₂ g.Resolves rules g.productions.toList
  startSymbol : g.symbolIndex? s.startSymbol = some g.startSymbol
  acceptSymbol : g.symbolIndex? acceptName = some g.acceptSymbol
  endMark : g.symbolIndex? endName = some g.endMark
  epsilon : g.epsilon = (Rule.emptyLeftSides rules).filterMap g.symbolIndex?

theorem symbolIndex?_of_require {name : String} {e : GrammarError} {i : Nat}
    (h : g.require name e = .ok i) : g.symbolIndex? name = some i := by
  unfold require at h
  split at h
  · simp at h
  · rename_i hi
    rw [hi, Except.ok.inj h]

/-- What resolution gives is the symbols with the productions that the rules resolve to, and
    with special symbols that are found by their names. -/
theorem exists_of_resolve {s : Sections} {d : Declarations} {rules : List Rule}
    (h : resolve s d rules = .ok g) : tokenOnLeft d rules = none ∧
      ∃ productions startSymbol acceptSymbol endMark errorSymbol,
        (withSymbols s d rules).resolveRules 0 rules = .ok productions ∧
        (withSymbols s d rules).symbolIndex? s.startSymbol = some startSymbol ∧
        (withSymbols s d rules).symbolIndex? acceptName = some acceptSymbol ∧
        (withSymbols s d rules).symbolIndex? endName = some endMark ∧
        g = { withSymbols s d rules with
          productions := productions.toArray
          startSymbol, acceptSymbol, endMark, errorSymbol
          epsilon := (Rule.emptyLeftSides rules).filterMap
            (withSymbols s d rules).symbolIndex? } := by
  unfold resolve at h
  split at h
  · simp at h
  · rename_i hleft
    obtain ⟨productions, hproductions, h⟩ := bind_eq_ok_iff.1 h
    obtain ⟨startSymbol, hstart, h⟩ := bind_eq_ok_iff.1 h
    obtain ⟨acceptSymbol, haccept, h⟩ := bind_eq_ok_iff.1 h
    obtain ⟨endMark, hend, h⟩ := bind_eq_ok_iff.1 h
    obtain ⟨errorSymbol, -, h⟩ := bind_eq_ok_iff.1 h
    exact ⟨hleft, productions, startSymbol, acceptSymbol, endMark, errorSymbol, hproductions,
      symbolIndex?_of_require hstart, symbolIndex?_of_require haccept,
      symbolIndex?_of_require hend, (Except.ok.inj h).symm⟩

theorem resolved_of_resolve {s : Sections} {d : Declarations} {rules : List Rule}
    (h : resolve s d rules = .ok g) : g.Resolved s d rules := by
  obtain ⟨hleft, productions, startSymbol, acceptSymbol, endMark, errorSymbol, hproductions,
    hstart, haccept, hend, rfl⟩ := exists_of_resolve h
  exact {
    tokenOnLeft := hleft
    terminals := rfl
    productions := (resolveRules_forall₂ hproductions).imp fun r p hrp =>
      ⟨hrp.left, hrp.right, hrp.precedence⟩
    startSymbol := hstart
    acceptSymbol := haccept
    endMark := hend
    epsilon := rfl }

namespace Resolved

variable {s : Sections} {d : Declarations} {rules : List Rule} (h : g.Resolved s d rules)
include h

theorem terminalNames_eq : g.terminals.toList.map Terminal.name = terminalNames d rules := by
  simp [h.terminals, declaredTerminal, Function.comp_def]

/-- Every production comes from the rule at its place. -/
theorem exists_rule {i : Nat} {p : Production} (hp : g.productions[i]? = some p) :
    ∃ r, rules[i]? = some r ∧ g.Resolves r p := by
  rw [← Array.getElem?_toList] at hp
  obtain ⟨hlength, hall⟩ := List.forall₂_iff_get.1 h.productions
  obtain ⟨hi, rfl⟩ := List.getElem?_eq_some_iff.1 hp
  exact ⟨rules[i], List.getElem?_eq_getElem (hlength ▸ hi), hall i (hlength ▸ hi) hi⟩

/-- Every rule leads to the production at its place. -/
theorem exists_production {i : Nat} {r : Rule} (hr : rules[i]? = some r) :
    ∃ p, g.productions[i]? = some p ∧ g.Resolves r p := by
  obtain ⟨hlength, hall⟩ := List.forall₂_iff_get.1 h.productions
  obtain ⟨hi, rfl⟩ := List.getElem?_eq_some_iff.1 hr
  have hi' : i < g.productions.toList.length := hlength ▸ hi
  refine ⟨g.productions.toList[i], ?_, hall i hi hi'⟩
  rw [← Array.getElem?_toList, List.getElem?_eq_getElem hi']

end Resolved

theorem Resolves.exists_symbol {r : Rule} {p : Production} (h : g.Resolves r p) {i : Nat}
    (hi : i ∈ p.right) : ∃ s ∈ r.right, g.symbolIndex? s.text = some i := by
  obtain ⟨k, hk, rfl⟩ := List.getElem_of_mem hi
  obtain ⟨hlength, hall⟩ := List.forall₂_iff_get.1 h.right
  have hk' : k < r.right.length := hlength ▸ hk
  exact ⟨r.right[k], List.getElem_mem hk', hall k hk' hk⟩

/-- The symbols of a production have the names that its rule has. -/
theorem Resolves.names {r : Rule} {p : Production} (h : g.Resolves r p) :
    g.symbolName p.left = r.left ∧ p.right.map g.symbolName = r.right.map RuleSymbol.text := by
  refine ⟨(symbolName_of_symbolIndex? h.left).2, ?_⟩
  have hright := h.right
  generalize r.right = symbols, p.right = right at hright
  induction hright with
  | nil => rfl
  | cons hindex _ ih =>
    rw [List.map_cons, List.map_cons, ih, (symbolName_of_symbolIndex? hindex).2]

/-- The symbols of a production are found by their names. -/
theorem Resolves.symbolIndex? {r : Rule} {p : Production} (h : g.Resolves r p) :
    g.symbolIndex? (g.symbolName p.left) = some p.left ∧
      ∀ i ∈ p.right, g.symbolIndex? (g.symbolName i) = some i := by
  constructor
  · rw [h.names.1]
    exact h.left
  · intro i hi
    obtain ⟨s, -, hindex⟩ := h.exists_symbol hi
    rwa [(symbolName_of_symbolIndex? hindex).2]

/-! ## Section 3: Well-formedness -/

section Names

variable {d : Declarations} {rules : List Rule}

theorem mem_terminalNames {name : String} : name ∈ terminalNames d rules ↔
    name ∈ d.tokens ∨ name = errorName ∨ name = endName ∨ name ∈ Rule.literals rules := by
  simp [terminalNames]

/-- No token stands on a left side, and `error` does not. -/
theorem tokenOnLeft_eq_none_iff : tokenOnLeft d rules = none ↔
    (∀ name ∈ d.tokens, name ∉ Rule.leftSides rules) ∧ errorName ∉ Rule.leftSides rules := by
  unfold tokenOnLeft
  cases hfind : d.tokens.find? (· ∈ Rule.leftSides rules) with
  | some name =>
    have hname : name ∈ Rule.leftSides rules := by simpa using List.find?_some hfind
    simp only [reduceCtorEq, false_iff, not_and]
    intro hall
    exact absurd hname (hall name (List.mem_of_find?_eq_some hfind))
  | none =>
    rw [List.find?_eq_none] at hfind
    simp only [decide_eq_true_eq] at hfind
    simp only [ite_eq_right_iff, reduceCtorEq, imp_false]
    exact (and_iff_right hfind).symm

end Names

/-- What reading promises of the rules that are resolved. -/
structure ProperRules (startSymbol : String) (rules : List Rule) : Prop where
  isIdentifier_start : isIdentifier startSymbol.toList = true
  exists_read : ∃ read, rules = Rule.augmenting startSymbol :: read ∧ ∀ r ∈ read, r.Proper

namespace ProperRules

variable {startSymbol : String} {rules : List Rule} (h : ProperRules startSymbol rules)
include h

theorem zero : rules[0]? = some (Rule.augmenting startSymbol) := by
  obtain ⟨read, rfl, -⟩ := h.exists_read
  rfl

theorem left {i : Nat} {r : Rule} (hr : rules[i]? = some r) (hi : i ≠ 0) :
    isIdentifier r.left.toList = true := by
  obtain ⟨read, rfl, hread⟩ := h.exists_read
  obtain ⟨k, rfl⟩ := Nat.exists_eq_succ_of_ne_zero hi
  exact (hread r (List.mem_of_getElem? hr)).left

/-- The augmenting rule is no exception on its right side. -/
theorem right {r : Rule} (hr : r ∈ rules) : ∀ x ∈ r.right, x.Proper := by
  obtain ⟨read, rfl, hread⟩ := h.exists_read
  rcases List.mem_cons.1 hr with rfl | hr
  · intro x hx
    rw [List.mem_singleton.1 hx]
    exact h.isIdentifier_start
  · exact (hread r hr).right

theorem left_eq_or {r : Rule} (hr : r ∈ rules) :
    r.left = acceptName ∨ isIdentifier r.left.toList = true := by
  obtain ⟨read, rfl, hread⟩ := h.exists_read
  rcases List.mem_cons.1 hr with rfl | hr
  · exact .inl rfl
  · exact .inr (hread r hr).left

theorem literal_head {text : String} (htext : text ∈ Rule.literals rules) :
    text.toList.head? = some '\'' := by
  rw [Rule.literals, List.mem_eraseDups, List.mem_flatMap] at htext
  obtain ⟨r, hr, hmem⟩ := htext
  obtain ⟨x, hx, hliteral⟩ := List.mem_filterMap.1 hmem
  have hproper := h.right hr x hx
  cases x with
  | name text => simp [RuleSymbol.literal?] at hliteral
  | literal text =>
    obtain rfl := Option.some.inj hliteral
    exact hproper

/-- No left side is the name of a terminal. -/
theorem left_notMem {d : Declarations} (hd : tokenOnLeft d rules = none) {r : Rule}
    (hr : r ∈ rules) : r.left ∉ terminalNames d rules := by
  have hleft : r.left ∈ Rule.leftSides rules := Rule.mem_leftSides.2 ⟨r, hr, rfl⟩
  obtain ⟨htokens, herror⟩ := tokenOnLeft_eq_none_iff.1 hd
  intro hmem
  rcases mem_terminalNames.1 hmem with htoken | herr | hend | hliteral
  · exact htokens r.left htoken hleft
  · exact herror (herr ▸ hleft)
  · -- `$end` is no identifier and not `$accept`.
    have hnot : isIdentifier endName.toList = false := by decide
    have hdiffer : endName ≠ acceptName := by decide
    rcases h.left_eq_or hr with haccept | hidentifier
    · exact hdiffer (hend ▸ haccept)
    · simp [hend, hnot] at hidentifier
  · -- A literal opens with a quote, and no left side does.
    have hhead := h.literal_head hliteral
    have haccept : acceptName.toList.head? = some '$' := by decide
    have hquote : isIdentifierChar '\'' = false := by decide
    rcases h.left_eq_or hr with heq | hidentifier
    · simp [heq, haccept] at hhead
    · cases hlist : r.left.toList with
      | nil => simp [hlist] at hhead
      | cons c rest =>
        obtain rfl : c = '\'' := by simpa [hlist] using hhead
        simp [isIdentifier, hlist, hquote] at hidentifier

end ProperRules

namespace Resolved

variable {s : Sections} {d : Declarations} {rules : List Rule} (h : g.Resolved s d rules)
include h

/-- The end mark is the terminal of that name. -/
theorem exists_endMark : ∃ t, g.terminals[g.endMark]? = some t ∧ t.name = endName := by
  have hend : endName ∈ g.terminals.toList.map Terminal.name := by
    rw [h.terminalNames_eq]
    exact mem_terminalNames.2 (.inr (.inr (.inl rfl)))
  obtain ⟨i, t, hi, ht, hname⟩ := exists_terminal_of_mem hend
  obtain rfl := Option.some.inj (hi.symm.trans h.endMark)
  exact ⟨t, ht, hname⟩

/-- The symbols that are recorded as empty are the left sides of empty productions. -/
theorem mem_epsilon {x : Nat} : x ∈ g.epsilon ↔
    ∃ (i : Nat) (p : Production), g.productions[i]? = some p ∧ p.left = x ∧ p.right = [] := by
  -- An empty rule has an empty production at its place, and the other way round.
  rw [h.epsilon, List.mem_filterMap]
  constructor
  · intro hx
    obtain ⟨name, hname, hindex⟩ := hx
    rw [Rule.emptyLeftSides, List.mem_eraseDups] at hname
    obtain ⟨r, hr, rfl⟩ := List.mem_map.1 hname
    obtain ⟨hr, hempty⟩ := List.mem_filter.1 hr
    obtain ⟨i, hi⟩ := List.getElem?_of_mem hr
    obtain ⟨p, hp, hresolves⟩ := h.exists_production hi
    refine ⟨i, p, hp, Option.some.inj (hresolves.left.symm.trans hindex), ?_⟩
    have hsymbols := hresolves.right
    rw [List.isEmpty_iff.1 hempty] at hsymbols
    exact List.forall₂_nil_left_iff.1 hsymbols
  · intro hx
    obtain ⟨i, p, hp, hleft, hempty⟩ := hx
    obtain ⟨r, hr, hresolves⟩ := h.exists_rule hp
    have hsymbols := hresolves.right
    rw [hempty] at hsymbols
    refine ⟨r.left, ?_, hleft ▸ hresolves.left⟩
    rw [Rule.emptyLeftSides, List.mem_eraseDups]
    refine List.mem_map_of_mem (List.mem_filter.2 ⟨List.mem_of_getElem? hr, ?_⟩)
    rw [List.isEmpty_iff]
    exact List.forall₂_nil_right_iff.1 hsymbols

variable (hrules : ProperRules s.startSymbol rules)
include hrules

theorem left_nonterminal {i : Nat} {p : Production} (hp : g.productions[i]? = some p) :
    g.isTerminal p.left = false := by
  obtain ⟨r, hr, hresolves⟩ := h.exists_rule hp
  refine isTerminal_eq_false_of_notMem ?_ hresolves.left
  rw [h.terminalNames_eq]
  exact hrules.left_notMem h.tokenOnLeft (List.mem_of_getElem? hr)

/-- The symbols of right sides have names, and neither of the reserved ones. -/
theorem exists_name_of_mem_right {i x : Nat} {p : Production}
    (hp : g.productions[i]? = some p) (hx : x ∈ p.right) :
    ∃ name, g.symbolIndex? name = some x ∧ name ≠ acceptName ∧ name ≠ endName := by
  obtain ⟨r, hr, hresolves⟩ := h.exists_rule hp
  obtain ⟨y, hy, hindex⟩ := hresolves.exists_symbol hx
  exact ⟨y.text, hindex, (hrules.right (List.mem_of_getElem? hr) y hy).text_ne⟩

/-- The augmenting rule leads to the augmenting production. -/
theorem exists_augmenting : ∃ (p : Production), g.productions[0]? = some p ∧
    p.left = g.acceptSymbol ∧ p.right = [g.startSymbol] := by
  obtain ⟨p, hp, hresolves⟩ := h.exists_production hrules.zero
  refine ⟨p, hp, Option.some.inj (hresolves.left.symm.trans h.acceptSymbol), ?_⟩
  have hsymbols := hresolves.right
  rw [Rule.augmenting, List.forall₂_cons_left_iff] at hsymbols
  obtain ⟨start, rest, hstart, hrest, heq⟩ := hsymbols
  rw [heq, List.forall₂_nil_left_iff.1 hrest,
    Option.some.inj (hstart.symm.trans h.startSymbol)]

/-- No rule that was read has the name `$accept` on its left side. -/
theorem eq_zero_of_left {i : Nat} {p : Production} (hp : g.productions[i]? = some p)
    (hleft : p.left = g.acceptSymbol) : i = 0 := by
  obtain ⟨r, hr, hresolves⟩ := h.exists_rule hp
  by_contra hi
  have hname : r.left = acceptName := symbolIndex?_inj (hleft ▸ hresolves.left) h.acceptSymbol
  -- The rule was read, so its left side is an identifier, which `$accept` is not.
  have hidentifier := hrules.left hr hi
  have hnot : isIdentifier acceptName.toList = false := by decide
  rw [hname, hnot] at hidentifier
  exact absurd hidentifier Bool.false_ne_true

/-- **Well-formedness** of what proper rules resolve to. -/
theorem wellFormed : g.WellFormed := by
  constructor
  case symbolsExist =>
    intro i p hp
    obtain ⟨r, -, hresolves⟩ := h.exists_rule hp
    refine ⟨(symbolName_of_symbolIndex? hresolves.left).1, fun x hx => ?_⟩
    obtain ⟨name, hname, -⟩ := h.exists_name_of_mem_right hrules hp hx
    exact (symbolName_of_symbolIndex? hname).1
  case left_nonterminal => exact h.left_nonterminal hrules
  case augmenting => exact h.exists_augmenting hrules
  case eq_zero_of_left => exact h.eq_zero_of_left hrules
  case acceptSymbol_notMem =>
    intro i p hp hmem
    obtain ⟨name, hname, hne, -⟩ := h.exists_name_of_mem_right hrules hp hmem
    exact hne (symbolIndex?_inj hname h.acceptSymbol)
  case endMark_notMem =>
    intro i p hp hmem
    obtain ⟨name, hname, -, hne⟩ := h.exists_name_of_mem_right hrules hp hmem
    exact hne (symbolIndex?_inj hname h.endMark)
  case endMark_name => exact h.exists_endMark
  case terminalNames_nodup =>
    rw [h.terminalNames_eq]
    exact nodup_eraseDups _
  case mem_epsilon =>
    intro x
    exact h.mem_epsilon

end Resolved

/-- The stages that a parsed grammar has been through. -/
theorem exists_resolve_of_parse {spec : String} (h : parse spec = .ok g) :
    ∃ s d rules, Sections.split spec.toList = .ok s ∧ Declarations.parse s.declarations = .ok d ∧
      Rule.parse s.startSymbol d.precedence.lookup s.rules = .ok rules ∧
      resolve s d rules = .ok g := by
  unfold parse at h
  split at h
  · simp at h
  rename_i s hs
  split at h
  · simp at h
  rename_i d hd
  split at h
  · simp at h
  rename_i rules hrules
  exact ⟨s, d, rules, hs, hd, hrules, h⟩

/-- What a parsed grammar has from the stages before. -/
theorem exists_resolved_of_parse {spec : String} (h : parse spec = .ok g) :
    ∃ s d rules, Sections.split spec.toList = .ok s ∧ Declarations.parse s.declarations = .ok d ∧
      Rule.parse s.startSymbol d.precedence.lookup s.rules = .ok rules ∧ g.Resolved s d rules := by
  obtain ⟨s, d, rules, hs, hd, hrules, hresolve⟩ := exists_resolve_of_parse h
  exact ⟨s, d, rules, hs, hd, hrules, resolved_of_resolve hresolve⟩

/-- **Parsing** gives a well-formed grammar. -/
theorem wellFormed_of_parse {spec : String} (h : parse spec = .ok g) : g.WellFormed := by
  obtain ⟨s, d, rules, hs, -, hrules, hresolved⟩ := exists_resolved_of_parse h
  exact hresolved.wellFormed
    ⟨Sections.isIdentifier_startSymbol hs, Rule.proper_of_parse hrules⟩

/-! ## Section 4: Precedence -/

section Precedence

variable {s : Sections} {d : Declarations} {rules : List Rule} (h : g.Resolved s d rules)
include h

theorem Resolved.precedenceOf_eq_of_terminal {x : Nat} (hx : g.isTerminal x = true) :
    g.precedenceOf x = d.precedence.lookup (g.symbolName x) := by
  obtain ⟨t, ht⟩ : ∃ t, g.terminals[x]? = some t :=
    ⟨_, Array.getElem?_eq_getElem (isTerminal_iff.1 hx)⟩
  have hmem : t ∈ g.terminals := Array.mem_of_getElem? ht
  rw [h.terminals, List.mem_toArray] at hmem
  obtain ⟨name, -, rfl⟩ := List.mem_map.1 hmem
  rw [precedenceOf, symbolName, ht]
  rfl

omit h in
theorem precedenceOf_eq_none_of_nonterminal {x : Nat} (hx : g.isTerminal x = false) :
    g.precedenceOf x = none := by
  have hle : g.terminals.size ≤ x := Nat.le_of_not_lt (of_decide_eq_false hx)
  rw [precedenceOf, Array.getElem?_eq_none hle, Option.bind_none]

/-- A token is the name of a terminal. -/
theorem Resolved.mem_terminals_of_mem_tokens {name : String} (hname : name ∈ d.tokens) :
    name ∈ g.terminals.toList.map Terminal.name := by
  rw [h.terminalNames_eq]
  exact mem_terminalNames.2 (.inl hname)

/-- A symbol has the precedence that its name has been given. -/
theorem Resolved.precedenceOf_eq (hd : Declarations.parse s.declarations = .ok d) {x : Nat}
    {name : String} (hx : g.symbolIndex? name = some x) :
    g.precedenceOf x = d.precedence.lookup name := by
  have hname := (symbolName_of_symbolIndex? hx).2
  cases hterminal : g.isTerminal x with
  | true => rw [h.precedenceOf_eq_of_terminal hterminal, hname]
  | false =>
    rw [precedenceOf_eq_none_of_nonterminal hterminal]
    by_contra hne
    obtain ⟨i, t, hi, ht, -⟩ := exists_terminal_of_mem
      (h.mem_terminals_of_mem_tokens (Declarations.mem_tokens_of_lookup hd (Ne.symm hne)))
    obtain rfl := Option.some.inj (hi.symm.trans hx)
    have hlt := (Array.getElem?_eq_some_iff.1 ht).1
    simp [isTerminal, terminalCount, hlt] at hterminal

theorem Resolved.precedenceOf_eq_none (hd : ∀ name, d.precedence.lookup name = none) (x : Nat) :
    g.precedenceOf x = none := by
  cases hx : g.isTerminal x with
  | true => rw [h.precedenceOf_eq_of_terminal hx, hd]
  | false => exact precedenceOf_eq_none_of_nonterminal hx

end Precedence

/-- A symbol that has a precedence has it from a line that names it. -/
theorem exists_declaredAt_of_precedenceOf {spec : String} (h : parse spec = .ok g) {x : Nat}
    {p : Precedence} (hp : g.precedenceOf x = some p) :
    ∃ k, DeclaredAt spec k p.associativity (g.symbolName x) ∧ p.level = k + 1 := by
  obtain ⟨s, d, rules, hs, hd, -, hresolved⟩ := exists_resolved_of_parse h
  cases hx : g.isTerminal x with
  | true =>
    rw [hresolved.precedenceOf_eq_of_terminal hx] at hp
    rcases Declarations.exists_declaredAt_or hs hd (g.symbolName x) with
      ⟨k, a, hk, hlookup⟩ | ⟨-, hnone⟩
    · obtain rfl := Option.some.inj (hlookup.symm.trans hp)
      exact ⟨k, hk, rfl⟩
    · simp [hnone] at hp
  | false => simp [precedenceOf_eq_none_of_nonterminal hx] at hp

/-- What a precedence line names is a terminal with a precedence. -/
theorem exists_terminal_of_declaredAt {spec : String} (h : parse spec = .ok g) {k : Nat}
    {a : Associativity} {name : String} (hname : DeclaredAt spec k a name) :
    ∃ x p, g.symbolIndex? name = some x ∧ g.isTerminal x = true ∧ g.precedenceOf x = some p := by
  obtain ⟨s, d, rules, hs, hd, -, hresolved⟩ := exists_resolved_of_parse h
  obtain ⟨p, hlookup⟩ : ∃ p, d.precedence.lookup name = some p := by
    rcases Declarations.exists_declaredAt_or hs hd name with ⟨_, _, -, hlookup⟩ | ⟨hnone, -⟩
    · exact ⟨_, hlookup⟩
    · exact absurd hname (hnone k a)
  have htoken : name ∈ d.tokens := Declarations.mem_tokens_of_lookup hd (by simp [hlookup])
  obtain ⟨x, t, hx, ht, -⟩ :=
    exists_terminal_of_mem (hresolved.mem_terminals_of_mem_tokens htoken)
  exact ⟨x, p, hx, isTerminal_iff.2 (Array.getElem?_eq_some_iff.1 ht).1,
    by rw [hresolved.precedenceOf_eq hd hx, hlookup]⟩

variable (g) in
/-- The precedence of the last symbol that has one. -/
def inheritedPrecedence (right : List Nat) : Option Precedence :=
  right.foldl (fun last x => (g.precedenceOf x).or last) none

/-- Without `%prec` a production has the precedence of the last symbol of its right
    side that has one. -/
theorem precedence_eq_inherited_of_parse {spec : String} (h : parse spec = .ok g)
    (hprec : precArguments spec = []) {i : Nat} {p : Production}
    (hp : g.productions[i]? = some p) (hi : i ≠ 0) :
    p.precedence = g.inheritedPrecedence p.right := by
  obtain ⟨s, d, rules, hs, hd, hrules, hresolved⟩ := exists_resolved_of_parse h
  have hproper : ProperRules s.startSymbol rules :=
    ⟨Sections.isIdentifier_startSymbol hs, Rule.proper_of_parse hrules⟩
  obtain ⟨r, hr, hresolves⟩ := hresolved.exists_rule hp
  have hnoprec : ∀ q ∈ (Lexeme.scan 1 s.rules).lexemes, ∀ argument, q.lexeme = .prec argument →
      d.precedence.lookup argument = none := by
    intro q hq argument hargument
    simp only [precArguments, hs, List.filterMap_eq_nil_iff] at hprec
    simpa [hargument, Lexeme.precArgument?] using hprec q hq
  rcases Rule.precedence_eq_inherited_of_parse hnoprec hrules r (List.mem_of_getElem? hr) with
    rfl | hinherited
  · -- The augmenting rule was not read.
    have hidentifier := hproper.left hr hi
    have hnot : isIdentifier acceptName.toList = false := by decide
    exact absurd (hnot.symm.trans hidentifier) Bool.false_ne_true
  · rw [hresolves.precedence, hinherited, Rule.inherited, inheritedPrecedence]
    -- Symbols have the precedence of their names, so the last one is the same on both sides.
    have hright := hresolves.right
    generalize (none : Option Precedence) = last, r.right = symbols, p.right = right at hright ⊢
    induction hright generalizing last with
    | nil => rfl
    | cons hindex _ ih =>
      rw [List.foldl_cons, List.foldl_cons, hresolved.precedenceOf_eq hd hindex]
      exact ih _

/-- Without precedence lines no terminal and no production has a precedence. -/
theorem precedence_eq_none_of_parse {spec : String} (h : parse spec = .ok g)
    (hlines : precedenceLines spec = []) :
    (∀ x, g.precedenceOf x = none) ∧ ∀ n, g.productionPrecedence n = none := by
  obtain ⟨s, d, rules, hs, hd, hrules, hresolved⟩ := exists_resolved_of_parse h
  have hnone := Declarations.lookup_precedence_eq_none hs hd hlines
  refine ⟨hresolved.precedenceOf_eq_none hnone, fun n => ?_⟩
  unfold productionPrecedence
  rw [Option.bind_eq_none_iff]
  intro p hp
  obtain ⟨r, hr, hresolves⟩ := hresolved.exists_rule hp
  rw [hresolves.precedence]
  exact Rule.precedence_eq_none_of_parse hnone hrules r (List.mem_of_getElem? hr)

end Grammar

end SlrCompiler
