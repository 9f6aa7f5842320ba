import SlrCompiler.Proofs.Grammar.Resolution
import SlrCompiler.Proofs.Specification.DeclaredSymbols
import SlrCompiler.Proofs.Specification.StartSymbol

/-! # How symbols and productions are numbered

    The numbers of a parsed grammar follow the order in which names first appear:
    declared tokens, then `error` and `$end`, then the literals that no line
    declares, then `$accept` and the left sides. Productions are numbered as their
    rules are written. `NumberedFrom` says all of this of a grammar, the
    declarations and the rules it comes from, and every parsed grammar has it
    (`numberedFrom_of_parse`).

    The order of first appearance is kept when names are replaced by numbers one to
    one (`eraseDups_map`), so the symbols recorded as empty are in the order of their
    names.
-/

namespace SlrCompiler

open Text

namespace Grammar

variable {g : Grammar}

/-! ## Section 1: What is to be shown -/

variable (g) in
/-- The grammar has the symbols of the declarations and of the rules that were read,
    and the productions of the rules, numbered in the order of the text. -/
structure NumberedFrom (d : Declarations) (start : String) (read : List Rule) : Prop where
  /-- No two symbols have the same name. -/
  names_nodup : (g.symbols.map g.symbolName).Nodup
  /-- A symbol is found by its name, and no other name is found. -/
  symbolIndex? : ∀ (name : String) (i : Nat), g.symbolIndex? name = some i ↔
    i < g.symbolCount ∧ g.symbolName i = name
  /-- Terminals come first: tokens, then `error` and `$end`, then literals. -/
  terminals : (List.range g.terminalCount).map g.symbolName =
    d.tokens ++ [errorName, endName].filter (· ∉ d.tokens)
      ++ (Rule.literals read).filter (· ∉ d.tokens)
  /-- Nonterminals come after them: `$accept`, then left sides. -/
  nonterminals : (List.range' g.terminalCount g.nonterminalCount).map g.symbolName =
    acceptName :: (read.map Rule.left).eraseDups
  acceptSymbol : g.symbolName g.acceptSymbol = acceptName
  endMark : g.symbolName g.endMark = endName
  /-- A production has the number of its rule, and the symbols that the rule names. -/
  productions : (g.productions.toList.map fun p =>
      (g.symbolName p.left, p.right.map g.symbolName)) =
    (acceptName, [start]) :: read.map fun r => (r.left, r.right.map RuleSymbol.text)
  /-- Left sides are nonterminals, and right sides consist of existing symbols. -/
  symbols : ∀ (i : Nat) (p : Production), g.productions[i]? = some p →
    g.terminalCount ≤ p.left ∧ p.left < g.symbolCount ∧ ∀ x ∈ p.right, x < g.symbolCount
  /-- The productions of a nonterminal, in ascending order. There are some. -/
  productionsOf : ∀ x, g.terminalCount ≤ x → x < g.symbolCount →
    (g.productionsOf x).Pairwise (· < ·) ∧ g.productionsOf x ≠ [] ∧
      ∀ i, i ∈ g.productionsOf x ↔ ∃ p, g.productions[i]? = some p ∧ p.left = x
  /-- Production 0 leads to the left side of production 1, which is the start symbol. -/
  augmenting : ∃ p q : Production, g.productions[0]? = some p ∧ g.productions[1]? = some q ∧
    p.left = g.acceptSymbol ∧ p.right = [q.left] ∧ q.left = g.startSymbol
  /-- No other production expands `$accept`. -/
  eq_zero_of_left : ∀ (i : Nat) (p : Production), g.productions[i]? = some p →
    p.left = g.acceptSymbol → i = 0
  /-- Neither `$accept` nor `$end` stands in a right side. -/
  reserved : ∀ (i : Nat) (p : Production), g.productions[i]? = some p →
    g.acceptSymbol ∉ p.right ∧ g.endMark ∉ p.right
  /-- The symbols recorded as empty are the left sides of empty productions. -/
  epsilon : g.epsilon =
    ((g.productions.toList.filter fun p => p.right.isEmpty).map Production.left).eraseDups

/-! ## Section 2: Names -/

theorem map_symbolName_terminals :
    (List.range g.terminalCount).map g.symbolName = g.terminals.toList.map Terminal.name := by
  refine List.ext_getElem (by simp [terminalCount]) fun i hi hi' => ?_
  have hlt : i < g.terminals.size := by simpa using hi'
  simp [symbolName, hlt]

theorem map_symbolName_nonterminals :
    (List.range' g.terminalCount g.nonterminalCount).map g.symbolName
      = g.nonterminals.toList.map Nonterminal.name := by
  refine List.ext_getElem (by simp [nonterminalCount]) fun i hi hi' => ?_
  have hlt : i < g.nonterminals.size := by simpa using hi'
  have hnone : g.terminals[g.terminalCount + i]? = none :=
    Array.getElem?_eq_none (by simp [terminalCount])
  simp [symbolName, hnone, hlt]

theorem map_symbolName_symbols : g.symbols.map g.symbolName =
    g.terminals.toList.map Terminal.name ++ g.nonterminals.toList.map Nonterminal.name := by
  have hsplit : g.symbols
      = List.range g.terminalCount ++ List.range' g.terminalCount g.nonterminalCount := by
    rw [symbols, symbolCount, List.range_eq_range', List.range_eq_range',
      ← List.range'_append_1, Nat.zero_add]
  rw [hsplit, List.map_append, map_symbolName_terminals, map_symbolName_nonterminals]

/-- If names are told apart, the number of a name is that of the symbol that has it. -/
theorem symbolIndex?_eq_some_iff (hnodup : (g.symbols.map g.symbolName).Nodup) {name : String}
    {i : Nat} : g.symbolIndex? name = some i ↔ i < g.symbolCount ∧ g.symbolName i = name := by
  constructor
  · exact symbolName_of_symbolIndex?
  · rintro ⟨hi, rfl⟩
    have hmem : g.symbolName i ∈ g.symbols.map g.symbolName :=
      List.mem_map_of_mem (List.mem_range.2 hi)
    rw [map_symbolName_symbols, List.mem_append] at hmem
    obtain ⟨j, hj⟩ := exists_symbolIndex?_of_mem hmem
    obtain ⟨hjlt, hname⟩ := symbolName_of_symbolIndex? hj
    have hsame : j = i := List.inj_on_of_nodup_map hnodup (List.mem_range.2 hjlt)
      (List.mem_range.2 hi) hname
    rw [hj, hsame]

/-! ## Section 3: Symbols in order -/

theorem nonterminals_of_resolve {s : Sections} {d : Declarations} {rules : List Rule}
    (h : resolve s d rules = .ok g) :
    g.nonterminals.toList.map Nonterminal.name = Rule.leftSides rules := by
  obtain ⟨-, productions, startSymbol, acceptSymbol, endMark, errorSymbol, -, -, -, -, rfl⟩ :=
    exists_of_resolve h
  simp [withSymbols, declaredNonterminal, Function.comp_def]

section Names

variable {d : Declarations} {start : String} {read : List Rule}
  (hrules : ProperRules start (.augmenting start :: read))
include hrules

/-- The terminals in order, each name once. -/
theorem terminalNames_eq_append (hd : d.tokens.Nodup) :
    terminalNames d (.augmenting start :: read) =
      d.tokens ++ [errorName, endName].filter (· ∉ d.tokens)
        ++ (Rule.literals read).filter (· ∉ d.tokens) := by
  have hreserved : [errorName, endName].Nodup := by decide
  -- A literal opens with a quote, and neither `error` nor `$end` does.
  have hliteral : ∀ text ∈ Rule.literals read, text ∉ [errorName, endName] := by
    intro text htext hmem
    have hhead : text.toList.head? = some '\'' := hrules.literal_head htext
    have hother : ∀ name ∈ [errorName, endName], name.toList.head? ≠ some '\'' := by decide
    exact hother text hmem hhead
  have hfilter : (Rule.literals read).filter (· ∉ d.tokens ++ [errorName, endName])
      = (Rule.literals read).filter (· ∉ d.tokens) := by
    refine List.filter_congr fun text htext => ?_
    simp only [List.mem_append, not_or, hliteral text htext, not_false_eq_true, and_true]
  calc terminalNames d (.augmenting start :: read)
      = (d.tokens ++ [errorName, endName]).eraseDups
          ++ (Rule.literals read).filter (· ∉ d.tokens ++ [errorName, endName]) :=
        eraseDups_append_of_nodup _ (nodup_eraseDups _)
    _ = _ := by rw [hfilter, eraseDups_append_of_nodup _ hreserved, eraseDups_eq_self hd]

/-- No name is both a terminal's and a left side. -/
theorem nodup_names (hd : tokenOnLeft d (.augmenting start :: read) = none) :
    (terminalNames d (.augmenting start :: read)
      ++ Rule.leftSides (.augmenting start :: read)).Nodup := by
  refine List.nodup_append.2 ⟨nodup_eraseDups _, nodup_eraseDups _, fun x hx y hy heq => ?_⟩
  obtain ⟨r, hr, rfl⟩ := Rule.mem_leftSides.1 hy
  exact hrules.left_notMem hd hr (heq ▸ hx)

end Names

/-- The numbers from that of the first nonterminal on are those of left sides. -/
theorem symbolName_mem_leftSides {rules : List Rule}
    (hnames : g.nonterminals.toList.map Nonterminal.name = Rule.leftSides rules) {x : Nat}
    (hle : g.terminalCount ≤ x) (hlt : x < g.symbolCount) :
    g.symbolName x ∈ Rule.leftSides rules := by
  rw [← hnames, ← map_symbolName_nonterminals]
  exact List.mem_map_of_mem (List.mem_range'_1.2 ⟨hle, hlt⟩)

theorem mem_productionsOf_of_le {x i : Nat} (hle : g.terminalCount ≤ x) :
    i ∈ g.productionsOf x ↔ ∃ p, g.productions[i]? = some p ∧ p.left = x := by
  have hnot : g.isTerminal x = false := decide_eq_false (Nat.not_lt_of_le hle)
  rw [mem_productionsOf, and_iff_right hnot]

theorem pairwise_lt_productionsOf (x : Nat) : (g.productionsOf x).Pairwise (· < ·) := by
  unfold productionsOf
  split
  · exact .nil
  · exact List.pairwise_lt_range.filter _

namespace Resolved

variable {s : Sections} {d : Declarations} {rules : List Rule} (h : g.Resolved s d rules)
include h

/-- The left sides of empty productions have the names that the rules have. -/
theorem map_left_empty : (rules.filter fun r => r.right.isEmpty).map Rule.left
    = ((g.productions.toList.filter fun p => p.right.isEmpty).map Production.left).map
        g.symbolName := by
  have hproductions := h.productions
  clear h
  generalize g.productions.toList = productions at hproductions
  induction hproductions with
  | nil => rfl
  | @cons r p rs ps hresolves _ ih =>
    have hempty : r.right.isEmpty = p.right.isEmpty := by
      rw [← List.isEmpty_map (f := RuleSymbol.text), ← hresolves.names.2, List.isEmpty_map]
    cases hp : p.right.isEmpty with
    | false => simpa [hempty, hp] using ih
    | true => simpa [hempty, hp, hresolves.names.1] using ih

/-- They are recorded in the order in which they first appear. -/
theorem epsilon_eq : g.epsilon =
    ((g.productions.toList.filter fun p => p.right.isEmpty).map Production.left).eraseDups := by
  -- Left sides are symbols, so their names tell them apart and find them again.
  have hleft : ∀ x ∈ (g.productions.toList.filter fun p => p.right.isEmpty).map Production.left,
      g.symbolIndex? (g.symbolName x) = some x := by
    intro x hx
    obtain ⟨p, hp, rfl⟩ := List.mem_map.1 hx
    obtain ⟨i, hi⟩ := List.getElem?_of_mem (List.mem_filter.1 hp).1
    rw [Array.getElem?_toList] at hi
    obtain ⟨r, -, hresolves⟩ := h.exists_rule hi
    exact hresolves.symbolIndex?.1
  generalize hempty :
    (g.productions.toList.filter fun p => p.right.isEmpty).map Production.left = lefts at hleft
  have hinj : ∀ x ∈ lefts, ∀ y ∈ lefts, g.symbolName x = g.symbolName y → x = y := by
    intro x hx y hy heq
    have hfound := hleft x hx
    rw [heq, hleft y hy] at hfound
    exact (Option.some.inj hfound).symm
  have hfound : ∀ names : List Nat, (∀ x ∈ names, x ∈ lefts) →
      (names.map g.symbolName).filterMap g.symbolIndex? = names := by
    intro names hnames
    induction names with
    | nil => rfl
    | cons x rest ih =>
      rw [List.map_cons, List.filterMap_cons_some (hleft x (hnames x List.mem_cons_self)),
        ih fun y hy => hnames y (List.mem_cons_of_mem x hy)]
  rw [h.epsilon, Rule.emptyLeftSides, h.map_left_empty, hempty,
    eraseDups_map g.symbolName lefts hinj]
  exact hfound _ fun x hx => List.mem_eraseDups.1 hx

/-- Every left side has a production. -/
theorem exists_production_of_left (hnodup : (g.symbols.map g.symbolName).Nodup) {x : Nat}
    (hx : x < g.symbolCount) (hleft : g.symbolName x ∈ Rule.leftSides rules) :
    ∃ (i : Nat) (p : Production), g.productions[i]? = some p ∧ p.left = x := by
  obtain ⟨r, hr, hname⟩ := Rule.mem_leftSides.1 hleft
  obtain ⟨i, hi⟩ := List.getElem?_of_mem hr
  obtain ⟨p, hp, hresolves⟩ := h.exists_production hi
  have hindex : g.symbolIndex? r.left = some x :=
    (symbolIndex?_eq_some_iff hnodup).2 ⟨hx, hname.symm⟩
  exact ⟨i, p, hp, Option.some.inj (hresolves.left.symm.trans hindex)⟩

/-- Productions have the names of their rules. -/
theorem map_productions : (g.productions.toList.map fun p =>
      (g.symbolName p.left, p.right.map g.symbolName))
    = rules.map fun r => (r.left, r.right.map RuleSymbol.text) := by
  have hproductions := h.productions
  clear h
  generalize g.productions.toList = productions at hproductions
  induction hproductions with
  | nil => rfl
  | cons hresolves _ ih =>
    rw [List.map_cons, List.map_cons, hresolves.names.1, hresolves.names.2, ih]

end Resolved

/-! ## Section 4: Parsed grammars -/

/-- **Numbers**: a parsed grammar has the symbols and productions of its
    specification, in the order of the text. -/
theorem numberedFrom_of_parse {spec : String} (h : parse spec = .ok g) :
    ∃ s d read, Sections.split spec.toList = .ok s ∧ Declarations.parse s.declarations = .ok d ∧
      Rule.parse s.startSymbol d.precedence.lookup s.rules
        = .ok (.augmenting s.startSymbol :: read) ∧
      g.NumberedFrom d s.startSymbol read := by
  obtain ⟨s, d, rules, hs, hd, hparse, hresolve⟩ := exists_resolve_of_parse h
  obtain ⟨first, hfirst, hstart⟩ :=
    Rule.exists_first_of_parse (Sections.startSymbol?_of_split hs) hparse
  have hresolved := resolved_of_resolve hresolve
  have hg := wellFormed_of_parse h
  obtain ⟨read, rfl, hread⟩ := Rule.proper_of_parse hparse
  have hproper : ProperRules s.startSymbol (.augmenting s.startSymbol :: read) :=
    ⟨Sections.isIdentifier_startSymbol hs, read, rfl, hread⟩
  have hnonterminals := nonterminals_of_resolve hresolve
  have hnodup : (g.symbols.map g.symbolName).Nodup := by
    rw [map_symbolName_symbols, hresolved.terminalNames_eq, hnonterminals]
    exact nodup_names hproper hresolved.tokenOnLeft
  refine ⟨s, d, read, hs, hd, hparse, ?_⟩
  constructor
  case names_nodup => exact hnodup
  case symbolIndex? => exact fun name i => symbolIndex?_eq_some_iff hnodup
  case terminals =>
    rw [map_symbolName_terminals, hresolved.terminalNames_eq]
    exact terminalNames_eq_append hproper (Declarations.nodup_tokens_of_parse hd)
  case nonterminals =>
    rw [map_symbolName_nonterminals, hnonterminals]
    exact Rule.leftSides_augmenting hread
  case acceptSymbol => exact (symbolName_of_symbolIndex? hresolved.acceptSymbol).2
  case endMark => exact (symbolName_of_symbolIndex? hresolved.endMark).2
  case productions => exact hresolved.map_productions
  case symbols =>
    intro i p hp
    obtain ⟨hlt, hright⟩ := hg.symbolsExist i p hp
    have hnot := hg.left_nonterminal hp
    exact ⟨Nat.le_of_not_lt (of_decide_eq_false hnot), hlt, hright⟩
  case productionsOf =>
    intro x hle hlt
    -- A nonterminal is there because of some rule, so it has a production.
    have hleft := symbolName_mem_leftSides hnonterminals hle hlt
    obtain ⟨i, p, hp, hpleft⟩ := hresolved.exists_production_of_left hnodup hlt hleft
    have hne : g.productionsOf x ≠ [] :=
      List.ne_nil_of_mem ((mem_productionsOf_of_le hle).2 ⟨p, hp, hpleft⟩)
    exact ⟨pairwise_lt_productionsOf x, hne, fun i => mem_productionsOf_of_le hle⟩
  case augmenting =>
    obtain ⟨p, hp, hleft, hright⟩ := hg.augmenting
    obtain ⟨q, hq, hresolves⟩ := hresolved.exists_production hfirst
    have hindex := hresolves.left
    rw [hstart, hresolved.startSymbol] at hindex
    have hsame : q.left = g.startSymbol := (Option.some.inj hindex).symm
    exact ⟨p, q, hp, hq, hleft, by rw [hright, hsame], hsame⟩
  case eq_zero_of_left => exact fun i p => hg.eq_zero_of_left
  case reserved => exact fun i p hp => ⟨hg.acceptSymbol_notMem hp, hg.endMark_notMem hp⟩
  case epsilon => exact hresolved.epsilon_eq

/-- Tokens that are declared by quoted literals and by `$end` itself, a literal that is
    declared only after it, and a left side that appears first in another rule. -/
theorem numberedFrom_of_parse_list :
    ∃ g s d read,
      parse "%token 'b' $end NUM\n%left 'a'\n%% list : item list 'c' 'a' | ; item : NUM 'b' | ; %%"
        = .ok g ∧
      d.tokens = ["'b'", "$end", "NUM", "'a'"] ∧ g.NumberedFrom d s read ∧
      (List.range g.symbolCount).map g.symbolName
        = ["'b'", "$end", "NUM", "'a'", "error", "'c'", "$accept", "list", "item"] ∧
      g.epsilon = [7, 8] := by
  have hfacts : (parse
      "%token 'b' $end NUM\n%left 'a'\n%% list : item list 'c' 'a' | ; item : NUM 'b' | ; %%").map
      (fun g => decide ((List.range g.symbolCount).map g.symbolName
        = ["'b'", "$end", "NUM", "'a'", "error", "'c'", "$accept", "list", "item"] ∧
          g.epsilon = [7, 8])) = .ok true := by
    decide +kernel
  obtain ⟨g, hparse, hnames, hepsilon⟩ := exists_of_map_decide hfacts
  obtain ⟨s, d, read, hs, hd, -, hnumbered⟩ := numberedFrom_of_parse hparse
  have htokens : ((Sections.split
      "%token 'b' $end NUM\n%left 'a'\n%% list : item list 'c' 'a' | ; item : NUM 'b' | ; %%".toList).bind
      fun s => Declarations.parse s.declarations).map
      (fun d => decide (d.tokens = ["'b'", "$end", "NUM", "'a'"])) = .ok true := by
    decide +kernel
  rw [hs] at htokens
  obtain ⟨d', hd', htokens⟩ := exists_of_map_decide htokens
  obtain rfl := Except.ok.inj (hd.symm.trans hd')
  exact ⟨g, s.startSymbol, d, read, hparse, htokens, hnumbered, hnames, hepsilon⟩

end Grammar

end SlrCompiler
