import SlrCompiler.Proofs.Compilation.Outcome
import SlrCompiler.Proofs.Operators.Language
import SlrCompiler.Proofs.Specification.StartSymbol

/-! # Operators in a specification

    What the precedence lines of a specification declare is what comes of them. The
    rules of the specification are `e : e op e` for each of its operators and `e : n`
    for its operand, in any order, and each operator is on one line
    (`OperatorSpecification`). Such a specification reads as an operator grammar
    (`operatorRules`), where the precedence of an operator is its line's.

    Hence there are no conflicts, chains of the operand are accepted and nothing else,
    and in the tree of a run an operator is below another one only if its line comes
    later, or if both are on one line and that line's associativity puts it there.
-/

namespace SlrCompiler

/-! ## Section 1: Specifications -/

/-- The rules that are read are those of an operator grammar. Each operator is on
    exactly one precedence line, `%left` or `%right`, and the operand is on none. -/
structure OperatorSpecification (spec : String) (g : Grammar) (e n : String)
    (operators : List String) : Prop where
  parse : Grammar.parse spec = .ok g
  /-- Production 0 is the augmenting one; the others have the names of a rule. -/
  production : ∀ (i : Nat) (p : Production), g.productions[i]? = some p → i ≠ 0 →
    g.symbolName p.left = e ∧ (p.right.map g.symbolName = [n] ∨
      ∃ op ∈ operators, p.right.map g.symbolName = [e, op, e])
  exists_operand : ∃ (i : Nat) (p : Production), g.productions[i]? = some p ∧ i ≠ 0 ∧
    p.right.map g.symbolName = [n]
  exists_operation : ∀ op ∈ operators, ∃ (i : Nat) (p : Production),
    g.productions[i]? = some p ∧ p.right.map g.symbolName = [e, op, e]
  operand_terminal : n ∈ g.terminals.toList.map Terminal.name
  operand_undeclared : ∀ k a, ¬ DeclaredAt spec k a n
  declared : ∀ op ∈ operators, ∃ k a, a ≠ .nonassoc ∧ DeclaredAt spec k a op ∧
    ∀ j b, DeclaredAt spec j b op → j = k
  precArguments : precArguments spec = []

/-- What the rules have to be can be read off the names of their productions' sides. -/
theorem OperatorSpecification.of_names {spec : String} {g : Grammar} {e n : String}
    {operators : List String} {first : String × List String} {rules : List (String × List String)}
    (hparse : Grammar.parse spec = .ok g)
    (hnames : g.productions.toList.map (fun p => (g.symbolName p.left, p.right.map g.symbolName))
      = first :: rules)
    (hrules : ∀ r ∈ rules, r.1 = e ∧ (r.2 = [n] ∨ ∃ op ∈ operators, r.2 = [e, op, e]))
    (hoperand : ∃ r ∈ rules, r.2 = [n])
    (hoperations : ∀ op ∈ operators, ∃ r ∈ rules, r.2 = [e, op, e])
    (hterminal : n ∈ g.terminals.toList.map Terminal.name)
    (hundeclared : ∀ k a, ¬ DeclaredAt spec k a n)
    (hdeclared : ∀ op ∈ operators, ∃ k a, a ≠ .nonassoc ∧ DeclaredAt spec k a op ∧
      ∀ j b, DeclaredAt spec j b op → j = k)
    (hprec : SlrCompiler.precArguments spec = []) :
    OperatorSpecification spec g e n operators := by
  -- The first production is the augmenting one, so the rules are one place further on.
  have hplace : ∀ k : Nat, g.productions[k + 1]?.map (fun p => (g.symbolName p.left,
      p.right.map g.symbolName)) = rules[k]? := by
    intro k
    rw [← Array.getElem?_toList, ← List.getElem?_map, hnames, List.getElem?_cons_succ]
  have hexists : ∀ r ∈ rules, ∃ (i : Nat) (p : Production), g.productions[i]? = some p ∧ i ≠ 0 ∧
      p.right.map g.symbolName = r.2 := by
    intro r hr
    obtain ⟨k, hk⟩ := List.getElem?_of_mem hr
    rw [← hplace k] at hk
    obtain ⟨p, hp, heq⟩ := Option.map_eq_some_iff.1 hk
    exact ⟨k + 1, p, hp, k.succ_ne_zero, congrArg Prod.snd heq⟩
  constructor
  case parse => exact hparse
  case production =>
    intro i p hp hi
    obtain ⟨k, rfl⟩ := Nat.exists_eq_succ_of_ne_zero hi
    have hk := hplace k
    rw [hp] at hk
    exact hrules _ (List.mem_of_getElem? hk.symm)
  case exists_operand =>
    obtain ⟨r, hr, hright⟩ := hoperand
    obtain ⟨i, p, hp, hi, heq⟩ := hexists r hr
    exact ⟨i, p, hp, hi, heq.trans hright⟩
  case exists_operation =>
    intro op hop
    obtain ⟨r, hr, hright⟩ := hoperations op hop
    obtain ⟨i, p, hp, -, heq⟩ := hexists r hr
    exact ⟨i, p, hp, heq.trans hright⟩
  case operand_terminal => exact hterminal
  case operand_undeclared => exact hundeclared
  case declared => exact hdeclared
  case precArguments => exact hprec

/-- The second operator is on a later precedence line than the first one, or both are on
    the same line and it has the given associativity. -/
def BindsAbove (spec : String) (a : Associativity) (p q : String) : Prop :=
  ∃ i j b c, DeclaredAt spec i b p ∧ DeclaredAt spec j c q ∧ (i < j ∨ i = j ∧ b = a)

namespace OperatorSpecification

variable {spec : String} {g : Grammar} {e n : String} {operators : List String}
  (h : OperatorSpecification spec g e n operators)
include h

/-! ## Section 2: From names to symbols -/

theorem wellFormed : g.WellFormed := Grammar.wellFormed_of_parse h.parse

/-- The start symbol is the left side of the rules. -/
theorem symbolIndex?_left : g.symbolIndex? e = some g.startSymbol := by
  obtain ⟨s, d, rules, hs, -, hrules, hresolved⟩ := Grammar.exists_resolved_of_parse h.parse
  obtain ⟨r, hr, hleft⟩ :=
    Rule.exists_left_of_parse (Sections.startSymbol?_of_split hs) hrules
  obtain ⟨i, hi⟩ := List.getElem?_of_mem hr
  obtain ⟨p, hp, hresolves⟩ := hresolved.exists_production hi
  have hstart := hresolves.left
  rw [hleft, hresolved.startSymbol] at hstart
  have hne : i ≠ 0 := h.wellFormed.ne_zero_of_left hp
    (Option.some.inj hstart ▸ h.wellFormed.startSymbol_ne_acceptSymbol)
  rw [← (h.production i p hp hne).1, Option.some.inj hstart]
  exact hresolves.symbolIndex?.1

theorem left_eq {i : Nat} {p : Production} (hp : g.productions[i]? = some p) (hi : i ≠ 0) :
    p.left = g.startSymbol := by
  obtain ⟨s, d, rules, -, -, -, hresolved⟩ := Grammar.exists_resolved_of_parse h.parse
  obtain ⟨r, -, hresolves⟩ := hresolved.exists_rule hp
  have hindex := hresolves.symbolIndex?.1
  rw [(h.production i p hp hi).1, h.symbolIndex?_left] at hindex
  exact (Option.some.inj hindex).symm

theorem symbolIndex?_right {i x : Nat} {p : Production} (hp : g.productions[i]? = some p)
    (hx : x ∈ p.right) : g.symbolIndex? (g.symbolName x) = some x := by
  obtain ⟨s, d, rules, -, -, -, hresolved⟩ := Grammar.exists_resolved_of_parse h.parse
  obtain ⟨r, -, hresolves⟩ := hresolved.exists_rule hp
  exact hresolves.symbolIndex?.2 x hx

/-- The names of an operation are those of its symbols. -/
theorem exists_of_operation {i : Nat} {p : Production} {op : String}
    (hp : g.productions[i]? = some p) (hright : p.right.map g.symbolName = [e, op, e]) :
    ∃ x, p.right = [g.startSymbol, x, g.startSymbol] ∧ g.symbolIndex? op = some x := by
  have hindex : ∀ x ∈ p.right, g.symbolIndex? (g.symbolName x) = some x :=
    fun x hx => h.symbolIndex?_right hp hx
  obtain ⟨a, x, b, hsymbols⟩ : ∃ a x b, p.right = [a, x, b] := by
    rw [← List.length_eq_three, ← List.length_map g.symbolName, hright]
    rfl
  simp only [hsymbols, List.map_cons, List.map_nil, List.cons.injEq, and_true] at hright
  simp only [hsymbols, List.mem_cons, List.not_mem_nil, or_false, forall_eq_or_imp,
    forall_eq] at hindex
  obtain ⟨ha, hx, hb⟩ := hright
  obtain ⟨hindexa, hindexx, hindexb⟩ := hindex
  rw [ha, h.symbolIndex?_left] at hindexa
  rw [hb, h.symbolIndex?_left] at hindexb
  exact ⟨x, by rw [hsymbols, ← Option.some.inj hindexa, ← Option.some.inj hindexb], hx ▸ hindexx⟩

theorem of_operand {i operand : Nat} {p : Production} (hp : g.productions[i]? = some p)
    (hoperand : g.symbolIndex? n = some operand) (hright : p.right.map g.symbolName = [n]) :
    p.right = [operand] := by
  obtain ⟨x, hx, hname⟩ := List.map_eq_singleton_iff.1 hright
  have hindex := h.symbolIndex?_right hp (x := x) (by simp [hx])
  rw [hname, hoperand] at hindex
  rw [hx, Option.some.inj hindex]

/-- The operators of the grammar are the symbols with their names. -/
theorem isOperator_iff {x : Nat} :
    g.IsOperator x ↔ ∃ op ∈ operators, g.symbolIndex? op = some x := by
  constructor
  · rintro ⟨i, p, hp, hright⟩
    have hi : i ≠ 0 := h.wellFormed.ne_zero_of_length hp (by simp [hright])
    have hindex := h.symbolIndex?_right hp (x := x) (by simp [hright])
    rcases (h.production i p hp hi).2 with hoperand | ⟨op, hop, hoperation⟩
    · simp [hright] at hoperand
    · simp only [hright, List.map_cons, List.map_nil, List.cons.injEq, and_true] at hoperation
      exact ⟨op, hop, hoperation.2.1 ▸ hindex⟩
  · rintro ⟨op, hop, hx⟩
    obtain ⟨i, p, hp, hright⟩ := h.exists_operation op hop
    obtain ⟨y, hsymbols, hy⟩ := h.exists_of_operation hp hright
    exact ⟨i, p, hp, by rw [hsymbols, Option.some.inj (hx.symm.trans hy)]⟩

/-- An operator is a terminal, and it has a precedence that is not nonassociative. -/
theorem operator_of_index {op : String} {x : Nat} (hop : op ∈ operators)
    (hx : g.symbolIndex? op = some x) : g.isTerminal x = true ∧
      ∃ precedence, g.precedenceOf x = some precedence ∧
        precedence.associativity ≠ .nonassoc := by
  obtain ⟨k, a, ha, hk, hunique⟩ := h.declared op hop
  obtain ⟨y, precedence, hy, hterminal, hprecedence⟩ :=
    Grammar.exists_terminal_of_declaredAt h.parse hk
  obtain rfl := Option.some.inj (hy.symm.trans hx)
  refine ⟨hterminal, precedence, hprecedence, ?_⟩
  obtain ⟨j, hj, -⟩ := Grammar.exists_declaredAt_of_precedenceOf h.parse hprecedence
  rw [(Grammar.symbolName_of_symbolIndex? hx).2] at hj
  -- It is declared on one line only.
  obtain rfl := hunique j _ hj
  rwa [hj.associativity_eq hk]

theorem exists_operandIndex : ∃ operand, g.symbolIndex? n = some operand ∧
    g.isTerminal operand = true := by
  obtain ⟨i, t, hi, ht, -⟩ := Grammar.exists_terminal_of_mem h.operand_terminal
  exact ⟨i, hi, Grammar.isTerminal_iff.2 (Array.getElem?_eq_some_iff.1 ht).1⟩

/-- **Reading**: such a specification reads as an operator grammar. -/
theorem operatorRules {operand : Nat} (hoperand : g.symbolIndex? n = some operand)
    (hterminal : g.isTerminal operand = true) : g.OperatorRules operand := by
  -- The names of a right side are those of symbols, so the rules are read off the names.
  have hproduction : ∀ {i : Nat} {p : Production}, g.productions[i]? = some p → i ≠ 0 →
      p.left = g.startSymbol ∧
        (p.right = [operand] ∨ ∃ x, p.right = [g.startSymbol, x, g.startSymbol]) := by
    intro i p hp hi
    refine ⟨h.left_eq hp hi, ?_⟩
    rcases (h.production i p hp hi).2 with hright | ⟨op, -, hright⟩
    · exact .inl (h.of_operand hp hoperand hright)
    · obtain ⟨x, hsymbols, -⟩ := h.exists_of_operation hp hright
      exact .inr ⟨x, hsymbols⟩
  constructor
  case wellFormed => exact h.wellFormed
  case operand_terminal => exact hterminal
  case operator_terminal =>
    intro x hx
    obtain ⟨op, hop, hindex⟩ := h.isOperator_iff.1 hx
    exact (h.operator_of_index hop hindex).1
  case operator_ne =>
    rintro x hx rfl
    obtain ⟨op, hop, hindex⟩ := h.isOperator_iff.1 hx
    obtain ⟨k, a, -, hk, -⟩ := h.declared op hop
    rw [Grammar.symbolIndex?_inj hindex hoperand] at hk
    exact h.operand_undeclared k a hk
  case production => exact hproduction
  case exists_operand =>
    obtain ⟨i, p, hp, hi, hright⟩ := h.exists_operand
    exact ⟨i, p, hi, hp, h.of_operand hp hoperand hright⟩
  case precedence =>
    intro i x p hp hright
    have hi : i ≠ 0 := h.wellFormed.ne_zero_of_length hp (by simp [hright])
    -- Of the symbols of an operation only the operator has a precedence.
    have hstart : g.precedenceOf g.startSymbol = none := by
      rw [← (hproduction hp hi).1]
      exact Grammar.precedenceOf_eq_none_of_nonterminal (h.wellFormed.left_nonterminal hp)
    obtain ⟨op, hop, hindex⟩ := h.isOperator_iff.1 ⟨i, p, hp, hright⟩
    refine ⟨?_, (h.operator_of_index hop hindex).2⟩
    rw [Grammar.precedence_eq_inherited_of_parse h.parse h.precArguments hp hi, hright]
    simp [Grammar.inheritedPrecedence, hstart]

/-! ## Section 3: Levels -/

/-- What precedence favours is what the lines of the two operators say. -/
theorem exists_declaredAt_of_favours {preference : Preference} {x y : Nat}
    (hfavours : g.Favours preference x y) :
    ∃ i j a b, DeclaredAt spec i a (g.symbolName x) ∧ DeclaredAt spec j b (g.symbolName y) ∧
      Precedence.favoured ⟨a, i + 1⟩ ⟨b, j + 1⟩ = some preference := by
  unfold Grammar.Favours at hfavours
  cases hx : g.precedenceOf x with
  | none => simp [hx, Precedence.favoured?] at hfavours
  | some p =>
    cases hy : g.precedenceOf y with
    | none => simp [hx, hy, Precedence.favoured?] at hfavours
    | some q =>
      rw [hx, hy] at hfavours
      obtain ⟨i, hi, hp⟩ := Grammar.exists_declaredAt_of_precedenceOf h.parse hx
      obtain ⟨j, hj, hq⟩ := Grammar.exists_declaredAt_of_precedenceOf h.parse hy
      exact ⟨i, j, _, _, hi, hj, by rw [← hp, ← hq]; exact hfavours⟩

/-- An operator of a left operand is on a later line, or on the same one if that groups
    to the left. -/
theorem bindsAbove_of_favours_reduce {x y : Nat} (hfavours : g.Favours .reduce x y) :
    BindsAbove spec .left (g.symbolName x) (g.symbolName y) := by
  obtain ⟨i, j, a, b, hi, hj, hfavoured⟩ := h.exists_declaredAt_of_favours hfavours
  refine ⟨i, j, a, b, hi, hj, ?_⟩
  rcases Precedence.favoured_eq_reduce_iff.1 hfavoured with hlt | ⟨heq, ha⟩
  · exact .inl (Nat.lt_of_succ_lt_succ hlt)
  · exact .inr ⟨(Nat.succ.inj heq).symm, ha⟩

/-- An operator of a right operand is on a later line, or on the same one if that groups
    to the right. -/
theorem bindsAbove_of_favours_shift {x y : Nat} (hfavours : g.Favours .shift y x) :
    BindsAbove spec .right (g.symbolName x) (g.symbolName y) := by
  obtain ⟨j, i, b, a, hj, hi, hfavoured⟩ := h.exists_declaredAt_of_favours hfavours
  refine ⟨i, j, a, b, hi, hj, ?_⟩
  rcases Precedence.favoured_eq_shift_iff.1 hfavoured with hlt | ⟨heq, hb⟩
  · exact .inl (Nat.lt_of_succ_lt_succ hlt)
  · obtain rfl : i = j := Nat.succ.inj heq
    exact .inr ⟨rfl, (hi.associativity_eq hj).trans hb⟩

/-- Chains by number are chains by name. -/
theorem exists_chain_iff {operand : Nat} (hoperand : g.symbolIndex? n = some operand)
    {names : List String} :
    (∃ chosen, (∀ x ∈ chosen, g.IsOperator x) ∧
        names = (chain operand chosen).map g.symbolName) ↔
      ∃ chosen, (∀ op ∈ chosen, op ∈ operators) ∧ names = chain n chosen := by
  have hname := (Grammar.symbolName_of_symbolIndex? hoperand).2
  constructor
  · rintro ⟨chosen, hchosen, rfl⟩
    refine ⟨chosen.map g.symbolName, fun op hop => ?_, by rw [map_chain, hname]⟩
    obtain ⟨x, hx, rfl⟩ := List.mem_map.1 hop
    obtain ⟨op, hop, hindex⟩ := h.isOperator_iff.1 (hchosen x hx)
    rwa [(Grammar.symbolName_of_symbolIndex? hindex).2]
  · rintro ⟨chosen, hchosen, rfl⟩
    -- Every operator is the name of a symbol, so a chain of names is read back from symbols.
    have hsymbol : ∀ op ∈ operators, ∃ x, g.IsOperator x ∧ g.symbolName x = op := by
      intro op hop
      obtain ⟨i, p, hp, hright⟩ := h.exists_operation op hop
      obtain ⟨x, hsymbols, hindex⟩ := h.exists_of_operation hp hright
      exact ⟨x, ⟨i, p, hp, hsymbols⟩, (Grammar.symbolName_of_symbolIndex? hindex).2⟩
    choose! symbol hsymbol using hsymbol
    refine ⟨chosen.map symbol, fun x hx => ?_, ?_⟩
    · obtain ⟨op, hop, rfl⟩ := List.mem_map.1 hx
      exact (hsymbol op (hchosen op hop)).1
    · have hnames : (chosen.map symbol).map g.symbolName = chosen := by
        rw [List.map_map]
        calc chosen.map (g.symbolName ∘ symbol)
            = chosen.map id :=
              List.map_congr_left fun op hop => (hsymbol op (hchosen op hop)).2
          _ = chosen := List.map_id chosen
      rw [map_chain, hname, hnames]

end OperatorSpecification

/-! ## Section 4: Tables -/

/-- **Precedence declarations give the intended trees**: the table of an operator grammar
    has no conflicts. Among the inputs without `$end` it accepts the operand and, after
    every operator, the operand again; and in the tree that is built over such an input
    an operator stands below another one only where the precedence lines put it. -/
theorem operators_group_as_declared {spec : String} {g : Grammar} {e n : String}
    {operators : List String} (h : OperatorSpecification spec g e n operators) :
    ∃ t, compile spec = .ok t ∧ t.conflicts = [] ∧
      ∀ names, endName ∉ names →
        (t.recognize names = .accepted ↔
          ∃ chosen, (∀ op ∈ chosen, op ∈ operators) ∧ names = chain n chosen) ∧
        (t.recognize names = .accepted → ∃ tree w, t.forest names = [tree] ∧
          g.Forest [g.startSymbol] [tree] w ∧ w.map g.symbolName = names ∧
          ∀ rule x left right, (Tree.node rule [left, .leaf x, right]).Within tree →
            (∀ y, left.operator? = some y →
              BindsAbove spec .left (g.symbolName x) (g.symbolName y)) ∧
            ∀ y, right.operator? = some y →
              BindsAbove spec .right (g.symbolName x) (g.symbolName y)) := by
  obtain ⟨operand, hoperand, hterminal⟩ := h.exists_operandIndex
  have hrules := h.operatorRules hoperand hterminal
  obtain ⟨t, hcompile⟩ := Grammar.exists_compile h.parse
  have htable := Grammar.parseTable_of_compile hcompile h.parse
  refine ⟨t, hcompile, hrules.conflicts_eq_nil htable, fun names hnames => ⟨?_, ?_⟩⟩
  · rw [hrules.accepted_iff_chain htable hnames, h.exists_chain_iff hoperand]
  · intro haccepted
    obtain ⟨tree, w, hforest, hw, hread, hgrouped⟩ :=
      hrules.exists_grouped_of_recognize htable haccepted
    refine ⟨tree, w, hforest, hw, hread.trans (takeWhile_ne_endName hnames), ?_⟩
    intro rule x left right hpart
    obtain ⟨hreduce, hshift⟩ := (hgrouped.of_within hpart).favours
    exact ⟨fun y hy => h.bindsAbove_of_favours_reduce (hreduce y hy),
      fun y hy => h.bindsAbove_of_favours_shift (hshift y hy)⟩

/-- Two operators on one line, and another one on a line after it that groups to the
    right. -/
theorem operators_group_as_declared_power :
    ∃ t g, compile
        "%token N\n%left '+' '-'\n%right '^'\n%% e : e '+' e | e '-' e | e '^' e | N ; %%"
        = .ok t ∧
      OperatorSpecification
        "%token N\n%left '+' '-'\n%right '^'\n%% e : e '+' e | e '-' e | e '^' e | N ; %%"
        g "e" "N" ["'+'", "'-'", "'^'"] ∧
      t.conflicts = [] ∧
      t.recognize ["N", "'-'", "N", "'^'", "N", "'^'", "N", "'+'", "N"] = .accepted := by
  generalize hspec :
    "%token N\n%left '+' '-'\n%right '^'\n%% e : e '+' e | e '-' e | e '^' e | N ; %%" = spec
  have hgrammar : (Grammar.parse spec).map (fun g => decide
      (g.terminals.toList.map Terminal.name = ["N", "'+'", "'-'", "'^'", "error", "$end"] ∧
        g.productions.toList.map (fun p => (g.symbolName p.left, p.right.map g.symbolName))
          = [("$accept", ["e"]), ("e", ["e", "'+'", "e"]), ("e", ["e", "'-'", "e"]),
            ("e", ["e", "'^'", "e"]), ("e", ["N"])])) = .ok true := by
    subst hspec
    decide +kernel
  have hlines : precedenceLines spec
      = [(2, .precedence .left ["'+'".toList, "'-'".toList]),
        (3, .precedence .right ["'^'".toList])] := by
    subst hspec
    decide +kernel
  have hprec : precArguments spec = [] := by
    subst hspec
    decide +kernel
  obtain ⟨g, hparse, hterminals, hproductions⟩ := exists_of_map_decide hgrammar
  have hdeclared : ∀ j b op, DeclaredAt spec j b op ↔
      j = 0 ∧ b = .left ∧ (op = "'+'" ∨ op = "'-'") ∨ j = 1 ∧ b = .right ∧ op = "'^'" := by
    intro j b op
    rw [DeclaredAt, hlines]
    rcases j with _ | _ | j <;> simp [Directive.DeclaredIn, eq_comm]
  have h : OperatorSpecification spec g "e" "N" ["'+'", "'-'", "'^'"] := by
    refine .of_names hparse hproductions (by decide) (by decide) (by decide) (by simp [hterminals])
      (by simp [hdeclared]) ?_ hprec
    intro op hop
    simp only [List.mem_cons, List.not_mem_nil, or_false] at hop
    rcases hop with rfl | rfl | rfl
    · exact ⟨0, .left, by simp, by simp [hdeclared], by simp [hdeclared]⟩
    · exact ⟨0, .left, by simp, by simp [hdeclared], by simp [hdeclared]⟩
    · exact ⟨1, .right, by simp, by simp [hdeclared], by simp [hdeclared]⟩
  obtain ⟨t, hcompile, hconflicts, hnames⟩ := operators_group_as_declared h
  refine ⟨t, g, hcompile, h, hconflicts, (hnames _ (by decide)).1.2 ?_⟩
  exact ⟨["'-'", "'^'", "'^'", "'+'"], by decide, by decide⟩

end SlrCompiler
