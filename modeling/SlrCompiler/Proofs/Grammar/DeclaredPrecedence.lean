import SlrCompiler.Proofs.Grammar.Resolution
import SlrCompiler.Proofs.Specification.PrecedenceLines
import SlrCompiler.Proofs.Specification.RulesGrammar

/-! # Precedence from the text to the grammar

    Precedence is written in the declarations and used at the cells of the table. In
    between, the lines are read into bindings of names, the reader of rules looks
    names up and keeps what it found last, and resolution turns names into numbers.
    `PrecedenceFrom` leaves all that out: it speaks of the lines, of the rules as they
    are written, and of the grammar.

    What holds it together is that the bindings say of a name what the grammar says
    of the symbol of that name (`Resolved.lookup_eq`), because every name that a line
    lists becomes a terminal.
-/

namespace SlrCompiler

open Text

namespace Grammar

variable {g : Grammar}

/-! ## Section 1: What is to be shown -/

variable (g) in
/-- The precedences of a grammar are those that the lines of its declarations and the
    `%prec` clauses of its rules give. -/
structure PrecedenceFrom (lines : List (List Char)) (forms : List Rule.Form) : Prop where
  /-- A terminal has a precedence if some line lists it. -/
  listed : ∀ x, g.isTerminal x = true →
    ((∃ p, g.precedenceOf x = some p) ↔ ∃ line ∈ lines, ∃ a, Lists line a (g.symbolName x))
  /-- It has that of the last line which lists it. -/
  last : ∀ x n a, g.isTerminal x = true → ListedLast lines n a (g.symbolName x) →
    g.precedenceOf x = some ⟨a, levelOfLine lines n⟩
  /-- Levels are ordered as the lines are, and symbols of one line have one precedence. -/
  ordered : ∀ x y m n a b p q, ListedLast lines m a (g.symbolName x) →
    ListedLast lines n b (g.symbolName y) → g.precedenceOf x = some p → g.precedenceOf y = some q →
    (p.level < q.level ↔ m < n) ∧ (m = n → p = q)
  augmenting : g.productionPrecedence 0 = none
  productionCount : g.productionCount = (forms.flatMap Rule.Form.alternatives).length + 1
  /-- The other productions are the alternatives in order. Each has the precedence of its
      last `%prec` argument that has one, or else that of the last symbol of its right side
      that has one. -/
  productions : ∀ (i : Nat) (left : String) (alternative : Rule.Alternative),
    (forms.flatMap Rule.Form.alternatives)[i]? = some (left, alternative) →
    ∃ p, g.productions[i + 1]? = some p ∧ g.symbolName p.left = left ∧
      p.right.map g.symbolName = alternative.symbols.map RuleSymbol.text ∧
      g.productionPrecedence (i + 1) =
        (alternative.precArguments.reverse.findSome? fun argument =>
          (g.symbolIndex? argument).bind g.precedenceOf).or
        (p.right.reverse.findSome? g.precedenceOf)

/-! ## Section 2: Symbols -/

section Symbols

variable {s : Sections} {d : Declarations} {rules : List Rule} (h : g.Resolved s d rules)
  (hd : Declarations.parse s.declarations = .ok d)
include h hd

/-- What the declarations say of a name is what the grammar says of the symbol of that
    name. -/
theorem Resolved.lookup_eq (name : String) :
    d.precedence.lookup name = (g.symbolIndex? name).bind g.precedenceOf := by
  cases hx : g.symbolIndex? name with
  | some x => rw [Option.bind_some, h.precedenceOf_eq hd hx]
  | none =>
    -- A name with a precedence is a token, and every token is a symbol.
    rw [Option.bind_none]
    by_contra hne
    have htoken := Declarations.mem_tokens_of_lookup hd hne
    obtain ⟨x, hindex⟩ := exists_symbolIndex?_of_mem (.inl (h.mem_terminals_of_mem_tokens htoken))
    simp [hx] at hindex

variable {b : Blocks} (hb : Blocks.ofText s.declarations = .ok b)
include hb

theorem Resolved.precedenceOf_of_listedLast {x n : Nat} {a : Associativity}
    (hx : g.isTerminal x = true) (hlast : ListedLast (lines b.directives) n a (g.symbolName x)) :
    g.precedenceOf x = some ⟨a, levelOfLine (lines b.directives) n⟩ := by
  obtain ⟨c, hc, hdeclared⟩ := Declarations.exists_ofText_of_parse hd
  obtain rfl := Except.ok.inj (hb.symm.trans hc)
  rw [h.precedenceOf_eq_of_terminal hx, Declarations.lookup_of_listedLast hdeclared hlast]
  simp [Declarations.ofBlocks]

theorem Resolved.eq_of_listedLast {x n : Nat} {a : Associativity} {p : Precedence}
    (hlast : ListedLast (lines b.directives) n a (g.symbolName x))
    (hp : g.precedenceOf x = some p) : p = ⟨a, levelOfLine (lines b.directives) n⟩ := by
  cases hx : g.isTerminal x with
  | true => exact Option.some.inj (hp.symm.trans (h.precedenceOf_of_listedLast hd hb hx hlast))
  | false => simp [precedenceOf_eq_none_of_nonterminal hx] at hp

theorem Resolved.exists_precedenceOf_iff {x : Nat} (hx : g.isTerminal x = true) :
    (∃ p, g.precedenceOf x = some p) ↔
      ∃ line ∈ lines b.directives, ∃ a, Lists line a (g.symbolName x) := by
  constructor
  · rintro ⟨p, hp⟩
    by_contra hnone
    obtain ⟨c, hc, hdeclared⟩ := Declarations.exists_ofText_of_parse hd
    obtain rfl := Except.ok.inj (hb.symm.trans hc)
    have hlookup := Declarations.lookup_of_not_lists hdeclared
      fun line hline a hlists => hnone ⟨line, hline, a, hlists⟩
    rw [h.precedenceOf_eq_of_terminal hx, hlookup] at hp
    simp [Declarations.ofBlocks] at hp
  · intro hlisted
    obtain ⟨n, a, hlast⟩ := exists_listedLast hlisted
    exact ⟨_, h.precedenceOf_of_listedLast hd hb hx hlast⟩

end Symbols

/-! ## Section 3: Productions -/

/-- The last symbol with a precedence is found by its number as it is by its name. -/
theorem Resolves.findSome?_right {r : Rule} {p : Production} (h : g.Resolves r p)
    {precedence : String → Option Precedence}
    (hprecedence : ∀ name x, g.symbolIndex? name = some x → precedence name = g.precedenceOf x) :
    (r.right.reverse.findSome? fun s => precedence s.text)
      = p.right.reverse.findSome? g.precedenceOf := by
  have hmap : r.right.map (fun s => precedence s.text) = p.right.map g.precedenceOf := by
    have hright := h.right
    generalize r.right = symbols, p.right = right at hright
    induction hright with
    | nil => rfl
    | cons hindex _ ih => rw [List.map_cons, List.map_cons, ih, hprecedence _ _ hindex]
  have hfind : ∀ {α : Type} (f : α → Option Precedence) (l : List α),
      l.reverse.findSome? f = (l.map f).reverse.findSome? id := by
    intro α f l
    rw [← List.map_reverse, List.findSome?_map]
    rfl
  rw [hfind _ r.right, hmap, ← hfind]

section Productions

variable {s : Sections} {d : Declarations} {rules : List Rule} (h : g.Resolved s d rules)
  (hrules : Rule.parse s.startSymbol d.precedence.lookup s.rules = .ok rules)
include h hrules

theorem Resolved.productionPrecedence_zero : g.productionPrecedence 0 = none := by
  obtain ⟨read, rfl, -⟩ := Rule.proper_of_parse hrules
  obtain ⟨p, hp, hresolves⟩ := h.exists_production (i := 0) rfl
  rw [productionPrecedence, hp, Option.bind_some, hresolves.precedence]
  rfl

theorem Resolved.productionCount_eq {forms : List Rule.Form}
    (hforms : Rule.Form.Spelled forms s.rules) :
    g.productionCount = (forms.flatMap Rule.Form.alternatives).length + 1 := by
  obtain ⟨read, rfl, -, hmap⟩ := Rule.exists_read_of_parse hrules hforms
  have hlength : read.length = (forms.flatMap Rule.Form.alternatives).length := by
    simpa using congrArg List.length hmap
  rw [productionCount, ← Array.length_toList, ← h.productions.length_eq, List.length_cons, hlength]

variable (hd : Declarations.parse s.declarations = .ok d)
include hd

/-- An alternative is the production at its place, with the precedence that it asks for. -/
theorem Resolved.exists_production_of_alternative {forms : List Rule.Form}
    (hforms : Rule.Form.Spelled forms s.rules) {i : Nat} {left : String}
    {alternative : Rule.Alternative}
    (hi : (forms.flatMap Rule.Form.alternatives)[i]? = some (left, alternative)) :
    ∃ p, g.productions[i + 1]? = some p ∧ g.symbolName p.left = left ∧
      p.right.map g.symbolName = alternative.symbols.map RuleSymbol.text ∧
      g.productionPrecedence (i + 1) =
        (alternative.precArguments.reverse.findSome? fun argument =>
          (g.symbolIndex? argument).bind g.precedenceOf).or
        (p.right.reverse.findSome? g.precedenceOf) := by
  obtain ⟨read, rfl, -, hmap⟩ := Rule.exists_read_of_parse hrules hforms
  have hrule : (read.map Rule.unplaced)[i]?
      = some (alternative.rule d.precedence.lookup left) := by
    rw [hmap, List.getElem?_map, hi, Option.map_some]
  rw [List.getElem?_map] at hrule
  obtain ⟨r, hr, hunplaced⟩ := Option.map_eq_some_iff.1 hrule
  obtain ⟨p, hp, hresolves⟩ :=
    h.exists_production (i := i + 1) (by rw [List.getElem?_cons_succ, hr])
  have hleft : r.left = left := congrArg Rule.left hunplaced
  have hright : r.right = alternative.symbols := congrArg Rule.right hunplaced
  have hprecedence : r.precedence = alternative.precedence d.precedence.lookup :=
    congrArg Rule.precedence hunplaced
  have hfound := hresolves.findSome?_right fun name x hx => (h.precedenceOf_eq hd hx).symm
  refine ⟨p, hp, by rw [hresolves.names.1, hleft], by rw [hresolves.names.2, hright], ?_⟩
  rw [productionPrecedence, hp, Option.bind_some, hresolves.precedence, hprecedence,
    Rule.Alternative.precedence, ← hright, hfound]
  congr 2
  funext name
  exact h.lookup_eq hd name

end Productions

/-! ## Section 4: Parsed grammars -/

/-- **Precedence** of symbols and productions is what the text says, in every grammar
    that is read. -/
theorem precedenceFrom_of_parse {spec : String} (h : parse spec = .ok g) :
    ∃ s b, Sections.split spec.toList = .ok s ∧ Blocks.ofText s.declarations = .ok b ∧
      (∃ forms, Rule.Form.Spelled forms s.rules) ∧
      ∀ forms, Rule.Form.Spelled forms s.rules → g.PrecedenceFrom (lines b.directives) forms := by
  obtain ⟨s, d, rules, hs, hd, hrules, hresolved⟩ := exists_resolved_of_parse h
  obtain ⟨b, hb, -⟩ := Declarations.exists_ofText_of_parse hd
  refine ⟨s, b, hs, hb, Rule.exists_spelled_of_parse hrules, fun forms hforms => ?_⟩
  exact {
    listed := fun x hx => hresolved.exists_precedenceOf_iff hd hb hx
    last := fun x n a hx hlast => hresolved.precedenceOf_of_listedLast hd hb hx hlast
    ordered := by
      intro x y m n a c p q hx hy hp hq
      obtain rfl := hresolved.eq_of_listedLast hd hb hx hp
      obtain rfl := hresolved.eq_of_listedLast hd hb hy hq
      refine ⟨hx.levelOfLine_lt_iff hy, ?_⟩
      rintro rfl
      rw [hx.associativity_eq hy]
    augmenting := hresolved.productionPrecedence_zero hrules
    productionCount := hresolved.productionCount_eq hrules hforms
    productions := fun i left alternative hi =>
      hresolved.exists_production_of_alternative hrules hd hforms hi }

/-- A token that a later line lists again, a `%prec` clause behind which another has no
    effect, and one in front of the symbols. -/
theorem precedenceFrom_of_parse_redeclared :
    ∃ (g : Grammar) (s : Sections) (b : Blocks) (forms : List Rule.Form),
      parse
        "%left 'a' 'b'\n%right 'c'\n%nonassoc 'a'\n%% e : e 'a' %prec 'c' %prec e | %prec 'b' 'a' | ; %%"
        = .ok g ∧
      Blocks.ofText s.declarations = .ok b ∧ Rule.Form.Spelled forms s.rules ∧
      g.PrecedenceFrom (lines b.directives) forms ∧ g.precedenceOf 0 = some ⟨.nonassoc, 3⟩ ∧
      (List.range g.productionCount).map g.productionPrecedence =
        [none, some ⟨.right, 2⟩, some ⟨.left, 1⟩, none] := by
  have hfacts : (parse
      "%left 'a' 'b'\n%right 'c'\n%nonassoc 'a'\n%% e : e 'a' %prec 'c' %prec e | %prec 'b' 'a' | ; %%").map
      (fun g => decide (g.precedenceOf 0 = some ⟨.nonassoc, 3⟩ ∧
        (List.range g.productionCount).map g.productionPrecedence =
          [none, some ⟨.right, 2⟩, some ⟨.left, 1⟩, none])) = .ok true := by
    decide +kernel
  obtain ⟨g, hparse, hterminal, hproductions⟩ := exists_of_map_decide hfacts
  obtain ⟨s, b, -, hb, ⟨forms, hforms⟩, hprecedence⟩ := precedenceFrom_of_parse hparse
  exact ⟨g, s, b, forms, hparse, hb, hforms, hprecedence forms hforms, hterminal, hproductions⟩

end Grammar

end SlrCompiler
