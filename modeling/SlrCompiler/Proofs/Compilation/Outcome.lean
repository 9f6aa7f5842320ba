import SlrCompiler.Proofs.Compilation.Bounds
import SlrCompiler.Proofs.Grammar.NameResolution
import SlrCompiler.Proofs.Specification.Braces
import SlrCompiler.Proofs.Specification.Refusals

/-! # What comes of compilation

    A specification has a table or is refused for a fault of its text. Each stage
    could find the result of an earlier one incomplete: resolution, if a left side
    or one of the reserved names were no symbol, and the action table, if a state
    lacked an edge or a complete item its production. Neither happens, because the
    symbols are the left sides and the terminals themselves
    (`terminalOnLeft_or_refuses_of_parse`) and because the automaton is closed under
    its moves (`exists_parseTable`). So a grammar always has a table, and only the
    division into sections misses a start rule. Nothing on the way is looked up, or
    cut, where it is not there (`compile_total`).
-/

namespace SlrCompiler

variable {e : GrammarError}

namespace Grammar

variable {g : Grammar}

/-! ## Section 1: Resolution -/

/-- What a rule is refused for is a fault of its text. -/
theorem Refuses.isOfPart {i : Nat} {r : Rule} (h : g.Refuses i r e) : e.isOfPart = true := by
  rcases h with ⟨x, -, -, rfl⟩ | ⟨text, -, hread⟩
  · rfl
  · exact SemanticAction.isOfPart_of_parse hread

theorem parse_eq_error_of_split {spec : String} (h : Sections.split spec.toList = .error e) :
    parse spec = .error e := by
  rw [parse, h]

/-- A specification that can be divided is refused for a fault of its parts. -/
theorem split_eq_error_or_isOfPart {spec : String} (h : parse spec = .error e) :
    Sections.split spec.toList = .error e ∨ e.isOfPart = true := by
  have herror := h
  unfold parse at h
  split at h
  · rename_i hsplit
    exact .inl (Except.error.inj h ▸ hsplit)
  rename_i s hs
  right
  split at h
  · rename_i hd
    exact Except.error.inj h ▸ Declarations.isOfPart_of_parse hd
  rename_i d hd
  split at h
  · rename_i hrules
    exact Except.error.inj h ▸ Rule.isOfPart_of_parse hrules
  rename_i rules hrules
  rcases terminalOnLeft_or_refuses_of_parse hs hd hrules herror with ⟨name, -, rfl⟩ | ⟨_, _, -, h⟩
  · rfl
  · exact h.isOfPart

/-! ## Section 2: The table -/

theorem exists_completeProposals {l : Lookahead} {i : Item} (h : g.ItemExists i) :
    ∃ ps, g.completeProposals l i = .ok ps := by
  obtain ⟨p, hp, -⟩ := h
  obtain ⟨rule, hrule⟩ := exists_matchProduction hp
  rw [completeProposals, hp]
  simp only [hrule]
  split
  · simp_all
  · exact ⟨_, rfl⟩
  · exact ⟨_, rfl⟩

section States

variable {a : Automaton} (ha : g.Canonical a) {l : Lookahead} {s : Nat} {st : State}
  (hst : a.states[s]? = some st)
include ha hst

/-- An item of a state finds the edge that it needs, or its production. -/
theorem exists_itemProposals {i : Item} (hi : i ∈ st.items) :
    ∃ ps, g.itemProposals l s st.edges i = .ok ps := by
  unfold itemProposals
  split
  · exact exists_completeProposals (ha.itemsExist hst i hi)
  rename_i x hx
  split
  · obtain ⟨v, hv, -⟩ := ha.exists_goto_of_nextSymbol hst hi hx
    exact ⟨_, by rw [hv]⟩
  · exact ⟨_, rfl⟩

theorem exists_proposals_of_items {items : List Item} (hitems : ∀ i ∈ items, i ∈ st.items) :
    ∃ ps, g.proposals l s st.edges items = .ok ps := by
  induction items with
  | nil => exact ⟨[], rfl⟩
  | cons i rest ih =>
    obtain ⟨first, hfirst⟩ := exists_itemProposals ha hst (hitems i List.mem_cons_self)
    obtain ⟨others, hothers⟩ := ih fun j hj => hitems j (List.mem_cons_of_mem i hj)
    exact ⟨first ++ others, by rw [proposals, hfirst, hothers]; rfl⟩

theorem exists_fillRow : ∃ row, g.fillRow l s st = .ok row := by
  obtain ⟨ps, hps⟩ := exists_proposals_of_items ha hst (l := l) fun i hi => hi
  exact ⟨_, by rw [fillRow, hps]; rfl⟩

end States

theorem exists_fillRows {a : Automaton} (ha : g.Canonical a) {l : Lookahead} {first : Nat}
    {states : List State} (hstates : ∀ (n : Nat) (st : State), states[n]? = some st →
      a.states[first + n]? = some st) :
    ∃ rows, g.fillRows l first states = .ok rows := by
  induction states generalizing first with
  | nil => exact ⟨[], rfl⟩
  | cons st rest ih =>
    have hfirst : a.states[first]? = some st := hstates 0 st rfl
    have hrest : ∀ (n : Nat) (other : State), rest[n]? = some other →
        a.states[first + 1 + n]? = some other := by
      intro n other hother
      rw [Nat.add_assoc, Nat.add_comm 1 n]
      exact hstates (n + 1) other hother
    obtain ⟨row, hrow⟩ := exists_fillRow ha hfirst (l := l)
    obtain ⟨rows, hrows⟩ := ih hrest
    exact ⟨row :: rows, by rw [fillRows, hrow, hrows]; rfl⟩

/-- The action table of a canonical collection is never refused. -/
theorem exists_actionTable {a : Automaton} (ha : g.Canonical a) (l : Lookahead) :
    ∃ t, g.actionTable l a = .ok t := by
  have hstates : ∀ (n : Nat) (st : State), a.states.toList[n]? = some st →
      a.states[0 + n]? = some st := by
    intro n st hst
    rwa [Nat.zero_add, ← Array.getElem?_toList]
  obtain ⟨rows, hrows⟩ := exists_fillRows ha hstates (l := l)
  exact ⟨_, by rw [actionTable, hrows]; rfl⟩

/-- **The table** of a grammar is never refused, productions added or not. -/
theorem exists_parseTable (hg : g.SymbolsExist) (hzero : 0 < g.productionCount) :
    ∃ t, g.parseTable = .ok t := by
  obtain ⟨actions, hactions⟩ := exists_actionTable (canonical_automaton hg hzero) g.lookahead
  exact ⟨_, by rw [parseTable, hactions]; rfl⟩

/-- What a grammar is compiled to is its table. -/
theorem exists_compile {spec : String} (h : parse spec = .ok g) : ∃ t, compile spec = .ok t := by
  have hg := wellFormed_of_parse h
  obtain ⟨t, ht⟩ := exists_parseTable hg.symbolsExist hg.productionCount_pos
  exact ⟨t, by rw [compile, h]; exact ht⟩

end Grammar

/-! ## Section 3: Compilation -/

theorem compile_eq_error_iff {spec : String} :
    compile spec = .error e ↔ Grammar.parse spec = .error e := by
  constructor
  · intro h
    cases hparse : Grammar.parse spec with
    | error other =>
      simp only [compile, hparse] at h
      rw [Except.error.inj h]
    | ok g =>
      obtain ⟨t, ht⟩ := Grammar.exists_compile hparse
      simp [ht] at h
  · intro h
    rw [compile, h]

/-- **No internal failure**: every text has a table or is refused for a fault of
    its own, never for a fault between two stages, and only its division into
    sections misses a start rule. The numbers of names are those of symbols,
    whether resolution succeeds or not. Where it does there is a table, and nothing
    that is looked up on the way to the table or in it is out of bounds; a left
    side is taken to its column without going below the first one. No reader of
    braces closes one that is not open. And none of the texts that are read on the
    way is cut, or looked at, at a position that is out of bounds. -/
theorem compile_total (spec : String) :
    ((∃ t, compile spec = .ok t) ∨
      ∃ e, compile spec = .error e ∧ ∀ fault, e ≠ .internal fault) ∧
    (compile spec = .error .missingStartRule ↔
      Sections.split spec.toList = .error .missingStartRule) ∧
    (∀ s d rules name i, (Grammar.withSymbols s d rules).symbolIndex? name = some i →
      i < (Grammar.withSymbols s d rules).symbolCount) ∧
    (∀ g, Grammar.parse spec = .ok g →
      g.InBounds ∧ ∃ t, compile spec = .ok t ∧ t.InBounds ∧
        ∀ (n : Nat) (p : Production), g.productions[n]? = some p →
          ∃ r, t.rules[n]? = some r ∧ r.left + g.terminalCount = p.left) ∧
    (∀ body, Blocks.countBraces 0 ('{' :: body)
      = some ((Blocks.closeBraces 0 body).map fun cut => ('{' :: cut.1, cut.2))) ∧
    (∀ opened line body, Lexeme.countBlock opened line 0 ('{' :: body)
      = some ((Lexeme.closeBlock opened line 0 body).map (Lexeme.prepend ['{']))) ∧
    ∀ text : List Char, Text.InBounds text := by
  refine ⟨?_, ?_, fun s d rules name i hi => (Grammar.symbolName_of_symbolIndex? hi).1, ?_,
    Blocks.countBraces_cons, Lexeme.countBlock_cons, Text.inBounds⟩
  · cases hcompile : compile spec with
    | ok t => exact .inl ⟨t, rfl⟩
    | error e =>
      refine .inr ⟨e, rfl, ?_⟩
      rcases Grammar.split_eq_error_or_isOfPart (compile_eq_error_iff.1 hcompile) with h | h
      · exact Sections.ne_internal_of_split h
      · exact (GrammarError.ne_of_isOfPart h).2
  · rw [compile_eq_error_iff]
    refine ⟨fun h => ?_, Grammar.parse_eq_error_of_split⟩
    exact (Grammar.split_eq_error_or_isOfPart h).resolve_right (by simp [GrammarError.isOfPart])
  · intro g hparse
    have hg := Grammar.wellFormed_of_parse hparse
    obtain ⟨t, hcompile⟩ := Grammar.exists_compile hparse
    have htable := Grammar.parseTable_of_compile hcompile hparse
    refine ⟨hg.inBounds, t, hcompile, Grammar.parseTable_inBounds hg htable, fun n p hp => ?_⟩
    obtain ⟨hle, -⟩ := hg.inBounds.left hp
    refine ⟨g.tableRule p, by rw [(Grammar.tabulates_of_parseTable htable).rules, hp]; rfl, ?_⟩
    simp only [Grammar.tableRule, Grammar.column, if_pos hle]
    omega

/-- A union with a member, an action with braces in it, and a precedence that is
    not declared. -/
theorem compile_total_union :
    ∃ g t, Grammar.parse
        "%union \x7b int n; \x7d %token <n> A\n%% s : s A \x7b \x7b \x7d \x7d %prec B | ; %%"
        = .ok g ∧ g.InBounds ∧
      compile "%union \x7b int n; \x7d %token <n> A\n%% s : s A \x7b \x7b \x7d \x7d %prec B | ; %%"
        = .ok t ∧ t.InBounds := by
  have hgrammar : (Grammar.parse
      "%union \x7b int n; \x7d %token <n> A\n%% s : s A \x7b \x7b \x7d \x7d %prec B | ; %%").map
      (fun g => decide (g.productionCount = 3)) = .ok true := by
    decide +kernel
  obtain ⟨g, hparse, -⟩ := exists_of_map_decide hgrammar
  obtain ⟨-, -, -, hbounds, -⟩ := compile_total
    "%union \x7b int n; \x7d %token <n> A\n%% s : s A \x7b \x7b \x7d \x7d %prec B | ; %%"
  obtain ⟨hg, t, hcompile, ht, -⟩ := hbounds g hparse
  exact ⟨g, t, hparse, hg, hcompile, ht⟩

end SlrCompiler
