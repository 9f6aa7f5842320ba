import SlrCompiler.Proofs.Automaton.Numbering
import SlrCompiler.Proofs.Compilation.Outcome
import SlrCompiler.Workbench

/-! # What a workbench keeps

    Nothing brings the parts of a workbench back into step with each other but its
    owner: once a production is added, FIRST and FOLLOW, the automaton and the tables
    are those of a grammar that is gone. What can be relied on all the same:

    * a command replaces the parts that it edits and no other, and one that is
      refused replaces none (`agree_after`), so a part that no command of a run
      edits is at its end what it was (`agree_afterAll`);
    * names and productions keep their numbers (`Grammar.Extends`), and what is said
      of productions by number, in the item set at hand and in the states, is said of
      productions that there are (`Sound`);
    * building everything anew is never refused and leads to the table of the
      grammar as it is then (`parseTable_afterAll_rebuild`), which is the compiled one
      if the grammar is as it was read (`parseTable_afterAll_of_compile`).
-/

namespace SlrCompiler

open Grammar

/-! ## Section 1: What a command edits -/

/-- The parts of a workbench. -/
inductive Workbench.Part where
  | grammar
  | lookahead
  | automaton
  | cursor
  | table
  | parseTable
  deriving DecidableEq, Repr

open Workbench (Part)

/-- The parts that a command on the grammar may replace. -/
def GrammarCommand.edits : GrammarCommand → List Part
  | .addProduction .. | .setPrecedence .. | .setEpsilon .. => [.grammar]
  | .rebuild => [.lookahead, .automaton]
  | .showSymbol .. | .matchProduction .. | .showLookahead | .firstOfSequence .. => []

/-- The parts that a command on items or on the automaton may replace. -/
def AutomatonCommand.edits : AutomatonCommand → List Part
  | .setItems .. | .closeItems | .moveItems .. => [.cursor]
  | .clearStates | .removeEdge .. | .addItem .. | .removeItem .. => [.automaton]
  | .showItem .. | .showAutomaton | .followEdge .. => []

/-- The parts that a command on a table may replace. -/
def TableCommand.edits : TableCommand → List Part
  | .fill => [.table]
  | .assemble | .setAction .. | .setGoto .. | .setStartState .. => [.parseTable]
  | .showAction .. | .showParseTable | .findTerminal .. | .recognize .. => []

/-- The parts that a command may replace. -/
def Command.edits : Command → List Part
  | .onGrammar c => c.edits
  | .onAutomaton c => c.edits
  | .onTable c => c.edits

/-- The command edits none of the parts. -/
def Command.Spares (c : Command) (parts : List Part) : Prop := ∀ part ∈ parts, part ∉ c.edits

/-- Symbols and productions are numbered in the second grammar as they are in the first;
    there may be more productions behind them. -/
structure Grammar.Extends (g h : Grammar) : Prop where
  symbolIndex? : ∀ name, h.symbolIndex? name = g.symbolIndex? name
  symbolCount : h.symbolCount = g.symbolCount
  isTerminal : ∀ s, h.isTerminal s = g.isTerminal s
  startSymbol : h.startSymbol = g.startSymbol
  production : ∀ {n : Nat} {p : Production}, g.productions[n]? = some p →
    h.productions[n]? = some p

namespace Workbench

/-- The item is one of a production that there is, wherever its dot stands. -/
def Known (w : Workbench) (i : Item) : Prop := i.production < w.grammar.productionCount

/-- What a command that is carried out can make of a workbench, with the parts that it
    replaces. -/
inductive Effect (w : Workbench) : List Part → Workbench → Prop
  | nothing : Effect w [] w
  | production {p : Production} : p.left < w.grammar.symbolCount →
      (∀ s ∈ p.right, s < w.grammar.symbolCount) →
      Effect w [.grammar] { w with grammar := w.grammar.addProduction p }
  | precedence (symbol : Nat) (precedence : Option Precedence) :
      Effect w [.grammar] { w with grammar := w.grammar.setPrecedence symbol precedence }
  | epsilon (symbols : List Nat) :
      Effect w [.grammar] { w with grammar := { w.grammar with epsilon := symbols } }
  | rebuilt : Effect w [.lookahead, .automaton]
      { w with lookahead := w.grammar.lookahead, automaton := w.grammar.automaton }
  | taken {items : ItemSet} : (∀ i ∈ items, w.Known i) →
      Effect w [.cursor] { w with cursor := items }
  | closed : Effect w [.cursor] { w with cursor := w.grammar.closure w.cursor }
  | moved {symbol : Nat} {target : ItemSet} : w.grammar.goto w.cursor symbol = some target →
      Effect w [.cursor] { w with cursor := target }
  | stayed : Effect w [.cursor] w
  | cleared : Effect w [.automaton] { w with automaton := { w.automaton with states := #[] } }
  | state {n : Nat} {s t : State} : w.automaton.states[n]? = some s →
      (∀ i ∈ t.items, i ∈ s.items ∨ w.Known i) → Effect w [.automaton] (w.setState n t)
  | filled {t : ActionTable} : w.grammar.actionTable w.lookahead w.automaton = .ok t →
      Effect w [.table] { w with table := some t }
  | assembled (t : ParseTable) : Effect w [.parseTable] (w.setParseTable t)

/-- What is said of productions by number is said of productions that there are. -/
structure Sound (w : Workbench) : Prop where
  symbolsExist : w.grammar.SymbolsExist
  productionCount_pos : 0 < w.grammar.productionCount
  cursor : ∀ i ∈ w.cursor, w.Known i
  state : ∀ {n : Nat} {s : State}, w.automaton.states[n]? = some s → ∀ i ∈ s.items, w.Known i

/-- FIRST, FOLLOW and the automaton are those of the grammar. -/
structure UpToDate (w : Workbench) : Prop where
  lookahead : w.lookahead = w.grammar.lookahead
  automaton : w.automaton = w.grammar.automaton

variable {w v next : Workbench} {c : Command} {cs : List Command} {answer : Answer}
  {part : Part} {parts : List Part}

/-- The two workbenches have the part in common. -/
def Agree (w v : Workbench) : Part → Prop
  | .grammar => v.grammar = w.grammar
  | .lookahead => v.lookahead = w.lookahead
  | .automaton => v.automaton = w.automaton
  | .cursor => v.cursor = w.cursor
  | .table => v.table = w.table
  | .parseTable => v.parseTable = w.parseTable

/-- The workbench after a run of commands; those that are refused are passed over. -/
def afterAll (w : Workbench) (cs : List Command) : Workbench := cs.foldl after w

@[simp] theorem afterAll_nil (w : Workbench) : w.afterAll [] = w := rfl

@[simp] theorem afterAll_cons (w : Workbench) (c : Command) (cs : List Command) :
    w.afterAll (c :: cs) = (w.after c).afterAll cs := rfl

@[simp] theorem afterAll_append (w : Workbench) (cs ds : List Command) :
    w.afterAll (cs ++ ds) = (w.afterAll cs).afterAll ds := List.foldl_append

/-! ## Section 2: What one command does -/

theorem lt_of_symbol {name : String} {i : Nat} (h : w.symbol name = .ok i) :
    i < w.grammar.symbolCount := by
  unfold symbol at h
  split at h
  · cases h
  · rename_i j hj
    obtain rfl := Except.ok.inj h
    exact (symbolName_of_symbolIndex? hj).1

theorem lt_of_symbols {names : List String} {symbols : List Nat}
    (h : w.symbols names = .ok symbols) : ∀ s ∈ symbols, s < w.grammar.symbolCount := by
  intro s hs
  obtain ⟨name, -, hname⟩ := exists_of_mem_mapM h s hs
  exact lt_of_symbol hname

theorem known_of_item {i j : Item} (h : w.item i = .ok j) : w.Known j := by
  unfold item at h
  split at h
  · rename_i hlt
    cases h
    exact hlt
  · cases h

theorem getElem?_of_state {n : Nat} {s : State} (h : w.state n = .ok s) :
    w.automaton.states[n]? = some s := by
  unfold state at h
  split at h
  · cases h
  · rename_i hs
    cases h
    exact hs

/-- Looking something up has no effect. -/
theorem effect_of_lookup {α : Type} {x : Except Refusal α} {f : α → Answer}
    (h : (x >>= fun a => pure (w, f a)) = .ok (next, answer)) : w.Effect [] next := by
  obtain ⟨_, -, h⟩ := bind_eq_ok_iff.1 h
  cases h
  exact .nothing

theorem effect_of_stepGrammar {c : GrammarCommand} (h : w.stepGrammar c = .ok (next, answer)) :
    w.Effect c.edits next := by
  cases c with
  | addProduction left right precedence =>
    obtain ⟨l, hl, h⟩ := bind_eq_ok_iff.1 h
    obtain ⟨r, hr, h⟩ := bind_eq_ok_iff.1 h
    cases h
    exact .production (lt_of_symbol hl) (lt_of_symbols hr)
  | setPrecedence symbol precedence =>
    obtain ⟨s, -, h⟩ := bind_eq_ok_iff.1 h
    cases h
    exact .precedence s precedence
  | setEpsilon symbols =>
    obtain ⟨epsilon, -, h⟩ := bind_eq_ok_iff.1 h
    cases h
    exact .epsilon epsilon
  | rebuild =>
    cases h
    exact .rebuilt
  | showSymbol symbol =>
    exact effect_of_lookup h
  | matchProduction left right =>
    obtain ⟨_, -, h⟩ := bind_eq_ok_iff.1 h
    exact effect_of_lookup h
  | showLookahead =>
    cases h
    exact .nothing
  | firstOfSequence symbols =>
    exact effect_of_lookup h

theorem effect_of_stepAutomaton {c : AutomatonCommand}
    (h : w.stepAutomaton c = .ok (next, answer)) : w.Effect c.edits next := by
  cases c with
  | setItems items =>
    obtain ⟨found, hfound, h⟩ := bind_eq_ok_iff.1 h
    cases h
    refine .taken fun i hi => ?_
    obtain ⟨_, -, hitem⟩ := exists_of_mem_mapM hfound i (SortedSet.mem_ofList.1 hi)
    exact known_of_item hitem
  | closeItems =>
    cases h
    exact .closed
  | moveItems symbol =>
    obtain ⟨s, -, h⟩ := bind_eq_ok_iff.1 h
    -- If no item expects the symbol, the item set at hand stays.
    split at h
    · cases h
      exact .stayed
    · rename_i target hgoto
      cases h
      exact .moved hgoto
  | showItem item =>
    exact effect_of_lookup h
  | showAutomaton =>
    cases h
    exact .nothing
  | followEdge state symbol =>
    exact effect_of_lookup h
  | clearStates =>
    cases h
    exact .cleared
  | removeEdge state symbol =>
    obtain ⟨s, hs, h⟩ := bind_eq_ok_iff.1 h
    obtain ⟨_, -, h⟩ := bind_eq_ok_iff.1 h
    cases h
    exact .state (getElem?_of_state hs) fun i hi => .inl hi
  | addItem state item =>
    obtain ⟨s, hs, h⟩ := bind_eq_ok_iff.1 h
    obtain ⟨i, hi, h⟩ := bind_eq_ok_iff.1 h
    cases h
    refine .state (getElem?_of_state hs) fun j hj => ?_
    rcases SortedSet.mem_insert.1 hj with rfl | hj
    · exact .inr (known_of_item hi)
    · exact .inl hj
  | removeItem state item =>
    obtain ⟨s, hs, h⟩ := bind_eq_ok_iff.1 h
    obtain ⟨i, -, h⟩ := bind_eq_ok_iff.1 h
    cases h
    exact .state (getElem?_of_state hs) fun j hj => .inl (SortedSet.mem_of_mem_erase hj)

theorem effect_of_stepTable {c : TableCommand} (h : w.stepTable c = .ok (next, answer)) :
    w.Effect c.edits next := by
  cases c with
  | fill =>
    simp only [stepTable] at h
    split at h
    · cases h
    · rename_i t ht
      cases h
      exact .filled ht
  | showAction symbol state =>
    obtain ⟨_, -, h⟩ := bind_eq_ok_iff.1 h
    exact effect_of_lookup h
  | assemble =>
    obtain ⟨_, -, h⟩ := bind_eq_ok_iff.1 h
    cases h
    exact .assembled _
  | showParseTable =>
    exact effect_of_lookup h
  | findTerminal name =>
    exact effect_of_lookup h
  | setAction state terminal action =>
    obtain ⟨_, -, h⟩ := bind_eq_ok_iff.1 h
    obtain ⟨_, -, h⟩ := bind_eq_ok_iff.1 h
    cases h
    exact .assembled _
  | setGoto state column target =>
    obtain ⟨_, -, h⟩ := bind_eq_ok_iff.1 h
    obtain ⟨_, -, h⟩ := bind_eq_ok_iff.1 h
    cases h
    exact .assembled _
  | setStartState state =>
    obtain ⟨_, -, h⟩ := bind_eq_ok_iff.1 h
    cases h
    exact .assembled _
  | recognize tokens =>
    obtain ⟨_, -, h⟩ := bind_eq_ok_iff.1 h
    exact effect_of_lookup h

/-- **One command**: a command that is carried out has one of the effects, on the parts
    that it edits. -/
theorem effect_of_step (h : w.step c = .ok (next, answer)) : w.Effect c.edits next := by
  cases c with
  | onGrammar c => exact effect_of_stepGrammar h
  | onAutomaton c => exact effect_of_stepAutomaton h
  | onTable c => exact effect_of_stepTable h

/-- A command that is refused changes nothing. -/
theorem after_of_error {refusal : Refusal} (h : w.step c = .error refusal) : w.after c = w := by
  rw [after, h]

/-- A command has its effect, or it is refused and has none. -/
theorem after_cases (w : Workbench) (c : Command) :
    w.Effect c.edits (w.after c) ∨ w.after c = w := by
  cases h : w.step c with
  | error refusal => exact .inr (after_of_error h)
  | ok result =>
    left
    rw [after, h]
    exact effect_of_step h

/-! ## Section 3: Parts that stay -/

theorem Agree.refl (w : Workbench) (part : Part) : w.Agree w part := by
  cases part <;> rfl

theorem Agree.trans {u : Workbench} (huw : u.Agree w part) (hwv : w.Agree v part) :
    u.Agree v part := by
  cases part <;> exact Eq.trans hwv huw

/-- Workbenches that have all parts in common are the same. -/
theorem eq_of_agree (h : ∀ part, w.Agree v part) : v = w := by
  cases w
  cases v
  have hgrammar := h .grammar
  have hlookahead := h .lookahead
  have hautomaton := h .automaton
  have hcursor := h .cursor
  have htable := h .table
  have hparseTable := h .parseTable
  simp_all only [Agree]

theorem Effect.agree (h : w.Effect parts next) (hpart : part ∉ parts) : w.Agree next part := by
  cases h <;> cases part <;> first | rfl | exact absurd (by simp) hpart

/-- **Nothing else changes**: what a command does not edit is after it what it was,
    whether the command is carried out or refused. -/
theorem agree_after (hpart : part ∉ c.edits) : w.Agree (w.after c) part := by
  rcases w.after_cases c with h | h
  · exact h.agree hpart
  · rw [h]
    exact .refl w part

/-- A part that no command of a run edits is at its end what it was. -/
theorem agree_afterAll (h : ∀ c ∈ cs, part ∉ c.edits) : w.Agree (w.afterAll cs) part := by
  induction cs generalizing w with
  | nil => exact .refl w part
  | cons c rest ih =>
    have hfirst : w.Agree (w.after c) part := agree_after (h c List.mem_cons_self)
    exact hfirst.trans (ih fun d hd => h d (List.mem_cons_of_mem c hd))

/-- Looking things up, however often, leaves the workbench as it is. -/
theorem afterAll_of_edits_nil (h : ∀ c ∈ cs, c.edits = []) : w.afterAll cs = w :=
  eq_of_agree fun part => agree_afterAll fun c hc => by simp [h c hc]

end Workbench

/-! ## Section 4: Numbers that stay -/

namespace Grammar

variable {g h k : Grammar}

theorem Extends.refl (g : Grammar) : g.Extends g where
  symbolIndex? _ := rfl
  symbolCount := rfl
  isTerminal _ := rfl
  startSymbol := rfl
  production hp := hp

theorem Extends.trans (hgh : g.Extends h) (hhk : h.Extends k) : g.Extends k where
  symbolIndex? name := (hhk.symbolIndex? name).trans (hgh.symbolIndex? name)
  symbolCount := hhk.symbolCount.trans hgh.symbolCount
  isTerminal s := (hhk.isTerminal s).trans (hgh.isTerminal s)
  startSymbol := hhk.startSymbol.trans hgh.startSymbol
  production hp := hhk.production (hgh.production hp)

theorem Extends.productionCount_le (hgh : g.Extends h) :
    g.productionCount ≤ h.productionCount := by
  by_contra hle
  -- A production of `g` would stand behind the last one of `h`.
  have hlt : h.productionCount < g.productions.size := Nat.lt_of_not_le hle
  have hp := hgh.production (Array.getElem?_eq_getElem hlt)
  exact absurd (Array.getElem?_eq_some_iff.1 hp).1 (Nat.lt_irrefl _)

theorem extends_addProduction (g : Grammar) (p : Production) : g.Extends (g.addProduction p) where
  symbolIndex? _ := rfl
  symbolCount := rfl
  isTerminal _ := rfl
  startSymbol := rfl
  production hp := by
    have hlt := (Array.getElem?_eq_some_iff.1 hp).1
    simp only [addProduction, Array.getElem?_push, Nat.ne_of_lt hlt, if_false]
    exact hp

@[simp] theorem terminalCount_setPrecedence (g : Grammar) (symbol : Nat)
    (precedence : Option Precedence) :
    (g.setPrecedence symbol precedence).terminalCount = g.terminalCount := by
  simp [setPrecedence, terminalCount]

/-- A terminal that is given another precedence keeps its name. -/
theorem names_setPrecedence (g : Grammar) (symbol : Nat) (precedence : Option Precedence) :
    (g.setPrecedence symbol precedence).terminals.map Terminal.name
      = g.terminals.map Terminal.name := by
  refine Array.ext_getElem? fun i => ?_
  simp only [setPrecedence, Array.getElem?_map, Array.getElem?_modify]
  split
  · cases g.terminals[i]? <;> rfl
  · rfl

theorem extends_setPrecedence (g : Grammar) (symbol : Nat) (precedence : Option Precedence) :
    g.Extends (g.setPrecedence symbol precedence) where
  symbolIndex? name := by
    have hterminals : (g.setPrecedence symbol precedence).terminals.findIdx? (·.name == name)
        = g.terminals.findIdx? (·.name == name) := by
      have hmap := congrArg (Array.findIdx? (· == name)) (names_setPrecedence g symbol precedence)
      simpa only [Array.findIdx?_map, Function.comp_def] using hmap
    rw [Grammar.symbolIndex?, Grammar.symbolIndex?, hterminals, terminalCount_setPrecedence]
    rfl
  symbolCount := by simp [Grammar.symbolCount, nonterminalCount, setPrecedence, terminalCount]
  isTerminal s := by simp [Grammar.isTerminal]
  startSymbol := rfl
  production hp := hp

theorem extends_setEpsilon (g : Grammar) (symbols : List Nat) :
    g.Extends { g with epsilon := symbols } where
  symbolIndex? _ := rfl
  symbolCount := rfl
  isTerminal _ := rfl
  startSymbol := rfl
  production hp := hp

end Grammar

namespace Workbench

variable {w next : Workbench} {c : Command} {cs : List Command} {parts : List Part}

theorem Effect.extends (h : w.Effect parts next) : w.grammar.Extends next.grammar := by
  cases h with
  | production => exact extends_addProduction w.grammar _
  | precedence symbol precedence => exact extends_setPrecedence w.grammar symbol precedence
  | epsilon symbols => exact extends_setEpsilon w.grammar symbols
  | nothing | rebuilt | taken | closed | moved | stayed | cleared | state | filled | assembled =>
    exact .refl w.grammar

theorem extends_after (w : Workbench) (c : Command) :
    w.grammar.Extends (w.after c).grammar := by
  rcases w.after_cases c with h | h
  · exact h.extends
  · rw [h]
    exact .refl w.grammar

/-- **Numbers stay**: along a run of commands every name keeps its number, and every
    production its place. -/
theorem extends_afterAll (w : Workbench) (cs : List Command) :
    w.grammar.Extends (w.afterAll cs).grammar := by
  induction cs generalizing w with
  | nil => exact .refl w.grammar
  | cons c rest ih => exact (w.extends_after c).trans (ih (w.after c))

/-- A name stands for the same symbol at any time, or for none. -/
theorem symbol_afterAll (w : Workbench) (cs : List Command) (name : String) :
    (w.afterAll cs).symbol name = w.symbol name := by
  rw [symbol, symbol, (w.extends_afterAll cs).symbolIndex? name]

/-! ## Section 5: What is said of productions -/

/-- A production that there is stays. -/
theorem Effect.known {i : Item} (h : w.Effect parts next) (hi : w.Known i) : next.Known i :=
  Nat.lt_of_lt_of_le hi h.extends.productionCount_le

/-- What items that are known expand to is known. -/
theorem known_of_mem_closure (hw : w.Sound) {items : ItemSet} (hitems : ∀ i ∈ items, w.Known i)
    {i : Item} (hi : i ∈ w.grammar.closure items) : w.Known i := by
  cases (mem_closure hw.symbolsExist).1 hi with
  | base hi => exact hitems i hi
  | expand _ _ hp =>
    obtain ⟨-, q, hq, -⟩ := mem_productionsOf.1 hp
    exact (Array.getElem?_eq_some_iff.1 hq).1

theorem known_of_mem_goto (hw : w.Sound) {symbol : Nat} {target : ItemSet}
    (hgoto : w.grammar.goto w.cursor symbol = some target) {i : Item} (hi : i ∈ target) :
    w.Known i := by
  rw [goto_eq_some hgoto] at hi
  refine known_of_mem_closure hw (fun j hj => ?_) hi
  obtain ⟨k, hk, -, rfl⟩ := mem_advanced.1 (SortedSet.mem_ofList.1 hj)
  exact hw.cursor k hk

theorem Effect.symbolsExist (hw : w.Sound) (h : w.Effect parts next) :
    next.grammar.SymbolsExist := by
  cases h with
  | production hleft hright => exact hw.symbolsExist.addProduction hleft hright
  | precedence symbol precedence =>
    intro n p hp
    rw [(extends_setPrecedence w.grammar symbol precedence).symbolCount]
    exact hw.symbolsExist n p hp
  | epsilon | nothing | rebuilt | taken | closed | moved | stayed | cleared | state | filled
  | assembled => exact hw.symbolsExist

theorem Effect.cursor_known (hw : w.Sound) (h : w.Effect parts next) :
    ∀ i ∈ next.cursor, next.Known i := by
  intro i hi
  refine h.known ?_
  cases h with
  | taken hitems => exact hitems i hi
  | closed => exact known_of_mem_closure hw hw.cursor hi
  | moved hgoto => exact known_of_mem_goto hw hgoto hi
  | production | precedence | epsilon | nothing | rebuilt | stayed | cleared | state | filled
  | assembled => exact hw.cursor i hi

theorem Effect.state_known (hw : w.Sound) (h : w.Effect parts next) {n : Nat} {s : State}
    (hs : next.automaton.states[n]? = some s) : ∀ i ∈ s.items, next.Known i := by
  intro i hi
  refine h.known ?_
  cases h with
  | rebuilt =>
    obtain ⟨p, hp, -⟩ := (canonical_automaton hw.symbolsExist hw.productionCount_pos).itemsExist
      hs i hi
    exact (Array.getElem?_eq_some_iff.1 hp).1
  | cleared => simp at hs
  | state hold hitems =>
    simp only [setState, Array.getElem?_setIfInBounds] at hs
    split at hs
    · simp only [Option.ite_none_right_eq_some, Option.some.injEq] at hs
      obtain ⟨-, rfl⟩ := hs
      rcases hitems i hi with hi | hi
      · exact hw.state hold i hi
      · exact hi
    · exact hw.state hs i hi
  | production | precedence | epsilon | nothing | taken | closed | moved | stayed | filled
  | assembled => exact hw.state hs i hi

theorem Sound.effect (hw : w.Sound) (h : w.Effect parts next) : next.Sound where
  symbolsExist := h.symbolsExist hw
  productionCount_pos := Nat.lt_of_lt_of_le hw.productionCount_pos h.extends.productionCount_le
  cursor := h.cursor_known hw
  state := h.state_known hw

theorem Sound.after (hw : w.Sound) (c : Command) : (w.after c).Sound := by
  rcases w.after_cases c with h | h
  · exact hw.effect h
  · rw [h]
    exact hw

/-- **Soundness stays**: whatever is done, the items at hand and in the states speak of
    productions that there are. -/
theorem Sound.afterAll (hw : w.Sound) (cs : List Command) : (w.afterAll cs).Sound := by
  induction cs generalizing w with
  | nil => exact hw
  | cons c rest ih => exact ih (hw.after c)

/-- The workbench of a grammar that comes from a specification is sound, productions
    added or not. -/
theorem sound_ofGrammar {g : Grammar} (hg : g.Built) : (ofGrammar g).Sound := by
  obtain ⟨hsymbols, hzero⟩ := hg.symbolsExist
  have hcanonical := canonical_automaton hsymbols hzero
  have hknown : ∀ {i : Item}, g.ItemExists i → i.production < g.productionCount := by
    rintro i ⟨p, hp, -⟩
    exact (Array.getElem?_eq_some_iff.1 hp).1
  obtain ⟨first, hfirst, hitems⟩ := hcanonical.first
  constructor
  case symbolsExist => exact hsymbols
  case productionCount_pos => exact hzero
  case cursor =>
    intro i hi
    exact hknown (hcanonical.itemsExist hfirst i (hitems ▸ hi))
  case state =>
    intro n s hs i hi
    exact hknown (hcanonical.itemsExist hs i hi)

/-! ## Section 6: Building anew -/

theorem upToDate_ofGrammar (g : Grammar) : (ofGrammar g).UpToDate := ⟨rfl, rfl⟩

theorem upToDate_after_rebuild (w : Workbench) : (w.after (.onGrammar .rebuild)).UpToDate :=
  ⟨rfl, rfl⟩

/-- A run that spares the grammar and what is built of it leaves it up to date. -/
theorem UpToDate.afterAll (hw : w.UpToDate)
    (h : ∀ c ∈ cs, c.Spares [.grammar, .lookahead, .automaton]) : (w.afterAll cs).UpToDate := by
  have hgrammar : (w.afterAll cs).grammar = w.grammar :=
    agree_afterAll fun c hc => h c hc .grammar (by simp)
  constructor
  · rw [hgrammar, ← hw.lookahead]
    exact agree_afterAll fun c hc => h c hc .lookahead (by simp)
  · rw [hgrammar, ← hw.automaton]
    exact agree_afterAll fun c hc => h c hc .automaton (by simp)

/-- Filling the action table of a workbench that is up to date fills that of its grammar. -/
theorem table_after_fill {actions : ActionTable} (hw : w.UpToDate)
    (h : w.grammar.actionTable w.grammar.lookahead w.grammar.automaton = .ok actions) :
    w.after (.onTable .fill) = { w with table := some actions } := by
  rw [← hw.lookahead, ← hw.automaton] at h
  simp [after, step, stepTable, h]

/-- The parse table is put together from the parts at hand. -/
theorem parseTable_after_assemble {actions : ActionTable} (h : w.table = some actions) :
    (w.after (.onTable .assemble)).parseTable
      = some (ParseTable.assemble w.grammar w.automaton actions) := by
  simp [after, step, stepTable, filled, h, setParseTable, bind, Except.bind, pure, Except.pure]

/-- What is done between the two commands on the tables may not edit what the second
    one reads, and what is done after them may not edit its result. -/
theorem parseTable_afterAll_fill {idle last : List Command} {t : ParseTable} (hw : w.UpToDate)
    (ht : w.grammar.parseTable = .ok t)
    (hidle : ∀ c ∈ idle, c.Spares [.grammar, .automaton, .table])
    (hlast : ∀ c ∈ last, c.Spares [.parseTable]) :
    (w.afterAll (.onTable .fill :: (idle ++ .onTable .assemble :: last))).parseTable
      = some t := by
  obtain ⟨actions, hactions, rfl⟩ := exists_assemble ht
  rw [afterAll_cons, afterAll_append, afterAll_cons, table_after_fill hw hactions]
  set filled : Workbench := { w with table := some actions }
  have hgrammar : (filled.afterAll idle).grammar = w.grammar :=
    agree_afterAll fun c hc => hidle c hc .grammar (by simp)
  have hautomaton : (filled.afterAll idle).automaton = w.automaton :=
    agree_afterAll fun c hc => hidle c hc .automaton (by simp)
  have htable : (filled.afterAll idle).table = some actions :=
    agree_afterAll fun c hc => hidle c hc .table (by simp)
  have hassembled := parseTable_after_assemble htable
  rw [hgrammar, hautomaton, hw.automaton] at hassembled
  rw [← hassembled]
  exact agree_afterAll fun c hc => hlast c hc .parseTable (by simp)

/-- **Building anew** is never refused: whatever was done before, the workbench then
    holds the parse table of its grammar as it is. -/
theorem parseTable_afterAll_rebuild (hw : w.Sound) (cs : List Command) :
    ∃ t, (w.afterAll cs).grammar.parseTable = .ok t ∧
      (w.afterAll (cs ++ [.onGrammar .rebuild, .onTable .fill, .onTable .assemble])).parseTable
        = some t := by
  have hsound := hw.afterAll cs
  obtain ⟨t, ht⟩ := exists_parseTable hsound.symbolsExist hsound.productionCount_pos
  have hnone : ∀ parts, ∀ c ∈ ([] : List Command), c.Spares parts := by simp
  refine ⟨t, ht, ?_⟩
  rw [afterAll_append, afterAll_cons]
  exact parseTable_afterAll_fill (upToDate_after_rebuild _) ht (hnone _) (hnone _)

/-- **The compiled table**: if nothing that it is made of is edited, the parse table of
    the workbench of a specification is the one that the specification is compiled to. -/
theorem parseTable_afterAll_of_compile {spec : String} {g : Grammar} {t : ParseTable}
    {first idle last : List Command} (hparse : parse spec = .ok g) (hcompile : compile spec = .ok t)
    (hfirst : ∀ c ∈ first, c.Spares [.grammar, .lookahead, .automaton])
    (hidle : ∀ c ∈ idle, c.Spares [.grammar, .automaton, .table])
    (hlast : ∀ c ∈ last, c.Spares [.parseTable]) :
    ((ofGrammar g).afterAll
      (first ++ .onTable .fill :: (idle ++ .onTable .assemble :: last))).parseTable = some t := by
  have hgrammar : ((ofGrammar g).afterAll first).grammar = g :=
    agree_afterAll fun c hc => hfirst c hc .grammar (by simp)
  rw [afterAll_append]
  refine parseTable_afterAll_fill ((upToDate_ofGrammar g).afterAll hfirst) ?_ hidle hlast
  rw [hgrammar]
  exact parseTable_of_compile hcompile hparse

end Workbench

end SlrCompiler
