import Mathlib.Data.List.Lex
import SlrCompiler.Proofs.Compilation.Outcome
import SlrCompiler.Proofs.Table.Acceptance
import SlrCompiler.Proofs.Table.Justification

/-! # Settling a cell is taking a maximum

    A cell is settled by pairs: what it holds meets what is proposed next, and one
    of the two stays. Yet the outcome is the maximum of all that is proposed in one
    order of the actions, in which every action has a standing (`standing`), and so
    it does not matter in which order the proposals come.

    The order is total, since no two actions have the same standing
    (`standing_injective`). A pair is settled for the one of higher standing
    (`standing_le_settle`), whichever comes first. By induction on the proposals the
    cell holds their maximum (`standing_le_settleAll`), and a maximum is unique.

    There is one proviso. A rule with a precedence and one without are settled by
    their numbers alone, and then no order of the actions agrees with all pairs. So
    the rules that compete for a cell have to carry a precedence all of them, or
    none of them (`Uniform`).
-/

namespace SlrCompiler

namespace Grammar

variable (g : Grammar)

/-! ## Section 1: The order of the actions -/

/-- Where a precedence stands among the levels: below all of them if there is none. -/
def height : Option Precedence → Nat
  | none => 0
  | some p => p.level + 1

/-- Where an action stands among those proposed for the cells of a terminal, as numbers that
    count in turn: a rule by its level and then by its number, a shift above all rules. Only if
    the terminal has a precedence does a shift stand at the terminal's level, there below the
    rules if the terminal is left-associative and above them if not. -/
def standing (x : Nat) : Action → List Nat
  | .error => [0]
  | .reduce rule => [1, height (g.productionPrecedence rule), 1, rule]
  | .shift target =>
    match g.precedenceOf x with
    | none => [2, target]
    | some p => [1, height (some p), if p.associativity = .left then 0 else 2, target]
  | .accept => [3]

/-- A rule overcomes the shift of a terminal: both carry a precedence, and the rule's level is
    higher, or it is the same and the terminal is left-associative. -/
def Overcomes (x rule : Nat) : Prop :=
  ∃ p q, g.precedenceOf x = some p ∧ g.productionPrecedence rule = some q ∧
    (p.level < q.level ∨ p.level = q.level ∧ p.associativity = .left)

/-- The rules that a state would reduce at a terminal carry a precedence all of them, or none
    of them. -/
def Uniform (st : State) (x : Nat) : Prop :=
  (∀ rule, g.Justified st x (.reduce rule) → (g.productionPrecedence rule).isSome) ∨
    ∀ rule, g.Justified st x (.reduce rule) → g.productionPrecedence rule = none

/-- Two actions that one order can settle: shifts at one terminal lead to one state, and of two
    rules both carry a precedence or neither does. -/
structure Comparable (a b : Action) : Prop where
  shifts : ∀ m n, a = .shift m → b = .shift n → m = n
  rules : ∀ r q, a = .reduce r → b = .reduce q →
    (g.productionPrecedence r).isSome = (g.productionPrecedence q).isSome

/-- The highest of the actions that a state justifies at a terminal; if there are none, the
    blank. -/
structure Highest (st : State) (x : Nat) (a : Action) : Prop where
  held : a = .error ∨ g.Justified st x a
  standing_le : ∀ b, g.Justified st x b → g.standing x b ≤ g.standing x a

variable {g} {x : Nat}

/-- **A total order**: different actions differ in their standing. -/
theorem standing_injective (x : Nat) : Function.Injective (g.standing x) := by
  intro a b h
  -- a shift has one of two forms, by the precedence of the terminal alone
  cases hx : g.precedenceOf x with
  | none => cases a <;> cases b <;> simp_all [standing]
  | some p =>
    have hplace : (if p.associativity = .left then 0 else 2) ≠ 1 := by split <;> simp
    cases a <;> cases b <;> simp_all [standing]

theorem standing_error_le (a : Action) : g.standing x .error ≤ g.standing x a := by
  rw [← not_lt]
  -- the first number tells the two apart, or they are the same
  cases hx : g.precedenceOf x <;> cases a <;> simp [standing, hx, List.cons_lt_cons_iff]

theorem standing_le_accept (a : Action) : g.standing x a ≤ g.standing x .accept := by
  rw [← not_lt]
  cases hx : g.precedenceOf x <;> cases a <;> simp [standing, hx, List.cons_lt_cons_iff]

/-! ## Section 2: Pairs -/

/-- Two rules stand by their levels, and on one level by their numbers. -/
theorem standing_reduce_lt_iff {r q : Nat} :
    g.standing x (.reduce r) < g.standing x (.reduce q) ↔
      height (g.productionPrecedence r) < height (g.productionPrecedence q) ∨
        height (g.productionPrecedence r) = height (g.productionPrecedence q) ∧ r < q := by
  simp [standing, List.cons_lt_cons_iff]

theorem overcomes_iff {rule : Nat} {p q : Precedence} (hp : g.precedenceOf x = some p)
    (hq : g.productionPrecedence rule = some q) :
    g.Overcomes x rule ↔ p.level < q.level ∨ p.level = q.level ∧ p.associativity = .left := by
  simp [Overcomes, hp, hq]

theorem favoured?_eq_reduce_iff {rule : Nat} :
    Precedence.favoured? (g.precedenceOf x) (g.productionPrecedence rule) = some .reduce ↔
      g.Overcomes x rule := by
  cases hp : g.precedenceOf x with
  | none => simp [Overcomes, hp, Precedence.favoured?]
  | some p =>
    cases hq : g.productionPrecedence rule with
    | none => simp [Overcomes, hq, Precedence.favoured?]
    | some q =>
      rw [overcomes_iff hp hq, Precedence.favoured?, Precedence.favoured_eq_reduce_iff,
        @eq_comm _ q.level]

/-- A shift stands above the rules that do not overcome it. -/
theorem standing_shift_lt_reduce_iff {target rule : Nat} :
    g.standing x (.shift target) < g.standing x (.reduce rule) ↔ g.Overcomes x rule := by
  cases hp : g.precedenceOf x with
  | none => simp [Overcomes, standing, hp, List.cons_lt_cons_iff]
  | some p =>
    cases hq : g.productionPrecedence rule with
    | none => simp [Overcomes, standing, hp, hq, height, List.cons_lt_cons_iff]
    | some q =>
      rw [overcomes_iff hp hq]
      simp only [standing, hp, hq, height, List.cons_lt_cons_iff]
      cases p.associativity <;> grind

theorem chosen_settleShiftReduce (target rule : Nat) :
    (g.settleShiftReduce x target rule).chosen =
      if g.standing x (.shift target) < g.standing x (.reduce rule) then .reduce rule
      else .shift target := by
  rw [settleShiftReduce]
  by_cases hovercomes : g.Overcomes x rule
  · rw [if_pos (standing_shift_lt_reduce_iff.2 hovercomes),
      favoured?_eq_reduce_iff.2 hovercomes]
  · rw [if_neg (mt standing_shift_lt_reduce_iff.1 hovercomes)]
    split
    · rfl
    · next hfavoured => exact absurd (favoured?_eq_reduce_iff.1 hfavoured) hovercomes
    · rfl

/-- Of two rules the higher one is chosen, if both carry a precedence or neither does. -/
theorem chosen_settleReduceReduce {r q : Nat}
    (h : (g.productionPrecedence r).isSome = (g.productionPrecedence q).isSome) :
    (g.settleReduceReduce r q).chosen =
      if g.standing x (.reduce r) < g.standing x (.reduce q) then .reduce q else .reduce r := by
  simp only [standing_reduce_lt_iff]
  have hmeet : g.RulesMeet r q (g.settleReduceReduce r q) := rulesMeet_settleReduceReduce r q
  generalize g.settleReduceReduce r q = settled at hmeet ⊢
  cases hmeet with
  | stays ha hb hlevel =>
    rw [if_neg]
    simp only [ha, hb, height]
    omega
  | comes ha hb hlevel =>
    rw [if_pos]
    simp only [ha, hb, height]
    omega
  | same heq => simp [heq]
  | byDefault hne hlevels =>
    -- the heights are the same, and the greater number stands higher
    have hheight : height (g.productionPrecedence r) = height (g.productionPrecedence q) := by
      cases ha : g.productionPrecedence r with
      | none => rw [show g.productionPrecedence q = none by simpa [ha] using h]
      | some a =>
        obtain ⟨b, hb⟩ := Option.isSome_iff_exists.1 (by simpa [ha] using h.symm)
        rw [hb, height, height, hlevels a b ha hb]
    rw [hheight]
    by_cases hlt : r < q
    · simp [hlt, max_eq_right hlt.le]
    · simp [hlt, max_eq_left (not_lt.1 hlt)]

theorem standing_le_ite (a b : Action) :
    g.standing x a ≤ g.standing x (if g.standing x a < g.standing x b then b else a) ∧
      g.standing x b ≤ g.standing x (if g.standing x a < g.standing x b then b else a) := by
  split
  · next hlt => exact ⟨hlt.le, le_refl _⟩
  · next hle => exact ⟨le_refl _, not_lt.1 hle⟩

/-- **A pair is settled for the higher action**, whichever of the two was there first. -/
theorem standing_le_settle {a b : Action} (h : g.Comparable a b) :
    g.standing x a ≤ g.standing x (g.settle x a b).chosen ∧
      g.standing x b ≤ g.standing x (g.settle x a b).chosen := by
  cases a with
  | error => exact ⟨standing_error_le _, le_refl _⟩
  | accept =>
    have hchosen : (g.settle x .accept b).chosen = .accept :=
      chosen_settle_eq_accept_iff.2 (.inl rfl)
    rw [hchosen]
    exact ⟨le_refl _, standing_le_accept b⟩
  | shift target =>
    cases b with
    | shift other => rw [h.shifts target other rfl rfl]; exact ⟨le_refl _, le_refl _⟩
    | reduce rule =>
      rw [settle, chosen_settleShiftReduce]
      exact standing_le_ite _ _
    | accept => exact ⟨standing_le_accept _, le_refl _⟩
    | error => exact ⟨le_refl _, standing_error_le _⟩
  | reduce rule =>
    cases b with
    | shift target =>
      rw [settle, chosen_settleShiftReduce]
      exact (standing_le_ite _ _).symm
    | reduce other =>
      rw [settle, chosen_settleReduceReduce (x := x) (h.rules rule other rfl rfl)]
      exact standing_le_ite _ _
    | accept => exact ⟨standing_le_accept _, le_refl _⟩
    | error => exact ⟨le_refl _, standing_error_le _⟩

/-! ## Section 3: A cell -/

/-- **The maximum of the proposals**: if all that a cell may hold can be compared, what it holds
    in the end stands as high as what it held before and as everything proposed for it. -/
theorem standing_le_settleAll {proposed : Action → Prop}
    (hcomparable : ∀ a b, proposed a → proposed b → g.Comparable a b)
    {held : Action} {bs : List Action} (hheld : proposed held) (hbs : ∀ b ∈ bs, proposed b) :
    g.standing x held ≤ g.standing x (g.settleAll x held bs) ∧
      ∀ b ∈ bs, g.standing x b ≤ g.standing x (g.settleAll x held bs) := by
  induction bs generalizing held with
  | nil => exact ⟨le_refl _, fun b hb => absurd hb List.not_mem_nil⟩
  | cons b rest ih =>
    have hb : proposed b := hbs b List.mem_cons_self
    have hchosen : proposed (g.settle x held b).chosen := of_chosen_settle hheld hb
    -- the higher of the two stays, and the rest only raises it
    obtain ⟨hold, hnew⟩ := standing_le_settle (x := x) (hcomparable _ _ hheld hb)
    obtain ⟨hfirst, hlater⟩ := ih hchosen fun c hc => hbs c (List.mem_cons_of_mem b hc)
    refine ⟨hold.trans hfirst, ?_⟩
    intro c hc
    rcases List.mem_cons.1 hc with rfl | hc
    · exact hnew.trans hfirst
    · exact hlater c hc

/-! ## Section 4: The cells of a compiled table -/

/-- What a cell holds of the actions that its state justifies can be compared, if the rules
    among them are uniform. -/
theorem Uniform.comparable {st : State} (h : g.Uniform st x) {a b : Action}
    (ha : a = .error ∨ g.Justified st x a) (hb : b = .error ∨ g.Justified st x b) :
    g.Comparable a b := by
  constructor
  · intro m n hm hn
    subst hm hn
    -- both lead along the edge of the terminal
    cases ha.resolve_left (by simp) with
    | shift _ _ hfirst =>
      cases hb.resolve_left (by simp) with
      | shift _ _ hsecond => exact Option.some.inj (hfirst.symm.trans hsecond)
  · intro r q hr hq
    subst hr hq
    have hjr := ha.resolve_left (by simp)
    have hjq := hb.resolve_left (by simp)
    rcases h with hall | hnone
    · rw [hall r hjr, hall q hjq]
    · rw [hnone r hjr, hnone q hjq]

/-- There is one highest action. -/
theorem Highest.unique {st : State} {a b : Action} (ha : g.Highest st x a)
    (hb : g.Highest st x b) : a = b := by
  have hle : ∀ {c d : Action}, g.Highest st x c → g.Highest st x d →
      g.standing x c ≤ g.standing x d := by
    intro c d hc hd
    rcases hc.held with rfl | hjustified
    · exact standing_error_le d
    · exact hd.standing_le c hjustified
  exact standing_injective x (le_antisymm (hle ha hb) (hle hb ha))

/-- **Any order**: in whatever order the justified actions are proposed for a cell, it ends with
    the highest. -/
theorem highest_settleAll {st : State} (h : g.Uniform st x) {bs : List Action}
    (hbs : ∀ b, b ∈ bs ↔ g.Justified st x b) : g.Highest st x (g.settleAll x .error bs) := by
  constructor
  · exact (g.settleAll_eq_or x .error bs).imp_right (hbs _).1
  · intro b hb
    exact (standing_le_settleAll (fun a b => h.comparable) (.inl rfl)
      fun c hc => .inr ((hbs c).1 hc)).2 b ((hbs b).2 hb)

/-- **Resolution is a maximum**: let the rules that compete for a cell of a compiled table carry
    a precedence all of them, or none of them. Then the cell holds the highest of the actions
    that its state justifies, in the one total order in which rules go by level and then by
    number and a shift stands above the rules that do not overcome it. An acceptance is above
    all. In whatever order the items of the state are taken up, the cell comes out the same. -/
theorem highest_of_compile {spec : String} {t : ParseTable} (h : compile spec = .ok t) :
    ∃ g, parse spec = .ok g ∧ t.stateCount = g.automaton.size ∧ t.terminals = g.terminals ∧
      (∀ x, Function.Injective (g.standing x)) ∧
      (∀ x r q, g.standing x (.reduce r) < g.standing x (.reduce q) ↔
        height (g.productionPrecedence r) < height (g.productionPrecedence q) ∨
          height (g.productionPrecedence r) = height (g.productionPrecedence q) ∧ r < q) ∧
      (∀ x target rule, g.standing x (.shift target) < g.standing x (.reduce rule) ↔
        g.Overcomes x rule) ∧
      ∀ (s x : Nat) (st : State), g.automaton.states[s]? = some st → x < t.terminals.size →
        g.Uniform st x →
        ∃ a, t.actionCell? s x = some a ∧ g.Highest st x a ∧
          (g.Justified st x .accept → a = .accept) ∧
          ∀ items : List Item, (∀ i, i ∈ items ↔ i ∈ st.items) →
            ∃ ps, g.proposals g.lookahead s st.edges items = .ok ps ∧
              (g.decideAll s .empty ps).1.action x = a := by
  obtain ⟨g, hparse, hg, ht⟩ := exists_tabulates_of_compile h
  refine ⟨g, hparse, ht.stateCount, ht.terminals, standing_injective,
    fun x r q => standing_reduce_lt_iff, fun x target rule => standing_shift_lt_reduce_iff, ?_⟩
  intro s x st hst hx huniform
  rw [ht.terminals] at hx
  have hs : s < t.stateCount := ht.stateCount ▸ (Array.getElem?_eq_some_iff.1 hst).1
  have hterminal : g.isTerminal x = true := isTerminal_iff.2 hx
  obtain ⟨bs, hbs, hcell, -⟩ :=
    exists_settled_of_parseTable (parseTable_of_compile h hparse) hst hx
  have hhighest : g.Highest st x (t.actionAt s x) := by
    rw [hcell]
    exact highest_settleAll huniform fun b => (hbs b).trans (candidate_iff_justified hg hterminal)
  refine ⟨_, ht.actionCell?_eq hs hx, hhighest, ?_, ?_⟩
  · intro haccept
    exact standing_injective x
      (le_antisymm (standing_le_accept _) (hhighest.standing_le _ haccept))
  · intro items hitems
    obtain ⟨ps, hps⟩ := exists_proposals_of_items hg.canonical hst (l := g.lookahead)
      fun i hi => (hitems i).1 hi
    refine ⟨ps, hps, ?_⟩
    -- the items in any order propose what the state justifies
    have hjustified : ∀ b, b ∈ Proposal.actionsFor x ps ↔ g.Justified st x b := by
      intro b
      rw [Proposal.mem_actionsFor, mem_proposals hps, ← candidate_iff_justified hg hterminal]
      simp only [hitems]
      rfl
    rw [(g.cell_decideAll s .empty ps x).1]
    exact (highest_settleAll huniform hjustified).unique hhighest

/-- The rules of a checked list of proposals are uniform: all of them carry a precedence. -/
theorem uniform_of_proposals (hg : g.WellFormed) (hx : x < g.terminalCount) {st : State}
    {s : Nat} {items : List Item} (hitems : ∀ i, i ∈ items ↔ i ∈ st.items)
    (h : (g.proposals g.lookahead s st.edges items).map (fun ps => decide (∀ q ∈ ps,
      ∀ rule < g.productionCount, q = ⟨x, .reduce rule⟩ → (g.productionPrecedence rule).isSome)) =
        .ok true) : g.Uniform st x := by
  obtain ⟨ps, hps, hall⟩ := exists_of_map_decide h
  left
  intro rule hrule
  obtain ⟨p, hp, -⟩ := hrule.first
  have hmem : (⟨x, .reduce rule⟩ : Proposal) ∈ ps := by
    rw [mem_proposals hps]
    simp only [hitems]
    exact (candidate_iff_justified hg (isTerminal_iff.2 hx)).2 hrule
  exact hall _ hmem rule (Array.getElem?_eq_some_iff.1 hp).1 rfl

/-- After `'a'` a shift and two rules compete for `'t'`, one rule of a higher level than the
    shift and one of a lower level. -/
def threeLevels : String :=
  "%left L\n%left 't'\n%left H\n" ++
    "%% s : 'a' 't' | b 't' | c 't' ; b : 'a' %prec H ; c : 'a' %prec L ; %%"

/-- The rule of the highest level is reduced, also if the items come in reverse. -/
theorem highest_of_compile_levels :
    ∃ t g st ps,
      compile threeLevels = .ok t ∧ parse threeLevels = .ok g ∧
      g.automaton.states[1]? = some st ∧ g.Uniform st 1 ∧ g.Justified st 1 (.shift 5) ∧
      t.actionCell? 1 1 = some (.reduce 4) ∧
      g.proposals g.lookahead 1 st.edges st.items.toList.reverse = .ok ps ∧
      (g.decideAll 1 .empty ps).1.action 1 = .reduce 4 := by
  have htable : (compile threeLevels).map (fun t => decide
      (1 < t.terminals.size ∧ t.actionCell? 1 1 = some (.reduce 4))) = .ok true := by
    decide +kernel
  have hgrammar : (parse threeLevels).map (fun g => decide
      (∃ st ∈ g.automaton.states[1]?, (⟨1, 1⟩ : Item) ∈ st.items ∧ st.edges.find 1 = some 5 ∧
        (⟨1, 1⟩ : Item).nextSymbol g = some 1 ∧
        (g.proposals g.lookahead 1 st.edges st.items.toList).map (fun ps => decide (∀ q ∈ ps,
          ∀ rule < g.productionCount, q = ⟨1, .reduce rule⟩ →
            (g.productionPrecedence rule).isSome)) = .ok true)) = .ok true := by
    decide +kernel
  obtain ⟨t, hcompile, hsize, hcell⟩ := exists_of_map_decide htable
  obtain ⟨g, hparse, st, hst, hitem, hedge, hnext, hchecked⟩ := exists_of_map_decide hgrammar
  obtain ⟨g', hparse', hg, ht⟩ := exists_tabulates_of_compile hcompile
  obtain rfl := Except.ok.inj (hparse.symm.trans hparse')
  have huniform : g.Uniform st 1 :=
    uniform_of_proposals hg (show 1 < g.terminals.size by rwa [← ht.terminals])
      (fun i => Iff.rfl) hchecked
  obtain ⟨g', hparse', -, -, -, -, -, hcells⟩ := highest_of_compile hcompile
  obtain rfl := Except.ok.inj (hparse.symm.trans hparse')
  obtain ⟨a, ha, -, -, horder⟩ := hcells 1 1 st hst hsize huniform
  obtain rfl := Option.some.inj (hcell.symm.trans ha)
  obtain ⟨ps, hps, haction⟩ := horder st.items.toList.reverse (fun i => List.mem_reverse)
  exact ⟨t, g, st, ps, hcompile, hparse, hst, huniform, .shift hitem hnext hedge, hcell, hps,
    haction⟩

end Grammar

end SlrCompiler
