import SlrCompiler.Proofs.Table.Ranking

/-! # What the list of conflicts tells

    A choice that goes by default is recorded, and a choice that precedence decides
    is not. Here is what a reader of the records can conclude about the cells.

    The last record of a cell need not be the end of it. What was chosen there by
    default may meet an action later that outweighs it, and that is settled without
    a record (`not_lastChosen_of_compile`). Nothing else can happen: the cell holds
    what the last record chose, or an action that outweighs it
    (`lastChosen_or_outweighs_of_compile`). After the last record each proposal leaves
    the cell as it is or puts a heavier action there (`settle_eq_or_outweighs`), and
    what is heavier at the end is heavier than at the start: to outweigh is to have
    the larger of two numbers (`outweighs_iff`).

    In a cell whose rules carry no precedence there is nothing to outweigh. There the
    records are complete: one exists exactly if the state justifies two different
    actions (`recorded_iff_of_compile`).
-/

namespace SlrCompiler

namespace Grammar

variable (g : Grammar)

/-! ## Section 1: Weights -/

/-- Precedence prefers the first action to the second, and both carry one: a rule that overcomes
    the shift, a shift to rules of a lower level, or of its own if the terminal is
    right-associative, and a rule to rules of a lower level. -/
def Outweighs (x : Nat) : Action → Action → Prop
  | .reduce rule, .shift _ => g.Overcomes x rule
  | .shift _, .reduce rule =>
    ∃ p q, g.precedenceOf x = some p ∧ g.productionPrecedence rule = some q ∧
      (q.level < p.level ∨ q.level = p.level ∧ p.associativity = .right)
  | .reduce r, .reduce q =>
    ∃ a b, g.productionPrecedence r = some a ∧ g.productionPrecedence q = some b ∧
      b.level < a.level
  | _, _ => False

/-- What an action weighs at a terminal, if it carries a precedence. Between the rules of one
    level and those of the next there is room for the shifts. -/
def weight (x : Nat) : Action → Option Nat
  | .reduce rule => (g.productionPrecedence rule).map fun q => 3 * q.level + 1
  | .shift _ => (g.precedenceOf x).map fun p => match p.associativity with
    | .left => 3 * p.level
    | .nonassoc => 3 * p.level + 1
    | .right => 3 * p.level + 2
  | .accept => none
  | .error => none

variable {g} {x : Nat}

/-- Precedence prefers what weighs more. -/
theorem outweighs_iff {a b : Action} : g.Outweighs x a b ↔
    ∃ m n, g.weight x a = some m ∧ g.weight x b = some n ∧ n < m := by
  cases a with
  | accept => simp [Outweighs, weight]
  | error => simp [Outweighs, weight]
  | shift target =>
    cases b with
    | accept => simp [Outweighs, weight]
    | error => simp [Outweighs, weight]
    | shift other =>
      -- shifts at one terminal weigh the same
      simp only [Outweighs, false_iff]
      rintro ⟨m, n, hm, hn, hlt⟩
      obtain rfl := Option.some.inj (hm.symm.trans hn)
      exact absurd hlt (lt_irrefl m)
    | reduce rule =>
      rw [Outweighs]
      cases hp : g.precedenceOf x with
      | none => simp [weight, hp]
      | some p =>
        cases hq : g.productionPrecedence rule with
        | none => simp [weight, hq]
        | some q => cases h : p.associativity <;> simp [weight, hp, hq, h] <;> omega
  | reduce r =>
    cases b with
    | accept => simp [Outweighs, weight]
    | error => simp [Outweighs, weight]
    | shift target =>
      rw [Outweighs, Overcomes]
      cases hp : g.precedenceOf x with
      | none => simp [weight, hp]
      | some p =>
        cases hq : g.productionPrecedence r with
        | none => simp [weight, hq]
        | some q => cases h : p.associativity <;> simp [weight, hp, hq, h] <;> omega
    | reduce q =>
      rw [Outweighs]
      cases ha : g.productionPrecedence r with
      | none => simp [weight, ha]
      | some a =>
        cases hb : g.productionPrecedence q with
        | none => simp [weight, hb]
        | some b => simp [weight, ha, hb]

theorem Outweighs.trans {a b c : Action} (hab : g.Outweighs x a b) (hbc : g.Outweighs x b c) :
    g.Outweighs x a c := by
  rw [outweighs_iff] at *
  obtain ⟨k, m, hk, hm, hlt⟩ := hab
  obtain ⟨m', n, hm', hn, hlt'⟩ := hbc
  obtain rfl := Option.some.inj (hm.symm.trans hm')
  exact ⟨k, n, hk, hn, hlt'.trans hlt⟩

/-! ## Section 2: One proposal -/

theorem favoured?_eq_shift_iff {rule : Nat} (target : Nat) :
    Precedence.favoured? (g.precedenceOf x) (g.productionPrecedence rule) = some .shift ↔
      g.Outweighs x (.shift target) (.reduce rule) := by
  rw [Outweighs]
  cases hp : g.precedenceOf x with
  | none => simp [Precedence.favoured?]
  | some p =>
    cases hq : g.productionPrecedence rule with
    | none => simp [Precedence.favoured?]
    | some q =>
      simp [Precedence.favoured?, Precedence.favoured_eq_shift_iff]

/-- A shift and a rule that meet without a conflict are settled for the heavier one. -/
theorem chosen_settleShiftReduce_of_quiet {target rule : Nat}
    (hquiet : (g.settleShiftReduce x target rule).conflict = none) :
    (g.settleShiftReduce x target rule).chosen = .shift target ∧
        g.Outweighs x (.shift target) (.reduce rule) ∨
      (g.settleShiftReduce x target rule).chosen = .reduce rule ∧
        g.Outweighs x (.reduce rule) (.shift target) := by
  unfold settleShiftReduce at hquiet ⊢
  split
  · next hshift => exact .inl ⟨rfl, (favoured?_eq_shift_iff target).1 hshift⟩
  · next hreduce => exact .inr ⟨rfl, favoured?_eq_reduce_iff.1 hreduce⟩
  · next hnone => simp [hnone] at hquiet

/-- Two rules that meet without a conflict are the same or are settled for the heavier one. -/
theorem chosen_settleReduceReduce_of_quiet {r q : Nat}
    (hquiet : (g.settleReduceReduce r q).conflict = none) :
    (g.settleReduceReduce r q).chosen = .reduce r ∨
      (g.settleReduceReduce r q).chosen = .reduce q ∧
        g.Outweighs x (.reduce q) (.reduce r) := by
  have hmeet : g.RulesMeet r q (g.settleReduceReduce r q) := rulesMeet_settleReduceReduce r q
  generalize g.settleReduceReduce r q = settled at hquiet hmeet ⊢
  cases hmeet with
  | stays => exact .inl rfl
  | @comes a b ha hb hlevel => exact .inr ⟨rfl, b, a, hb, ha, hlevel⟩
  | same heq => exact .inl (congrArg Action.reduce heq.symm)
  | byDefault => simp at hquiet

/-- **One step**: a filled cell that is settled without a conflict keeps its action or takes one
    that outweighs it. Only an acceptance would displace a shift otherwise. -/
theorem settle_eq_or_outweighs {a b : Action} (ha : a ≠ .error)
    (hmeet : b = .accept → ∀ target, a ≠ .shift target)
    (hquiet : (g.settle x a b).conflict = none) :
    (g.settle x a b).chosen = a ∨ g.Outweighs x (g.settle x a b).chosen a := by
  -- Without a conflict a newcomer is taken only where a rule meets a shift or another rule.
  cases a with
  | error => exact absurd rfl ha
  | accept => exact .inl (chosen_settle_eq_accept_iff.2 (.inl rfl))
  | shift target =>
    cases b with
    | reduce rule =>
      rw [settle] at hquiet ⊢
      rcases chosen_settleShiftReduce_of_quiet hquiet with ⟨hchosen, -⟩ | ⟨hchosen, hover⟩
      · exact .inl hchosen
      · rw [hchosen]
        exact .inr hover
    | accept => exact absurd rfl (hmeet rfl target)
    | _ => exact .inl rfl
  | reduce rule =>
    cases b with
    | shift target =>
      rw [settle] at hquiet ⊢
      rcases chosen_settleShiftReduce_of_quiet hquiet with ⟨hchosen, hover⟩ | ⟨hchosen, -⟩
      · rw [hchosen]
        exact .inr hover
      · exact .inl hchosen
    | reduce other =>
      rw [settle] at hquiet ⊢
      rcases chosen_settleReduceReduce_of_quiet (x := x) hquiet with hchosen | ⟨hchosen, hover⟩
      · exact .inl hchosen
      · rw [hchosen]
        exact .inr hover
    | accept => simp [settle] at hquiet
    | error => exact .inl rfl

/-! ## Section 3: All proposals -/

section Run

/- What may be proposed for a cell; a shift and an acceptance are not both. -/
variable {proposed : Action → Prop} (hproper : ∀ b, proposed b → b ≠ .error)
  (hmeet : proposed .accept → ∀ target, ¬ proposed (.shift target))
include hproper hmeet

/-- **A quiet run**: if no choice goes by default, a filled cell ends with the action it held or
    with one that outweighs it. -/
theorem settleAll_eq_or_outweighs {state : Nat} {held : Action} {bs : List Action}
    (hheld : proposed held) (hbs : ∀ b ∈ bs, proposed b)
    (hquiet : (g.decisionsFor state x held bs).filterMap Decision.conflict? = []) :
    g.settleAll x held bs = held ∨ g.Outweighs x (g.settleAll x held bs) held := by
  induction bs generalizing held with
  | nil => exact .inl rfl
  | cons b rest ih =>
    have hb : proposed b := hbs b List.mem_cons_self
    rw [List.filterMap_eq_nil_iff] at hquiet
    have hfirst := Decision.conflict?_eq_none_iff.1 (hquiet _ List.mem_cons_self)
    have hstep := settle_eq_or_outweighs (hproper held hheld)
      (fun heq target hshift => hmeet (heq ▸ hb) target (hshift ▸ hheld)) hfirst
    have hchosen : proposed (g.settle x held b).chosen := of_chosen_settle hheld hb
    have hrest := ih hchosen (fun c hc => hbs c (List.mem_cons_of_mem b hc))
      (List.filterMap_eq_nil_iff.2 fun d hd => hquiet d (List.mem_cons_of_mem _ hd))
    rw [settleAll]
    -- what outweighs the action chosen here outweighs the one before it
    rcases hstep with hkept | houtweighs
    · rwa [hkept] at hrest ⊢
    · rcases hrest with hkept | hheavier
      · rw [hkept]
        exact .inr houtweighs
      · exact .inr (hheavier.trans houtweighs)

/-- **The run from the last record on**: a cell ends with what was chosen by default last, or
    with an action that outweighs it. -/
theorem settleAll_eq_chosen_or_outweighs {state : Nat} {held : Action} {bs : List Action}
    {c : Conflict} (hheld : held = .error ∨ proposed held) (hbs : ∀ b ∈ bs, proposed b)
    (hlast : ((g.decisionsFor state x held bs).filterMap Decision.conflict?).getLast? = some c) :
    g.settleAll x held bs = c.chosen ∨ g.Outweighs x (g.settleAll x held bs) c.chosen := by
  -- The induction is on the proposals: the last record is about the first of them, or it is
  -- also the last one of the others.
  induction bs generalizing held with
  | nil => simp [decisionsFor] at hlast
  | cons b rest ih =>
    have hb : proposed b := hbs b List.mem_cons_self
    have hlater : ∀ b ∈ rest, proposed b := fun c hc => hbs c (List.mem_cons_of_mem b hc)
    have hchosen : proposed (g.settle x held b).chosen := by
      rcases hheld with rfl | hheld
      · exact hb
      · exact of_chosen_settle hheld hb
    rw [settleAll]
    rw [decisionsFor, List.filterMap_cons] at hlast
    by_cases hquiet : (g.decisionsFor state x (g.settle x held b).chosen rest).filterMap
        Decision.conflict? = []
    · -- the record is about this proposal, and the rest of the run is quiet
      rw [hquiet] at hlast
      split at hlast
      · simp at hlast
      · next hc =>
        rw [List.getLast?_singleton] at hlast
        obtain rfl := Option.some.inj hlast
        rw [(Decision.of_conflict?_eq_some hc).2.2]
        exact settleAll_eq_or_outweighs hproper hmeet hchosen hlater hquiet
    · refine ih (.inr hchosen) hlater ?_
      split at hlast
      · exact hlast
      · rwa [List.getLast?_cons_of_ne_nil hquiet] at hlast

end Run

/-! ## Section 4: The last record -/

/-- A record of the table is about two different actions that are proposed for one of its
    cells. -/
theorem exists_candidates_of_mem_conflicts (hg : g.WellFormed) {t : ParseTable}
    (h : g.parseTable = .ok t) {c : Conflict} (hc : c ∈ t.conflicts) :
    ∃ st, g.automaton.states[c.state]? = some st ∧ c.terminal < g.terminalCount ∧
      g.Candidate g.lookahead st c.terminal c.existing ∧
      g.Candidate g.lookahead st c.terminal c.proposed ∧ c.existing ≠ c.proposed := by
  obtain ⟨actions, hactions, rfl⟩ := exists_assemble h
  obtain ⟨d, hd, hconflict⟩ := List.mem_filterMap.1 hc
  obtain ⟨st, hst, hproposed, hexisting, hsettled⟩ := exists_candidate_of_mem_decisions hactions hd
  obtain ⟨kind, hkind, rfl⟩ := Option.map_eq_some_iff.1 hconflict
  rw [hsettled] at hkind
  refine ⟨st, hst, (hproposed.inBounds hg hst).1, ?_, hproposed, ?_⟩
  · -- nothing is in conflict with a blank
    refine hexisting.resolve_left fun hblank => ?_
    simp [hblank, settle] at hkind
  · intro hsame
    have hsame : d.existing = d.proposed := hsame
    simp [hsame, settle_self] at hkind

/-- **The last record** of a cell chose what the cell holds, or what the cell holds carries a
    precedence and outweighs the choice. -/
theorem lastChosen_or_outweighs_of_compile {spec : String} {t : ParseTable}
    (h : compile spec = .ok t) :
    ∃ g, parse spec = .ok g ∧ t.stateCount = g.automaton.size ∧ t.terminals = g.terminals ∧
      ∀ (s x : Nat) (c : Conflict), (t.conflictsAt s x).getLast? = some c →
        ∃ a, t.actionCell? s x = some a ∧ (a = c.chosen ∨ g.Outweighs x a c.chosen) := by
  obtain ⟨g, hparse, hg, ht⟩ := exists_tabulates_of_compile h
  have htable := parseTable_of_compile h hparse
  refine ⟨g, hparse, ht.stateCount, ht.terminals, ?_⟩
  intro s x c hlast
  obtain ⟨hc, hcell⟩ := List.mem_filter.1 (List.mem_of_getLast? hlast)
  obtain ⟨rfl, rfl⟩ := of_decide_eq_true hcell
  obtain ⟨st, hst, hx, -⟩ := exists_candidates_of_mem_conflicts hg htable hc
  have hs : c.state < t.stateCount := ht.stateCount ▸ (Array.getElem?_eq_some_iff.1 hst).1
  obtain ⟨bs, hbs, hsettled, hlog⟩ := exists_logged_of_parseTable htable hst hx
  refine ⟨_, ht.actionCell?_eq hs hx, ?_⟩
  rw [hlog] at hlast
  rw [hsettled]
  have hmeet : g.Candidate g.lookahead st c.terminal .accept →
      ∀ target, ¬ g.Candidate g.lookahead st c.terminal (.shift target) :=
    fun haccept => haccept.not_shift_of_accept hg
  exact settleAll_eq_chosen_or_outweighs (fun b hb => hb.ne_error) hmeet (.inl rfl)
    (fun b hb => (hbs b).1 hb) hlast

/-- After `'a'` a shift and two rules compete for `'t'`: the first rule carries no precedence, the
    second is of a higher level than the shift. -/
def lateOverride : String :=
  "%left 't'\n%left HIGH\n" ++
    "%% s : 'a' 't' 'z' | c 't' 'y' | b 't' 'y' ; c : 'a' ; b : 'a' %prec HIGH ; %%"

/-- The record of that cell: the shift was chosen over the first rule. -/
def lateOverrideRecord : Conflict := ⟨1, 0, .shiftReduce, .shift 5, .reduce 4, .shift 5⟩

theorem exists_cell_lateOverride :
    ∃ t, compile lateOverride = .ok t ∧
      (t.conflictsAt 1 0).getLast? = some lateOverrideRecord ∧
      t.actionCell? 1 0 = some (.reduce 5) := by
  have htable : (compile lateOverride).map (fun t => decide
      ((t.conflictsAt 1 0).getLast? = some lateOverrideRecord ∧
        t.actionCell? 1 0 = some (.reduce 5))) = .ok true := by
    decide +kernel
  exact exists_of_map_decide htable

/-- The second rule outweighs the shift that was chosen last. -/
theorem lastChosen_or_outweighs_of_compile_lateOverride :
    ∃ t g, compile lateOverride = .ok t ∧ parse lateOverride = .ok g ∧
      (t.conflictsAt 1 0).getLast? = some lateOverrideRecord ∧
      t.actionCell? 1 0 = some (.reduce 5) ∧ g.Outweighs 0 (.reduce 5) (.shift 5) := by
  obtain ⟨t, hcompile, hlast, hcell⟩ := exists_cell_lateOverride
  obtain ⟨g, hparse, -, -, hcells⟩ := lastChosen_or_outweighs_of_compile hcompile
  obtain ⟨a, ha, hchosen⟩ := hcells 1 0 lateOverrideRecord hlast
  obtain rfl := Option.some.inj (hcell.symm.trans ha)
  exact ⟨t, g, hcompile, hparse, hlast, hcell, hchosen.resolve_left (by simp [lateOverrideRecord])⟩

/-- **The last record is not the last word**: it is not so that a cell always holds what its last
    record chose. -/
theorem not_lastChosen_of_compile :
    ¬ ∀ (spec : String) (t : ParseTable), compile spec = .ok t →
      ∀ (s x : Nat) (c : Conflict), (t.conflictsAt s x).getLast? = some c →
        t.actionCell? s x = some c.chosen := by
  intro hall
  obtain ⟨t, hcompile, hlast, hcell⟩ := exists_cell_lateOverride
  have hchosen := hall lateOverride t hcompile 1 0 lateOverrideRecord hlast
  simp [hcell, lateOverrideRecord] at hchosen

/-! ## Section 5: Cells without precedence -/

/-- **No silent default**: let no rule that a state would reduce at a terminal carry a
    precedence. Then the table has a record about the cell exactly if the state justifies two
    different actions there. In particular, if there are no precedence lines and no conflicts
    then a cell has one justified action at most. -/
theorem recorded_iff_of_compile {spec : String} {t : ParseTable} (h : compile spec = .ok t) :
    ∃ g, parse spec = .ok g ∧ t.stateCount = g.automaton.size ∧ t.terminals = g.terminals ∧
      (∀ (s x : Nat) (st : State), g.automaton.states[s]? = some st → x < t.terminals.size →
        (∀ rule, g.Justified st x (.reduce rule) → g.productionPrecedence rule = none) →
        ((∃ c ∈ t.conflicts, c.state = s ∧ c.terminal = x) ↔
          ∃ a b, g.Justified st x a ∧ g.Justified st x b ∧ a ≠ b)) ∧
      (precedenceLines spec = [] → t.conflicts = [] →
        ∀ (s x : Nat) (st : State), g.automaton.states[s]? = some st → x < t.terminals.size →
          ∀ a b, g.Justified st x a → g.Justified st x b → a = b) := by
  obtain ⟨g, hparse, hg, ht⟩ := exists_tabulates_of_compile h
  have htable := parseTable_of_compile h hparse
  have hcells : ∀ (s x : Nat) (st : State), g.automaton.states[s]? = some st →
      x < t.terminals.size →
      (∀ rule, g.Justified st x (.reduce rule) → g.productionPrecedence rule = none) →
      ((∃ c ∈ t.conflicts, c.state = s ∧ c.terminal = x) ↔
        ∃ a b, g.Justified st x a ∧ g.Justified st x b ∧ a ≠ b) := by
    intro s x st hst hx hrules
    rw [ht.terminals] at hx
    have hterminal : g.isTerminal x = true := isTerminal_iff.2 hx
    constructor
    · intro hrecorded
      obtain ⟨c, hc, rfl, rfl⟩ := hrecorded
      obtain ⟨st', hst', -, hexisting, hproposed, hne⟩ :=
        exists_candidates_of_mem_conflicts hg htable hc
      obtain rfl := Option.some.inj (hst.symm.trans hst')
      exact ⟨_, _, (candidate_iff_justified hg hterminal).1 hexisting,
        (candidate_iff_justified hg hterminal).1 hproposed, hne⟩
    · intro hdistinct
      obtain ⟨a, b, ha, hb, hne⟩ := hdistinct
      by_contra hnone
      simp only [← candidate_iff_justified hg hterminal] at ha hb hrules
      -- without a record any two candidates are the same
      refine hne (ha.alone_of_parseTable htable hst ?_ ?_ b hb).symm
      · intro c hc hcell
        exact hnone ⟨c, hc, hcell⟩
      · intro d hd
        exact ha.eq_of_conflict_eq_none hg hrules hd
  refine ⟨g, hparse, ht.stateCount, ht.terminals, hcells, ?_⟩
  intro hlines hconflicts s x st hst hx a b ha hb
  by_contra hne
  have hproduction := (precedence_eq_none_of_parse hparse hlines).2
  obtain ⟨c, hc, -⟩ :=
    (hcells s x st hst hx fun rule _ => hproduction rule).2 ⟨a, b, ha, hb, hne⟩
  simp [hconflicts] at hc

/-- The dangling `'e'`: after `'i' s` it is shifted, or the first rule is reduced. -/
def danglingElse : String := "%% s : 'i' s | 'i' s 'e' s | 'x' ; %%"

/-- The record of the dangling `'e'` shows that its cell has two actions to choose from. -/
theorem recorded_iff_of_compile_danglingElse :
    ∃ t g st, compile danglingElse = .ok t ∧ parse danglingElse = .ok g ∧
      g.automaton.states[4]? = some st ∧ (∃ c ∈ t.conflicts, c.state = 4 ∧ c.terminal = 3) ∧
      (∀ rule, g.Justified st 3 (.reduce rule) → g.productionPrecedence rule = none) ∧
      ∃ a b, g.Justified st 3 a ∧ g.Justified st 3 b ∧ a ≠ b := by
  have htable : (compile danglingElse).map (fun t => decide
      (3 < t.terminals.size ∧ ∃ c ∈ t.conflicts, c.state = 4 ∧ c.terminal = 3)) = .ok true := by
    decide +kernel
  have hlines : precedenceLines danglingElse = [] := by decide +kernel
  have hgrammar : (parse danglingElse).map (fun g => decide (∃ st ∈ g.automaton.states[4]?, True))
      = .ok true := by
    decide +kernel
  obtain ⟨t, hcompile, hsize, hrecord⟩ := exists_of_map_decide htable
  obtain ⟨g, hparse, st, hst, -⟩ := exists_of_map_decide hgrammar
  obtain ⟨g', hparse', -, -, hcells, -⟩ := recorded_iff_of_compile hcompile
  obtain rfl := Except.ok.inj (hparse.symm.trans hparse')
  have hrules : ∀ rule, g.Justified st 3 (.reduce rule) → g.productionPrecedence rule = none :=
    fun rule _ => (precedence_eq_none_of_parse hparse hlines).2 rule
  exact ⟨t, g, st, hcompile, hparse, hst, hrecord, hrules,
    (hcells 4 3 st hst hsize hrules).1 hrecord⟩

end Grammar

end SlrCompiler
