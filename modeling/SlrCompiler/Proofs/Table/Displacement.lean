import SlrCompiler.Proofs.Table.Ranking

/-! # How a reduction displaces a shift

    Where an item of a state has a terminal after its dot, a shift is proposed for
    the cell of that terminal. A reduction takes its place only if its rule
    overcomes it: both carry a precedence, and the rule's is the stronger one. That
    is so each time that a shift and a reduction meet.

    It need not be so of what the cell holds in the end. A rule may displace the
    shift by its precedence and then meet a rule that carries none: these two are
    settled by their numbers, and the later rule is kept although it would have lost
    against the shift (`not_overcomes_of_compile`). This is the one way around the
    shift, and it leaves a trace: the choice went by default, so the table lists it
    as a conflict (`overcomes_or_unseated_of_compile`).

    The proof follows the proposals in order. Until the shift has been proposed
    nothing is known of the cell, but from then on the cell holds the shift or a rule
    that overcomes it (`Held`), or the trace has been left.
-/

namespace SlrCompiler

namespace Grammar

variable (g : Grammar)

/-! ## Section 1: What a cell may hold after a shift -/

/-- The cell of a terminal is filled, and a rule in it overcomes the shift. -/
structure Held (x : Nat) (a : Action) : Prop where
  ne_error : a ≠ .error
  overcomes : ∀ rule, a = .reduce rule → g.Overcomes x rule

/-- A rule that overcomes the shift met a later rule without precedence and gave way to it. -/
def Unseated (state x : Nat) (c : Conflict) : Prop :=
  ∃ r q, c = ⟨state, x, .reduceReduce, .reduce r, .reduce q, .reduce q⟩ ∧
    g.Overcomes x r ∧ g.productionPrecedence q = none ∧ r < q

variable {g} {x : Nat}

theorem held_shift (target : Nat) : g.Held x (.shift target) := ⟨by simp, by simp⟩

theorem held_accept : g.Held x .accept := ⟨by simp, by simp⟩

theorem held_reduce {rule : Nat} (h : g.Overcomes x rule) : g.Held x (.reduce rule) := by
  refine ⟨by simp, ?_⟩
  intro r hr
  obtain rfl := Action.reduce.inj hr
  exact h

/-- A rule of no lower level overcomes what the other overcomes. -/
theorem Overcomes.of_level_le {r q : Nat} {a b : Precedence} (h : g.Overcomes x r)
    (ha : g.productionPrecedence r = some a) (hb : g.productionPrecedence q = some b)
    (hle : a.level ≤ b.level) : g.Overcomes x q := by
  obtain ⟨p, a', hp, ha', hover⟩ := h
  obtain rfl := Option.some.inj (ha.symm.trans ha')
  refine ⟨p, b, hp, hb, ?_⟩
  rcases hover with hlt | ⟨heq, hleft⟩
  · exact .inl (by omega)
  · by_cases hb : p.level < b.level
    · exact .inl hb
    · exact .inr ⟨by omega, hleft⟩

/-! ## Section 2: One proposal -/

/-- Where a shift and a rule meet, the rule is taken only if it overcomes the shift. -/
theorem held_settleShiftReduce (target rule : Nat) :
    g.Held x (g.settleShiftReduce x target rule).chosen := by
  rw [chosen_settleShiftReduce]
  split
  · next hlt => exact held_reduce (standing_shift_lt_reduce_iff.1 hlt)
  · exact held_shift target

/-- Whatever a cell held, after a shift has been proposed it holds the shift or a rule that
    overcomes it. -/
theorem held_settle_shift (a : Action) (target : Nat) :
    g.Held x (g.settle x a (.shift target)).chosen := by
  cases a with
  | error => exact held_shift target
  | shift other => exact held_shift other
  | accept => exact held_accept
  | reduce rule => exact held_settleShiftReduce target rule

/-- A rule that overcomes the shift gives way only to one that does so too, or to a later one
    without precedence. -/
theorem held_settleReduceReduce {r q : Nat} (h : g.Overcomes x r) :
    g.Held x (g.settleReduceReduce r q).chosen ∨
      g.settleReduceReduce r q = ⟨.reduce q, some .reduceReduce⟩ ∧
        g.productionPrecedence q = none ∧ r < q := by
  have hmeet : g.RulesMeet r q (g.settleReduceReduce r q) := rulesMeet_settleReduceReduce r q
  generalize g.settleReduceReduce r q = settled at hmeet ⊢
  cases hmeet with
  | stays => exact .inl (held_reduce h)
  | comes ha hb hlevel => exact .inl (held_reduce (h.of_level_le ha hb hlevel.le))
  | same heq => exact .inl (held_reduce (heq ▸ h))
  | byDefault hne hlevels =>
    rcases max_choice r q with hmax | hmax
    · rw [hmax]
      exact .inl (held_reduce h)
    · rw [hmax]
      -- the later rule overcomes the shift as well if it has a level, which is the same one
      obtain ⟨-, a, -, ha, -⟩ := id h
      cases hb : g.productionPrecedence q with
      | none => exact .inr ⟨rfl, rfl, lt_of_le_of_ne (max_eq_right_iff.1 hmax) hne⟩
      | some b => exact .inl (held_reduce (h.of_level_le ha hb (hlevels a b ha hb).le))

/-- **One step**: from the shift on, a proposal leaves the shift or a rule that overcomes it, or
    it leaves the trace of a rule that was unseated. -/
theorem held_settle {a b : Action} (h : g.Held x a) :
    g.Held x (g.settle x a b).chosen ∨
      ∃ r q, a = .reduce r ∧ b = .reduce q ∧
        g.settle x a b = ⟨.reduce q, some .reduceReduce⟩ ∧
        g.Overcomes x r ∧ g.productionPrecedence q = none ∧ r < q := by
  cases a with
  | error => exact absurd rfl h.ne_error
  | accept =>
    have hchosen : (g.settle x .accept b).chosen = .accept :=
      chosen_settle_eq_accept_iff.2 (.inl rfl)
    left
    rw [hchosen]
    exact held_accept
  | shift target =>
    left
    cases b with
    | reduce rule => exact held_settleShiftReduce target rule
    | accept => exact held_accept
    | _ => exact held_shift target
  | reduce r =>
    have hover := h.overcomes r rfl
    cases b with
    | shift target => exact .inl (held_settle_shift _ target)
    | accept => exact .inl held_accept
    | error => exact .inl h
    | reduce q =>
      rcases held_settleReduceReduce (q := q) hover with hheld | ⟨hsettle, hnone, hlt⟩
      · exact .inl hheld
      · exact .inr ⟨r, q, rfl, rfl, hsettle, hover, hnone, hlt⟩

/-! ## Section 3: All proposals -/

/-- **The run**: once a cell holds a shift or a rule that overcomes it, and also if a shift is yet
    to be proposed, the cell ends so, or a rule was unseated on the way. -/
theorem held_settleAll {state : Nat} {held : Action} {bs : List Action}
    (h : g.Held x held ∨ ∃ target, .shift target ∈ bs) :
    g.Held x (g.settleAll x held bs) ∨
      ∃ d ∈ g.decisionsFor state x held bs, ∃ c, d.conflict? = some c ∧
        g.Unseated state x c := by
  induction bs generalizing held with
  | nil =>
    rcases h with hheld | ⟨target, hmem⟩
    · exact .inl hheld
    · exact absurd hmem List.not_mem_nil
  | cons b rest ih =>
    -- what holds of the rest of the proposals holds of them all
    have hrest : g.Held x (g.settle x held b).chosen ∨ (∃ target, .shift target ∈ rest) →
        g.Held x (g.settleAll x held (b :: rest)) ∨
          ∃ d ∈ g.decisionsFor state x held (b :: rest), ∃ c, d.conflict? = some c ∧
            g.Unseated state x c := by
      intro hlater
      rcases ih hlater with hheld | ⟨d, hd, htrace⟩
      · exact .inl hheld
      · exact .inr ⟨d, List.mem_cons_of_mem _ hd, htrace⟩
    rcases h with hheld | ⟨target, hmem⟩
    · rcases held_settle (b := b) hheld with hnext | htrace
      · exact hrest (.inl hnext)
      · -- the decision on this proposal is the trace
        obtain ⟨r, q, rfl, rfl, hsettle, hover, hnone, hlt⟩ := htrace
        refine .inr ⟨_, List.mem_cons_self, _, ?_, r, q, rfl, hover, hnone, hlt⟩
        rw [Decision.conflict?, hsettle]
        rfl
    · rcases List.mem_cons.1 hmem with rfl | hmem
      · exact hrest (.inl (held_settle_shift held target))
      · exact hrest (.inr ⟨target, hmem⟩)

/-! ## Section 4: The cells of a compiled table -/

/-- **Displaced shifts**: where an item of a state has a terminal after its dot, a compiled table
    reduces by a rule that overcomes the shift, unless the table lists the conflict in which such
    a rule gave way to a later one without precedence. -/
theorem overcomes_or_unseated_of_compile {spec : String} {t : ParseTable}
    (h : compile spec = .ok t) :
    ∃ g, parse spec = .ok g ∧ t.stateCount = g.automaton.size ∧ t.terminals = g.terminals ∧
      ∀ (s x rule : Nat) (st : State) (i : Item), g.automaton.states[s]? = some st →
        x < t.terminals.size → i ∈ st.items → i.nextSymbol g = some x →
        t.actionCell? s x = some (.reduce rule) →
        g.Overcomes x rule ∨ ∃ c ∈ t.conflicts, g.Unseated s x c := by
  obtain ⟨g, hparse, hg, ht⟩ := exists_tabulates_of_compile h
  refine ⟨g, hparse, ht.stateCount, ht.terminals, ?_⟩
  intro s x rule st i hst hx hi hnext hcell
  rw [ht.terminals] at hx
  have hs : s < t.stateCount := ht.stateCount ▸ (Array.getElem?_eq_some_iff.1 hst).1
  rw [ht.actionCell?_eq hs hx] at hcell
  obtain ⟨bs, hbs, hsettled, hconflicts⟩ :=
    exists_settled_of_parseTable (parseTable_of_compile h hparse) hst hx
  rw [hsettled] at hcell
  -- the item proposes the shift along the edge of the terminal
  obtain ⟨target, htarget, -⟩ := hg.canonical.exists_goto_of_nextSymbol hst hi hnext
  have hshift : .shift target ∈ bs :=
    (hbs _).2 ⟨i, hi, .shift hnext (isTerminal_iff.2 hx) htarget⟩
  rcases held_settleAll (.inr ⟨target, hshift⟩) with hheld | ⟨d, hd, c, hc, hunseated⟩
  · exact .inl (hheld.overcomes rule (Option.some.inj hcell))
  · exact .inr ⟨c, hconflicts d hd c hc, hunseated⟩

/-- After `'a'` a shift and two rules compete for `'t'`: the first rule is of a higher level than
    the shift, the second carries no precedence. -/
def bareRule : String :=
  "%left 't'\n%left HIGH\n" ++
    "%% s : 'a' 't' 'z' | b 't' 'z' | c 't' 'y' ; b : 'a' %prec HIGH ; c : 'a' ; %%"

theorem exists_cell_bareRule :
    ∃ t g st, compile bareRule = .ok t ∧ parse bareRule = .ok g ∧
      g.automaton.states[1]? = some st ∧ (⟨1, 1⟩ : Item) ∈ st.items ∧
      (⟨1, 1⟩ : Item).nextSymbol g = some 0 ∧ 0 < t.terminals.size ∧
      t.actionCell? 1 0 = some (.reduce 5) ∧ g.productionPrecedence 5 = none := by
  have htable : (compile bareRule).map (fun t => decide
      (0 < t.terminals.size ∧ t.actionCell? 1 0 = some (.reduce 5))) = .ok true := by
    decide +kernel
  have hgrammar : (parse bareRule).map (fun g => decide
      (∃ st ∈ g.automaton.states[1]?, (⟨1, 1⟩ : Item) ∈ st.items ∧
        (⟨1, 1⟩ : Item).nextSymbol g = some 0 ∧ g.productionPrecedence 5 = none)) = .ok true := by
    decide +kernel
  obtain ⟨t, hcompile, hsize, hcell⟩ := exists_of_map_decide htable
  obtain ⟨g, hparse, st, hst, hitem, hnext, hnone⟩ := exists_of_map_decide hgrammar
  exact ⟨t, g, st, hcompile, hparse, hst, hitem, hnext, hsize, hcell, hnone⟩

/-- The trace that the lost shift has left. -/
theorem overcomes_or_unseated_of_compile_bareRule :
    ∃ t g st, compile bareRule = .ok t ∧ parse bareRule = .ok g ∧
      g.automaton.states[1]? = some st ∧ (⟨1, 1⟩ : Item) ∈ st.items ∧
      (⟨1, 1⟩ : Item).nextSymbol g = some 0 ∧ 0 < t.terminals.size ∧
      t.actionCell? 1 0 = some (.reduce 5) ∧ ¬ g.Overcomes 0 5 ∧
      ∃ c ∈ t.conflicts, g.Unseated 1 0 c := by
  obtain ⟨t, g, st, hcompile, hparse, hst, hitem, hnext, hsize, hcell, hnone⟩ :=
    exists_cell_bareRule
  have hnot : ¬ g.Overcomes 0 5 := by simp [Overcomes, hnone]
  obtain ⟨g', hparse', -, -, hcells⟩ := overcomes_or_unseated_of_compile hcompile
  obtain rfl := Except.ok.inj (hparse.symm.trans hparse')
  have hunseated := (hcells 1 0 5 st ⟨1, 1⟩ hst hsize hitem hnext hcell).resolve_left hnot
  exact ⟨t, g, st, hcompile, hparse, hst, hitem, hnext, hsize, hcell, hnot, hunseated⟩

/-- **A shift can be lost to a rule without precedence**: it is not so that the rule by which a
    cell reduces always overcomes the shift that is proposed there. -/
theorem not_overcomes_of_compile :
    ¬ ∀ (spec : String) (t : ParseTable) (g : Grammar), compile spec = .ok t →
      parse spec = .ok g → ∀ (s x rule : Nat) (st : State) (i : Item),
        g.automaton.states[s]? = some st → i ∈ st.items → i.nextSymbol g = some x →
        t.actionCell? s x = some (.reduce rule) → g.Overcomes x rule := by
  intro hall
  obtain ⟨t, g, st, hcompile, hparse, hst, hitem, hnext, -, hcell, hnone⟩ := exists_cell_bareRule
  obtain ⟨p, q, -, hq, -⟩ :=
    hall bareRule t g hcompile hparse 1 0 5 st ⟨1, 1⟩ hst hitem hnext hcell
  simp [hnone] at hq

end Grammar

end SlrCompiler
