import SlrCompiler.Proofs.Automaton.ViablePrefix
import SlrCompiler.Proofs.Success
import SlrCompiler.Proofs.Table.Settling

/-! # What the cells of the action table hold

    A cell is filled from the proposals of the items of its state. `Candidate`
    says which actions are proposed for it, without the order of the proposals
    and without the decisions between them. Whatever precedence and default
    decide, the cell ends up with one of its candidates, and it is blank only if
    it has none (`settled_of_actionTable`).

    A reduction by a rule without precedence is in conflict with every other
    candidate (`eq_reduce_of_conflict_eq_none`). In a cell without conflicts a
    candidate of that kind is alone (`Candidate.alone`), and so is every candidate
    if none of the rules among them has a precedence.
-/

namespace SlrCompiler

namespace Grammar

variable (g : Grammar)

/-! ## Section 1: Candidates -/

/-- An item proposes an action for the cell of a terminal. -/
inductive Proposes (l : Lookahead) (edges : IndexMap Nat) (i : Item) : Nat → Action → Prop
  | shift {terminal target : Nat} : i.nextSymbol g = some terminal →
      g.isTerminal terminal = true → edges.find terminal = some target →
      Proposes l edges i terminal (.shift target)
  | reduce {p : Production} {rule terminal : Nat} : i.nextSymbol g = none →
      g.productions[i.production]? = some p → g.matchProduction p.left p.right = some rule →
      rule ≠ 0 → terminal ∈ l.follow p.left → Proposes l edges i terminal (.reduce rule)
  | accept {p : Production} : i.nextSymbol g = none → g.productions[i.production]? = some p →
      g.matchProduction p.left p.right = some 0 → Proposes l edges i g.endMark .accept

/-- Some item of the state proposes the action. -/
def Candidate (l : Lookahead) (st : State) (terminal : Nat) (action : Action) : Prop :=
  ∃ i ∈ st.items, g.Proposes l st.edges i terminal action

variable {g}

theorem Proposes.ne_error {l : Lookahead} {edges : IndexMap Nat} {i : Item} {terminal : Nat}
    {action : Action} (h : g.Proposes l edges i terminal action) : action ≠ .error := by
  cases h <;> simp

theorem Candidate.ne_error {l : Lookahead} {st : State} {x : Nat} {a : Action}
    (h : g.Candidate l st x a) : a ≠ .error := by
  obtain ⟨i, -, hi⟩ := h
  exact hi.ne_error

/-- Shifts at one terminal lead along one edge. -/
theorem Candidate.target_eq {l : Lookahead} {st : State} {x m n : Nat}
    (hm : g.Candidate l st x (.shift m)) (hn : g.Candidate l st x (.shift n)) : m = n := by
  obtain ⟨i, -, hi⟩ := hm
  obtain ⟨j, -, hj⟩ := hn
  cases hi with
  | shift _ _ hfirst =>
    cases hj with
    | shift _ _ hsecond => exact Option.some.inj (hfirst.symm.trans hsecond)

/-- A shift and an acceptance do not meet: the end mark is never shifted. -/
theorem Candidate.not_shift_of_accept (hg : g.WellFormed) {l : Lookahead} {st : State} {x : Nat}
    (h : g.Candidate l st x .accept) (target : Nat) : ¬ g.Candidate l st x (.shift target) := by
  intro hshift
  obtain ⟨i, -, hi⟩ := h
  obtain ⟨j, -, hj⟩ := hshift
  cases hi
  cases hj with
  | shift hnext => exact hg.nextSymbol_ne_endMark j hnext

theorem mem_completeProposals {l : Lookahead} {edges : IndexMap Nat} {i : Item}
    {ps : List Proposal} (hi : i.nextSymbol g = none) (h : g.completeProposals l i = .ok ps)
    {q : Proposal} : q ∈ ps ↔ g.Proposes l edges i q.terminal q.action := by
  unfold completeProposals at h
  split at h
  · simp at h
  rename_i p hp
  -- The number by which the production is found tells acceptance from reduction.
  obtain ⟨terminal, action⟩ := q
  split at h
  · simp at h
  · rename_i hrule
    obtain rfl := Except.ok.inj h
    constructor
    · intro hq
      obtain ⟨rfl, rfl⟩ := Proposal.mk.inj (List.mem_singleton.1 hq)
      exact .accept hi hp hrule
    · intro hq
      cases hq with
      | shift hnext _ _ => simp [hi] at hnext
      | reduce _ hq hmatch hne _ =>
        obtain rfl := Option.some.inj (hp.symm.trans hq)
        exact absurd (Option.some.inj (hmatch.symm.trans hrule)) hne
      | accept _ _ _ => exact List.mem_singleton.2 rfl
  · rename_i rule hne hrule
    obtain rfl := Except.ok.inj h
    simp only [List.mem_map, Proposal.mk.injEq]
    constructor
    · intro h
      obtain ⟨t, ht, hterminal, haction⟩ := h
      subst hterminal haction
      exact .reduce hi hp hrule hne ht
    · intro hq
      cases hq with
      | shift hnext _ _ => simp [hi] at hnext
      | reduce _ hq hmatch _ hterminal =>
        obtain rfl := Option.some.inj (hp.symm.trans hq)
        exact ⟨terminal, hterminal, rfl, by rw [Option.some.inj (hmatch.symm.trans hrule)]⟩
      | accept _ hq hmatch =>
        obtain rfl := Option.some.inj (hp.symm.trans hq)
        exact absurd (Option.some.inj (hrule.symm.trans hmatch)) hne

theorem mem_itemProposals {l : Lookahead} {state : Nat} {edges : IndexMap Nat} {i : Item}
    {ps : List Proposal} (h : g.itemProposals l state edges i = .ok ps) {q : Proposal} :
    q ∈ ps ↔ g.Proposes l edges i q.terminal q.action := by
  unfold itemProposals at h
  split at h
  · exact mem_completeProposals ‹_› h
  rename_i symbol hsymbol
  -- Only a terminal after the dot makes a proposal; a nonterminal has an edge of its own.
  obtain ⟨terminal, action⟩ := q
  split at h
  · rename_i hterminal
    split at h
    · simp at h
    rename_i target htarget
    obtain rfl := Except.ok.inj h
    constructor
    · intro hq
      obtain ⟨rfl, rfl⟩ := Proposal.mk.inj (List.mem_singleton.1 hq)
      exact .shift hsymbol hterminal htarget
    · intro hq
      cases hq with
      | shift hnext _ hfind =>
        obtain rfl := Option.some.inj (hsymbol.symm.trans hnext)
        rw [Option.some.inj (htarget.symm.trans hfind)]
        exact List.mem_singleton.2 rfl
      | reduce hnext _ _ _ _ => simp [hsymbol] at hnext
      | accept hnext _ _ => simp [hsymbol] at hnext
  · rename_i hnonterminal
    obtain rfl := Except.ok.inj h
    refine ⟨fun hq => absurd hq List.not_mem_nil, fun hq => ?_⟩
    cases hq with
    | shift hnext hterminal _ =>
      obtain rfl := Option.some.inj (hsymbol.symm.trans hnext)
      exact absurd hterminal hnonterminal
    | reduce hnext _ _ _ _ => simp [hsymbol] at hnext
    | accept hnext _ _ => simp [hsymbol] at hnext

theorem mem_proposals {l : Lookahead} {state : Nat} {edges : IndexMap Nat} {items : List Item}
    {ps : List Proposal} (h : g.proposals l state edges items = .ok ps) {q : Proposal} :
    q ∈ ps ↔ ∃ i ∈ items, g.Proposes l edges i q.terminal q.action := by
  induction items generalizing ps with
  | nil =>
    obtain rfl := Except.ok.inj h
    simp
  | cons i rest ih =>
    unfold proposals at h
    split at h
    · simp at h
    rename_i first hfirst
    obtain ⟨others, hothers, rfl⟩ := map_eq_ok_iff.1 h
    rw [List.mem_append, mem_itemProposals hfirst, ih hothers]
    simp

/-- A rule whose reduction is proposed is the one that its symbols are looked up to. -/
theorem Candidate.matchProduction_eq {l : Lookahead} {st : State} {x rule : Nat}
    {q : Production} (h : g.Candidate l st x (.reduce rule)) (hq : g.productions[rule]? = some q) :
    g.matchProduction q.left q.right = some rule := by
  obtain ⟨i, -, hi⟩ := h
  cases hi with
  | reduce _ _ hmatch _ _ =>
    obtain ⟨⟨p, hp, hleft, hright⟩, -⟩ := matchProduction_eq_some_iff.1 hmatch
    obtain rfl := Option.some.inj (hq.symm.trans hp)
    rw [hleft, hright, hmatch]

/-! ## Section 2: The table -/

theorem getElem?_fillRows {l : Lookahead} {first : Nat} {states : List State}
    {rows : List (IndexMap Action × List Decision)} (h : g.fillRows l first states = .ok rows) :
    rows.length = states.length ∧ ∀ (n : Nat) (st : State), states[n]? = some st →
      ∃ row, rows[n]? = some row ∧ g.fillRow l (first + n) st = .ok row := by
  induction states generalizing first rows with
  | nil =>
    obtain rfl := Except.ok.inj h
    simp
  | cons s rest ih =>
    unfold fillRows at h
    split at h
    · simp at h
    rename_i row hrow
    obtain ⟨others, hothers, rfl⟩ := map_eq_ok_iff.1 h
    obtain ⟨hlength, hrest⟩ := ih hothers
    refine ⟨by simp [hlength], fun n st hst => ?_⟩
    cases n with
    | zero =>
      obtain rfl := Option.some.inj hst
      exact ⟨row, rfl, hrow⟩
    | succ n =>
      obtain ⟨r, hr, hfill⟩ := hrest n st hst
      exact ⟨r, hr, by rwa [Nat.add_right_comm] at hfill⟩

/-- Every row is filled for a state. -/
theorem exists_fillRow_of_mem {l : Lookahead} {first : Nat} {states : List State}
    {rows : List (IndexMap Action × List Decision)} (h : g.fillRows l first states = .ok rows)
    {row : IndexMap Action × List Decision} (hrow : row ∈ rows) :
    ∃ n st, states[n]? = some st ∧ g.fillRow l (first + n) st = .ok row := by
  obtain ⟨hlength, hfills⟩ := getElem?_fillRows h
  obtain ⟨n, hn⟩ := List.getElem?_of_mem hrow
  have hlt : n < states.length := hlength ▸ (List.getElem?_eq_some_iff.1 hn).1
  have hst := List.getElem?_eq_getElem hlt
  obtain ⟨other, hother, hfill⟩ := hfills n _ hst
  obtain rfl := Option.some.inj (hn.symm.trans hother)
  exact ⟨n, _, hst, hfill⟩

theorem size_actionTable {l : Lookahead} {a : Automaton} {t : ActionTable}
    (h : g.actionTable l a = .ok t) : t.rows.size = a.states.size := by
  obtain ⟨rows, hrows, rfl⟩ := map_eq_ok_iff.1 h
  simpa using (getElem?_fillRows hrows).1

/-! The decisions are listed row by row, and those of a row bear the number of its state. -/

theorem state_of_mem_decideAll {state : Nat} {row : IndexMap Action} {ps : List Proposal}
    {d : Decision} (hd : d ∈ (g.decideAll state row ps).2) : d.state = state := by
  induction ps generalizing row with
  | nil => simp [decideAll] at hd
  | cons p rest ih =>
    rcases List.mem_cons.1 hd with rfl | hd
    · rfl
    · exact ih hd

theorem state_of_mem_fillRow {l : Lookahead} {state : Nat} {st : State}
    {row : IndexMap Action × List Decision} (h : g.fillRow l state st = .ok row) {d : Decision}
    (hd : d ∈ row.2) : d.state = state := by
  obtain ⟨ps, -, rfl⟩ := map_eq_ok_iff.1 h
  exact state_of_mem_decideAll hd

theorem le_state_of_mem_fillRows {l : Lookahead} {first : Nat} {states : List State}
    {rows : List (IndexMap Action × List Decision)} (h : g.fillRows l first states = .ok rows)
    {d : Decision} (hd : d ∈ rows.flatMap Prod.snd) : first ≤ d.state := by
  obtain ⟨row, hrow, hd⟩ := List.mem_flatMap.1 hd
  obtain ⟨n, st, -, hfill⟩ := exists_fillRow_of_mem h hrow
  rw [state_of_mem_fillRow hfill hd]
  exact Nat.le_add_right first n

theorem filter_fillRows {l : Lookahead} {first : Nat} {states : List State}
    {rows : List (IndexMap Action × List Decision)} (h : g.fillRows l first states = .ok rows)
    {n : Nat} {row : IndexMap Action × List Decision} (hn : rows[n]? = some row) :
    ((rows.flatMap Prod.snd).filter fun d => d.state = first + n) = row.2 := by
  induction states generalizing first rows n with
  | nil =>
    obtain rfl := Except.ok.inj h
    simp at hn
  | cons s rest ih =>
    unfold fillRows at h
    split at h
    · simp at h
    rename_i r hr
    obtain ⟨others, hothers, rfl⟩ := map_eq_ok_iff.1 h
    rw [List.flatMap_cons, List.filter_append]
    -- A row has the decisions of its own state, and those of the others are about later ones.
    cases n with
    | zero =>
      obtain rfl := Option.some.inj hn
      have hthis : (r.2.filter fun d => d.state = first + 0) = r.2 :=
        List.filter_eq_self.2 fun d hd => by simp [state_of_mem_fillRow hr hd]
      have hlater : ((others.flatMap Prod.snd).filter fun d => d.state = first + 0) = [] := by
        refine List.filter_eq_nil_iff.2 fun d hd => ?_
        have hle := le_state_of_mem_fillRows hothers hd
        simp only [decide_eq_true_eq]
        omega
      rw [hthis, hlater, List.append_nil]
    | succ n =>
      have hthis : (r.2.filter fun d => d.state = first + (n + 1)) = [] := by
        refine List.filter_eq_nil_iff.2 fun d hd => ?_
        simp [state_of_mem_fillRow hr hd]
      rw [hthis, List.nil_append, ← ih hothers hn]
      simp only [Nat.add_right_comm, Nat.add_assoc]

/-- The row of a state comes from the proposals of its items. -/
theorem exists_proposals {l : Lookahead} {a : Automaton} {t : ActionTable}
    (h : g.actionTable l a = .ok t) {s : Nat} {st : State} (hst : a.states[s]? = some st) :
    ∃ ps, g.proposals l s st.edges st.items.toList = .ok ps ∧
      t.rows[s]? = some (g.decideAll s .empty ps).1 ∧
      (t.decisions.filter fun d => d.state = s) = (g.decideAll s .empty ps).2 := by
  obtain ⟨rows, hrows, rfl⟩ := map_eq_ok_iff.1 h
  obtain ⟨row, hrow, hfill⟩ := (getElem?_fillRows hrows).2 s st (by simpa using hst)
  have hdecisions := filter_fillRows hrows hrow
  rw [Nat.zero_add] at hfill hdecisions
  obtain ⟨ps, hps, rfl⟩ := map_eq_ok_iff.1 hfill
  exact ⟨ps, hps, by simp [hrow], hdecisions⟩

/-- **A cell comes from its candidates**: it is what they lead to in the order of the items, and
    the decisions on the way are those that the table has about the cell. -/
theorem exists_settled {l : Lookahead} {a : Automaton} {t : ActionTable}
    (h : g.actionTable l a = .ok t) {s : Nat} {st : State} (hst : a.states[s]? = some st)
    (x : Nat) : ∃ bs, (∀ b, b ∈ bs ↔ g.Candidate l st x b) ∧
      t.action s x = g.settleAll x .error bs ∧
      (t.decisions.filter fun d => d.state = s ∧ d.terminal = x) =
        g.decisionsFor s x .error bs := by
  obtain ⟨ps, hps, hrow, hdecisions⟩ := exists_proposals h hst
  obtain ⟨haction, hcell⟩ := g.cell_decideAll s .empty ps x
  refine ⟨Proposal.actionsFor x ps, ?_, ?_, ?_⟩
  · intro b
    rw [Proposal.mem_actionsFor, mem_proposals hps]
    rfl
  · rw [ActionTable.action, hrow]
    exact haction
  · simp only [← hdecisions, List.filter_filter, Bool.and_comm (decide (_ = x))] at hcell
    simp only [Bool.decide_and]
    exact hcell

/-- A decision of the table is about candidates of its cell. -/
theorem exists_candidate_of_mem_decisions {l : Lookahead} {a : Automaton} {t : ActionTable}
    (h : g.actionTable l a = .ok t) {d : Decision} (hd : d ∈ t.decisions) :
    ∃ st, a.states[d.state]? = some st ∧ g.Candidate l st d.terminal d.proposed ∧
      (d.existing = .error ∨ g.Candidate l st d.terminal d.existing) ∧
      d.settlement = g.settle d.terminal d.existing d.proposed := by
  obtain ⟨rows, hrows, rfl⟩ := map_eq_ok_iff.1 h
  obtain ⟨row, hrow, hd⟩ := List.mem_flatMap.1 hd
  obtain ⟨n, st, hst, hfill⟩ := exists_fillRow_of_mem hrows hrow
  obtain ⟨ps, hps, rfl⟩ := map_eq_ok_iff.1 hfill
  -- the decision is one about its own cell
  obtain ⟨-, hcell⟩ := g.cell_decideAll (0 + n) .empty ps d.terminal
  have hd : d ∈ g.decisionsFor (0 + n) d.terminal .error (Proposal.actionsFor d.terminal ps) :=
    hcell ▸ List.mem_filter.2 ⟨hd, by simp⟩
  obtain ⟨hstate, -, hproposed, hexisting, hsettled⟩ := of_mem_decisionsFor hd
  have hcandidate : ∀ b ∈ Proposal.actionsFor d.terminal ps, g.Candidate l st d.terminal b :=
    fun b hb => (mem_proposals hps).1 (Proposal.mem_actionsFor.1 hb)
  rw [Nat.zero_add] at hstate
  rw [Array.getElem?_toList] at hst
  exact ⟨_, hstate ▸ hst, hcandidate _ hproposed, hexisting.imp_right (hcandidate _), hsettled⟩

/-- **Settled cells**: a cell holds one of its candidates, or it is blank and
    has none. -/
theorem settled_of_actionTable {l : Lookahead} {a : Automaton} {t : ActionTable}
    (h : g.actionTable l a = .ok t) {s : Nat} {st : State} (hst : a.states[s]? = some st)
    (x : Nat) :
    g.Candidate l st x (t.action s x) ∨
      t.action s x = .error ∧ ∀ action, ¬ g.Candidate l st x action := by
  obtain ⟨bs, hbs, haction, -⟩ := exists_settled h hst x
  rw [haction]
  by_cases hnone : ∃ b, g.Candidate l st x b
  · obtain ⟨b, hb⟩ := hnone
    have hfilled : g.settleAll x .error bs ≠ .error :=
      settleAll_ne_error (.inr ⟨b, (hbs b).2 hb, hb.ne_error⟩)
    exact .inl ((hbs _).1 ((g.settleAll_eq_or x .error bs).resolve_left hfilled))
  · have hblank := (g.settleAll_eq_or x .error bs).resolve_right
      fun hmem => hnone ⟨_, (hbs _).1 hmem⟩
    exact .inr ⟨hblank, fun b hb => hnone ⟨b, hb⟩⟩

/-! ## Section 3: Cells without conflicts -/

section NoConflicts

variable {l : Lookahead} {a : Automaton} {t : ActionTable} (h : g.actionTable l a = .ok t)
  {s x : Nat} {st : State} (hst : a.states[s]? = some st)
  (hconflicts : ∀ c ∈ t.conflicts, ¬ (c.state = s ∧ c.terminal = x))
include h hst hconflicts

/-- A candidate that is in conflict with all others is the only one if no conflict
    is noted for its cell. -/
theorem Candidate.alone {action : Action} (hcandidate : g.Candidate l st x action)
    (hconflict : ∀ b, g.Candidate l st x b → (g.settle x action b).conflict = none ∨
      (g.settle x b action).conflict = none → b = action) :
    ∀ b, g.Candidate l st x b → b = action := by
  obtain ⟨bs, hbs, -, hdecisions⟩ := exists_settled h hst x
  have hnone : ∀ d ∈ g.decisionsFor s x .error bs, d.settlement.conflict = none := by
    intro d hd
    rw [← hdecisions, List.mem_filter, decide_eq_true_eq] at hd
    cases hc : d.conflict? with
    | none => exact Decision.conflict?_eq_none_iff.1 hc
    | some c =>
      obtain ⟨hstate, hterminal, -⟩ := Decision.of_conflict?_eq_some hc
      have hlogged : c ∈ t.conflicts := List.mem_filterMap.2 ⟨d, hd.1, hc⟩
      exact absurd ⟨hstate.trans hd.2.1, hterminal.trans hd.2.2⟩ (hconflicts c hlogged)
  obtain ⟨-, -, hothers⟩ := settleAll_eq hconflict (fun b hb => hb.ne_error) (.inl rfl)
    (fun b hb => (hbs b).1 hb) hnone (.inr ((hbs action).2 hcandidate))
  exact fun b hb => hothers b ((hbs b).2 hb)

end NoConflicts

/-- A reduction by a rule without precedence is in conflict with every other
    action. -/
theorem eq_reduce_of_conflict_eq_none {x rule : Nat} {b : Action}
    (hrule : g.productionPrecedence rule = none) (hb : b ≠ .error)
    (hnone : (g.settle x (.reduce rule) b).conflict = none ∨
      (g.settle x b (.reduce rule)).conflict = none) : b = .reduce rule := by
  have hfavoured : ∀ p, Precedence.favoured? p (g.productionPrecedence rule) = none := by
    intro p
    rw [hrule]
    cases p <;> rfl
  cases b with
  | shift target => simp [settle, settleShiftReduce, hfavoured] at hnone
  | reduce other =>
    by_contra hne
    have hother : other ≠ rule := fun heq => hne (heq ▸ rfl)
    simp only [settle, settleReduceReduce, hrule, if_neg hother, if_neg hother.symm] at hnone
    cases hprecedence : g.productionPrecedence other <;> simp [hprecedence] at hnone
  | accept => simp [settle] at hnone
  | error => exact absurd rfl hb

/-- Where no rule that is proposed for a cell has a precedence, two actions that are
    proposed for it are the same, or a conflict is noted. -/
theorem Candidate.eq_of_conflict_eq_none (hg : g.WellFormed) {l : Lookahead} {st : State}
    {x : Nat} {a b : Action}
    (hrules : ∀ rule, g.Candidate l st x (.reduce rule) → g.productionPrecedence rule = none)
    (ha : g.Candidate l st x a) (hb : g.Candidate l st x b)
    (hnone : (g.settle x a b).conflict = none ∨ (g.settle x b a).conflict = none) : b = a := by
  cases a with
  | reduce rule => exact eq_reduce_of_conflict_eq_none (hrules rule ha) hb.ne_error hnone
  | error => exact absurd rfl ha.ne_error
  | shift target =>
    cases b with
    | shift other => rw [ha.target_eq hb]
    | reduce rule =>
      exact (eq_reduce_of_conflict_eq_none (hrules rule hb) ha.ne_error hnone.symm).symm
    | accept => exact absurd ha (hb.not_shift_of_accept hg target)
    | error => exact absurd rfl hb.ne_error
  | accept =>
    cases b with
    | shift target => exact absurd hb (ha.not_shift_of_accept hg target)
    | reduce rule =>
      exact (eq_reduce_of_conflict_eq_none (hrules rule hb) ha.ne_error hnone.symm).symm
    | accept => rfl
    | error => exact absurd rfl hb.ne_error

end Grammar

end SlrCompiler
