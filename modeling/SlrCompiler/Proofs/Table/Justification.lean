import SlrCompiler.Proofs.Table.ParseTable

/-! # Every cell is justified

    What the items of a state justify in a cell is said here in terms of the
    grammar alone (`Justified`): a shift along the edge of the terminal, a
    reduction wherever FOLLOW has the terminal, an acceptance at the end. For a
    well-formed grammar that is what is proposed when the cell is filled
    (`candidate_iff_justified`). Hence a compiled table is blank only where
    nothing is justified, and holds nothing else elsewhere; where a rule was
    written twice it is the first of the two that is reduced
    (`action_justified_of_compile`).
-/

namespace SlrCompiler

namespace Grammar

variable (g : Grammar)

/-! ## Section 1: What the items of a state justify -/

/-- The items of a state justify an action in the cell of a terminal. -/
inductive Justified (st : State) (x : Nat) : Action → Prop
  | shift {i : Item} {target : Nat} : i ∈ st.items → i.nextSymbol g = some x →
      st.edges.find x = some target → Justified st x (.shift target)
  | reduce {i : Item} {p : Production} {rule : Nat} : i ∈ st.items → i.isComplete g = true →
      i.production ≠ 0 → g.productions[i.production]? = some p →
      x ∈ g.lookahead.follow p.left → g.FirstWith p.left p.right rule →
      Justified st x (.reduce rule)
  | accept {i : Item} : i ∈ st.items → i.isComplete g = true → i.production = 0 →
      x = g.endMark → Justified st x .accept

variable {g}

/-- What is justified is what is proposed. -/
theorem candidate_iff_justified (hg : g.WellFormed) {st : State} {x : Nat} {a : Action}
    (hx : g.isTerminal x = true) : g.Candidate g.lookahead st x a ↔ g.Justified st x a := by
  constructor
  · intro h
    obtain ⟨i, hi, hproposes⟩ := h
    cases hproposes with
    | shift hnext _ htarget => exact .shift hi hnext htarget
    | reduce hnext hp hmatch hne hfollow =>
      obtain ⟨q, -, -, -, hzero⟩ := hg.getElem?_of_matchProduction hp hmatch
      exact .reduce hi ((i.isComplete_iff g).2 hnext) (fun hn => hne (hzero.1 hn)) hp hfollow
        (matchProduction_eq_some_iff.1 hmatch)
    | accept hnext hp hmatch =>
      obtain ⟨q, -, -, -, hzero⟩ := hg.getElem?_of_matchProduction hp hmatch
      exact .accept hi ((i.isComplete_iff g).2 hnext) (hzero.2 rfl) rfl
  · intro h
    cases h with
    | shift hi hnext htarget => exact ⟨_, hi, .shift hnext hx htarget⟩
    | @reduce i p rule hi hcomplete hne hp hfollow hfirst =>
      have hmatch := matchProduction_eq_some_iff.2 hfirst
      obtain ⟨q, -, -, -, hzero⟩ := hg.getElem?_of_matchProduction hp hmatch
      have hrule : rule ≠ 0 := fun heq => hne (hzero.2 heq)
      exact ⟨i, hi, .reduce ((i.isComplete_iff g).1 hcomplete) hp hmatch hrule hfollow⟩
    | @accept i hi hcomplete hproduction hend =>
      -- The augmenting production is the first with its symbols.
      obtain ⟨p, hp, -⟩ := hg.augmenting
      rw [← hproduction] at hp
      obtain ⟨rule, hmatch⟩ := exists_matchProduction hp
      obtain ⟨q, -, -, -, hzero⟩ := hg.getElem?_of_matchProduction hp hmatch
      obtain rfl := hzero.1 hproduction
      exact ⟨i, hi, hend ▸ .accept ((i.isComplete_iff g).1 hcomplete) hp hmatch⟩

/-- A rule that is reduced is the first with its symbols. -/
theorem Justified.first {st : State} {x rule : Nat} (h : g.Justified st x (.reduce rule)) :
    ∃ p, g.productions[rule]? = some p ∧ g.FirstWith p.left p.right rule := by
  cases h with
  | reduce _ _ _ _ _ hfirst =>
    obtain ⟨⟨q, hq, hleft, hright⟩, hbefore⟩ := hfirst
    exact ⟨q, hq, ⟨q, hq, rfl, rfl⟩, by rwa [hleft, hright]⟩

theorem Justified.ne_error {st : State} {x : Nat} {a : Action} (h : g.Justified st x a) :
    a ≠ .error := by
  cases h <;> simp

/-! ## Section 2: The cells of a compiled table -/

/-- A cell of the table holds an action that its state justifies, and it is blank
    exactly if there is none. -/
theorem Tabulates.justified {t : ParseTable} (ht : g.Tabulates t) (hg : g.WellFormed)
    {s x : Nat} {st : State} (hst : g.automaton.states[s]? = some st) (hx : x < g.terminalCount) :
    (t.actionAt s x = .error ↔ ∀ a, ¬ g.Justified st x a) ∧
      (t.actionAt s x ≠ .error → g.Justified st x (t.actionAt s x)) := by
  have hterminal := isTerminal_iff.2 hx
  rcases ht.action hst hx with hcandidate | ⟨hblank, hnone⟩
  · have hjustified := (candidate_iff_justified hg hterminal).1 hcandidate
    exact ⟨⟨fun herror => absurd herror hjustified.ne_error,
      fun hnone => absurd hjustified (hnone _)⟩, fun _ => hjustified⟩
  · refine ⟨⟨fun _ a ha => ?_, fun _ => hblank⟩, fun hne => absurd hblank hne⟩
    exact hnone a ((candidate_iff_justified hg hterminal).2 ha)

/-- **Justified cells**: a compiled table has a cell for every state of the
    automaton and every terminal. It is blank exactly if the items of the state
    justify nothing, and otherwise holds something that they justify. No cell
    reduces by a rule that repeats an earlier one. -/
theorem action_justified_of_compile {spec : String} {t : ParseTable}
    (hcompile : compile spec = .ok t) :
    ∃ g, parse spec = .ok g ∧ t.stateCount = g.automaton.size ∧ t.terminals = g.terminals ∧
      ∀ (s x : Nat) (st : State), g.automaton.states[s]? = some st → x < t.terminals.size →
        ∃ row a, t.actions[s]? = some row ∧ row[x]? = some a ∧
          (a = .error ↔ ∀ b, ¬ g.Justified st x b) ∧ (a ≠ .error → g.Justified st x a) ∧
          ∀ rule, a = .reduce rule → ∀ (j : Nat) (p q : Production), j < rule →
            g.productions[rule]? = some p → g.productions[j]? = some q →
            ¬ (q.left = p.left ∧ q.right = p.right) := by
  obtain ⟨g, hparse, hg, ht⟩ := exists_tabulates_of_compile hcompile
  refine ⟨g, hparse, ht.stateCount, ht.terminals, fun s x st hst hx => ?_⟩
  have hs : s < t.stateCount := ht.stateCount ▸ (Array.getElem?_eq_some_iff.1 hst).1
  rw [ht.terminals] at hx
  obtain ⟨row, hrow, hcell⟩ := ht.exists_cell hs hx
  obtain ⟨hblank, hjustified⟩ := ht.justified hg hst hx
  refine ⟨row, _, hrow, hcell, hblank, hjustified, fun rule haction j p q hj hp hq => ?_⟩
  rw [haction] at hjustified
  obtain ⟨r, hr, -, hbefore⟩ := (hjustified (by simp)).first
  obtain rfl := Option.some.inj (hp.symm.trans hr)
  exact hbefore j q hj hq

/-- A rule that is written twice, with a conflict that precedence settles: after
    `e '+' e` the first of the two rules is reduced before a `'+'`. -/
theorem action_justified_of_compile_repeated :
    ∃ t g st row, compile "%left '+'\n%% e : e '+' e | e 'x' e | e '+' e | 'a' ; %%" = .ok t ∧
      parse "%left '+'\n%% e : e '+' e | e 'x' e | e '+' e | 'a' ; %%" = .ok g ∧
      g.automaton.states[5]? = some st ∧ (⟨3, 3⟩ : Item) ∈ st.items ∧
      t.actions[5]? = some row ∧ row[0]? = some (.reduce 1) ∧ g.Justified st 0 (.reduce 1) := by
  have htable : (compile "%left '+'\n%% e : e '+' e | e 'x' e | e '+' e | 'a' ; %%").map
      (fun t => decide (0 < t.terminals.size ∧ t.actionAt 5 0 = .reduce 1)) = .ok true := by
    decide +kernel
  have hgrammar : (parse "%left '+'\n%% e : e '+' e | e 'x' e | e '+' e | 'a' ; %%").map
      (fun g => decide (∃ st ∈ g.automaton.states[5]?, (⟨3, 3⟩ : Item) ∈ st.items)) = .ok true := by
    decide +kernel
  obtain ⟨t, hcompile, hsize, haction⟩ := exists_of_map_decide htable
  obtain ⟨g, hparse, st, hst, hitem⟩ := exists_of_map_decide hgrammar
  obtain ⟨g', hparse', -, -, hcells⟩ := action_justified_of_compile hcompile
  obtain rfl := Except.ok.inj (hparse.symm.trans hparse')
  obtain ⟨row, a, hrow, hcell, -, hjustified, -⟩ := hcells 5 0 st hst hsize
  have ha : a = .reduce 1 := by
    rw [← haction, ParseTable.actionAt, hrow]
    simp [Array.getD_eq_getD_getElem?, hcell]
  subst ha
  exact ⟨t, g, st, row, hcompile, hparse, hst, hitem, hrow, hcell, hjustified (by simp)⟩

end Grammar

end SlrCompiler
