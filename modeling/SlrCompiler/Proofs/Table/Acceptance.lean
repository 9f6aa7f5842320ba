import SlrCompiler.Proofs.Recognition.Path
import SlrCompiler.Proofs.Table.Precedence

/-! # The one cell that accepts

    An acceptance is settled against nothing: whatever a cell holds gives way to
    it, and it gives way to nothing (`chosen_settle_eq_accept_iff`). So it does not
    matter in which order the proposals for a row are taken up, nor what else is
    proposed: a cell accepts as soon as that has been proposed for it, and never
    otherwise (`settleAll_eq_accept_iff`).

    To accept is proposed by the complete augmenting item alone. The dot of that
    item has moved over the start symbol from the very beginning, since the
    augmenting production begins nowhere else, also if the start symbol is
    recursive. So there is one state that holds it
    (`WellFormed.candidate_accept_iff`), and one cell in the whole table.
-/

namespace SlrCompiler

/-- The cell of an action; nothing if there is no such cell. -/
def ParseTable.actionCell? (t : ParseTable) (state terminal : Nat) : Option Action :=
  t.actions[state]?.bind fun row => row[terminal]?

namespace Grammar

variable {g : Grammar}

/-! ## Section 1: An acceptance wins -/

/-- An acceptance is chosen exactly if it is one of the two actions that meet. -/
theorem chosen_settle_eq_accept_iff {terminal : Nat} {a b : Action} :
    (g.settle terminal a b).chosen = .accept ↔ a = .accept ∨ b = .accept := by
  constructor
  · intro h
    rcases g.chosen_settle_eq_or terminal a b with heq | heq
    · exact .inl (heq.symm.trans h)
    · exact .inr (heq.symm.trans h)
  · rintro (rfl | rfl)
    · cases b <;> rfl
    · cases a <;> rfl

/-- **Any order**: a cell accepts exactly if it did so before or that is proposed for it. -/
theorem settleAll_eq_accept_iff {x : Nat} {held : Action} {bs : List Action} :
    g.settleAll x held bs = .accept ↔ held = .accept ∨ .accept ∈ bs := by
  induction bs generalizing held with
  | nil => simp [settleAll]
  | cons b rest ih =>
    rw [settleAll, ih, chosen_settle_eq_accept_iff, or_assoc, List.mem_cons, @eq_comm _ b]

/-- A row accepts at a terminal exactly if it did so before or one of the proposals was to do
    so. -/
theorem action_decideAll_eq_accept_iff {state : Nat} {row : IndexMap Action}
    {ps : List Proposal} {x : Nat} :
    (g.decideAll state row ps).1.action x = .accept ↔
      row.action x = .accept ∨ ⟨x, .accept⟩ ∈ ps := by
  rw [(g.cell_decideAll state row ps x).1, settleAll_eq_accept_iff, Proposal.mem_actionsFor]

/-! ## Section 2: The state that accepts -/

/-- There is an edge on the start symbol from the first state. -/
theorem WellFormed.exists_goto_startSymbol (hg : g.WellFormed) :
    ∃ v, g.automaton.goto 0 g.startSymbol = some v := by
  have hstart : g.automaton.Spells [] [0] := .start
  have hnext : (Item.initial 0).nextSymbol g = some g.startSymbol := by
    rw [Item.nextSymbol, Item.production_initial, Item.position_initial, hg.rightSide_zero]
    rfl
  exact hg.exists_goto hstart .start hnext

/-- **One state**: to accept is proposed in the state that the start symbol leads to
    and in no other, and only at the end of the input. -/
theorem WellFormed.candidate_accept_iff (hg : g.WellFormed) {l : Lookahead} {v s x : Nat}
    {st : State} (hv : g.automaton.goto 0 g.startSymbol = some v)
    (hst : g.automaton.states[s]? = some st) :
    g.Candidate l st x .accept ↔ s = v ∧ x = g.endMark := by
  have hpath : g.automaton.Spells [g.startSymbol] [v, 0] := .push .start hv
  obtain ⟨sv, hsv, hitems⟩ := hg.exists_state hpath
  constructor
  · intro h
    obtain ⟨γ, hγ⟩ := hg.exists_reads_of_state hst
    obtain ⟨hend, rfl⟩ := h.of_accept hg hγ
    -- Both states hold the items that the start symbol reads, so they are the same.
    have hsame : st.items = sv.items := SortedSet.ext fun i => (hγ i).trans (hitems i).symm
    exact ⟨hg.canonical.items_inj hst hsv hsame, hend⟩
  · intro h
    obtain ⟨rfl, rfl⟩ := h
    obtain rfl := Option.some.inj (hst.symm.trans hsv)
    exact candidate_accept hg hitems rfl

/-! ## Section 3: The table -/

/-- A cell that exists is the one that is read. -/
theorem Tabulates.actionCell?_eq {t : ParseTable} (ht : g.Tabulates t) {s x : Nat}
    (hs : s < t.stateCount) (hx : x < g.terminalCount) :
    t.actionCell? s x = some (t.actionAt s x) := by
  obtain ⟨row, hrow, hcell⟩ := ht.exists_cell hs hx
  rw [ParseTable.actionCell?, hrow]
  exact hcell

/-- A cell is one of a state and a terminal. -/
theorem Tabulates.lt_of_actionCell? {t : ParseTable} (ht : g.Tabulates t) {s x : Nat}
    {a : Action} (h : t.actionCell? s x = some a) : s < t.stateCount ∧ x < g.terminalCount := by
  obtain ⟨row, hrow, hcell⟩ := Option.bind_eq_some_iff.1 h
  have hs : s < t.stateCount := (Array.getElem?_eq_some_iff.1 hrow).1
  obtain ⟨other, hother, hsize⟩ := ht.row hs
  obtain rfl := Option.some.inj (hrow.symm.trans hother)
  exact ⟨hs, hsize ▸ (Array.getElem?_eq_some_iff.1 hcell).1⟩

/-- A table has one cell that accepts. -/
theorem actionCell?_eq_accept_iff {t : ParseTable} (hg : g.WellFormed) (h : g.parseTable = .ok t)
    {v s x : Nat} (hv : g.automaton.goto 0 g.startSymbol = some v) :
    t.actionCell? s x = some .accept ↔ s = v ∧ x = g.endMark := by
  have ht := tabulates_of_parseTable h
  constructor
  · intro haccept
    obtain ⟨hs, hx⟩ := ht.lt_of_actionCell? haccept
    rw [ht.actionCell?_eq hs hx] at haccept
    rw [ht.stateCount] at hs
    have hst := Array.getElem?_eq_getElem hs
    have hcell := ht.action hst hx
    rw [Option.some.inj haccept] at hcell
    exact (hg.candidate_accept_iff hv hst).1 (hcell.resolve_right (by simp))
  · rintro ⟨rfl, rfl⟩
    have hs : s < g.automaton.size := hg.canonical.lt_of_goto hv
    have hx : g.endMark < g.terminalCount := isTerminal_iff.1 hg.endMark_terminal
    have hst := Array.getElem?_eq_getElem hs
    have hcandidate : g.Candidate g.lookahead _ g.endMark .accept :=
      (hg.candidate_accept_iff hv hst).2 ⟨rfl, rfl⟩
    -- What else is proposed for the cell gives way.
    have hwins : ∀ b, g.Candidate g.lookahead g.automaton.states[s] g.endMark b →
        (g.settle g.endMark .accept b).chosen = .accept ∧
          (g.settle g.endMark b .accept).chosen = .accept :=
      fun b _ =>
        ⟨chosen_settle_eq_accept_iff.2 (.inl rfl), chosen_settle_eq_accept_iff.2 (.inr rfl)⟩
    rw [ht.actionCell?_eq (ht.stateCount ▸ hs) hx,
      hcandidate.actionAt_of_wins h hst hx hwins]

/-- **Exactly one acceptance**: a compiled table accepts in one cell, that of the end
    mark in the state to which the start symbol leads from the first state. However
    the proposals of a state are ordered, and however many of them have been taken
    up, no cell but this one ever accepts, and this one does as soon as that has been
    proposed. -/
theorem accept_unique_of_compile {spec : String} {t : ParseTable} (h : compile spec = .ok t) :
    ∃ g v, parse spec = .ok g ∧ t.endMark = g.endMark ∧ g.symbolName t.endMark = endName ∧
      t.startState = 0 ∧ g.automaton.goto 0 g.startSymbol = some v ∧
      (∀ s x, t.actionCell? s x = some .accept ↔ s = v ∧ x = t.endMark) ∧
      ∀ (s : Nat) (st : State) (ps : List Proposal), g.automaton.states[s]? = some st →
        (∀ p ∈ ps, g.Candidate g.lookahead st p.terminal p.action) →
        ∀ x, (g.decideAll s .empty ps).1.action x = .accept ↔
          s = v ∧ x = t.endMark ∧ ⟨t.endMark, .accept⟩ ∈ ps := by
  obtain ⟨g, hparse, hg, ht⟩ := exists_tabulates_of_compile h
  obtain ⟨v, hv⟩ := hg.exists_goto_startSymbol
  have htable := parseTable_of_compile h hparse
  refine ⟨g, v, hparse, ht.endMark, ht.endMark ▸ hg.symbolName_endMark, ht.startState, hv, ?_, ?_⟩
  · intro s x
    rw [ht.endMark]
    exact actionCell?_eq_accept_iff hg htable hv
  · intro s st ps hst hps x
    rw [ht.endMark, action_decideAll_eq_accept_iff]
    constructor
    · intro haccept
      have hmem : (⟨x, .accept⟩ : Proposal) ∈ ps := haccept.resolve_left (by simp [IndexMap.action])
      obtain ⟨hs, hx⟩ := (hg.candidate_accept_iff hv hst).1 (hps _ hmem)
      exact ⟨hs, hx, hx ▸ hmem⟩
    · rintro ⟨-, rfl, hmem⟩
      exact .inr hmem

/-- A start symbol that is recursive on both sides and may be empty: in the state
    after it a reduction is proposed at the end as well, and gives way. -/
theorem accept_unique_of_compile_recursive :
    ∃ t g, compile "%% s : s s | 'a' | ; %%" = .ok t ∧ parse "%% s : s s | 'a' | ; %%" = .ok g ∧
      g.automaton.goto 0 g.startSymbol = some 2 ∧
      ⟨2, t.endMark, .reduceReduce, .accept, .reduce 3, .accept⟩ ∈ t.conflicts ∧
      ∀ s x, t.actionCell? s x = some .accept ↔ s = 2 ∧ x = t.endMark := by
  have htable : (compile "%% s : s s | 'a' | ; %%").map (fun t => decide
      (⟨2, t.endMark, .reduceReduce, .accept, .reduce 3, .accept⟩ ∈ t.conflicts)) = .ok true := by
    decide +kernel
  have hgrammar : (parse "%% s : s s | 'a' | ; %%").map (fun g => decide
      (g.automaton.goto 0 g.startSymbol = some 2)) = .ok true := by
    decide +kernel
  obtain ⟨t, hcompile, hconflict⟩ := exists_of_map_decide htable
  obtain ⟨g, hparse, hgoto⟩ := exists_of_map_decide hgrammar
  obtain ⟨g', v, hparse', -, -, -, hv, haccept, -⟩ := accept_unique_of_compile hcompile
  obtain rfl := Except.ok.inj (hparse.symm.trans hparse')
  obtain rfl := Option.some.inj (hgoto.symm.trans hv)
  exact ⟨t, g, hcompile, hparse, hgoto, hconflict, haccept⟩

end Grammar

end SlrCompiler
