import SlrCompiler.Proofs.Automaton.Numbering
import SlrCompiler.Proofs.Recognition.Step
import SlrCompiler.Proofs.Table.ParseTable

/-! # A run follows a path of the automaton

    The states on the stack of a parser are those along a path from the first
    state, and the path is spelled by the symbols that have been read and
    reduced so far (`Automaton.Spells`). What the items of the top state say
    about that string decides what a step can do. `moves_step` lists the four
    possibilities, and no other argument about a run unfolds `step`.
-/

namespace SlrCompiler

/-! ## Section 1: Stacks as paths -/

/-- A stack holds the states along the path of a string. Both have their last
    element first, and the state at the bottom is the first state. -/
inductive Automaton.Spells (a : Automaton) : List Nat → List Nat → Prop
  | start : Spells a [] [a.start]
  | push {γ : List Nat} {x s r : Nat} {below : List Nat} : Spells a γ (s :: below) →
      a.goto s x = some r → Spells a (x :: γ) (r :: s :: below)

namespace Automaton.Spells

variable {a : Automaton}

/-- The top of the stack is at the end of the path. -/
theorem follow {γ below : List Nat} {s : Nat} (h : a.Spells γ (s :: below)) :
    a.follow γ.reverse = some s := by
  generalize hstack : s :: below = stack at h
  induction h generalizing s below with
  | start =>
    obtain ⟨rfl, -⟩ := List.cons.inj hstack
    rfl
  | push _ hgoto ih =>
    obtain ⟨rfl, -⟩ := List.cons.inj hstack
    rw [Grammar.follow_cons, ih rfl]
    exact hgoto

/-- Taking states off takes symbols off the string. -/
theorem drop {γ δ stack : List Nat} (h : a.Spells (γ ++ δ) stack) :
    ∃ s below, stack.drop γ.length = s :: below ∧ a.Spells δ (s :: below) := by
  induction γ generalizing stack with
  | nil =>
    cases h with
    | start => exact ⟨_, _, rfl, .start⟩
    | push h hgoto => exact ⟨_, _, rfl, .push h hgoto⟩
  | cons x γ ih =>
    cases h with
    | push h _ => exact ih h

end Automaton.Spells

namespace Grammar

variable {g : Grammar}

theorem Canonical.lt_of_goto {a : Automaton} (h : g.Canonical a) {s x v : Nat}
    (hv : a.goto s x = some v) : v < a.size := by
  obtain ⟨st, hst, hfind⟩ := Option.bind_eq_some_iff.1 hv
  obtain ⟨i, hi, hnext⟩ := h.exists_nextSymbol_of_goto hst hfind
  obtain ⟨w, hw, hlt⟩ := h.exists_goto_of_nextSymbol hst hi hnext
  obtain rfl := Option.some.inj (hfind.symm.trans hw)
  exact hlt

/-- The states along a path exist. -/
theorem Canonical.lt_of_spells {a : Automaton} (h : g.Canonical a) {γ stack : List Nat}
    (hspells : a.Spells γ stack) : ∀ s ∈ stack, s < a.size := by
  induction hspells with
  | start =>
    intro s hs
    obtain ⟨st, hst, -⟩ := h.first
    rw [List.mem_singleton.1 hs, h.start]
    exact (Array.getElem?_eq_some_iff.1 hst).1
  | push _ hgoto ih =>
    intro s hs
    rcases List.mem_cons.1 hs with rfl | hs
    · exact h.lt_of_goto hgoto
    · exact ih s hs

/-- A run starts on the path of the empty string. -/
theorem Tabulates.spells_begin {t : ParseTable} (ht : g.Tabulates t) :
    g.automaton.Spells [] (t.begin.top :: t.begin.below) := by
  show g.automaton.Spells [] [t.startState]
  rw [ht.startState]
  exact .start

theorem WellFormed.canonical (hg : g.WellFormed) : g.Canonical g.automaton :=
  canonical_automaton hg.symbolsExist hg.productionCount_pos

/-- The top of a stack holds the items that the string of its path reads. -/
theorem WellFormed.exists_state (hg : g.WellFormed) {γ below : List Nat} {s : Nat}
    (h : g.automaton.Spells γ (s :: below)) :
    ∃ st, g.automaton.states[s]? = some st ∧ ∀ i, i ∈ st.items ↔ g.Reads γ i :=
  hg.canonical.mem_items_iff_reads hg.symbolsExist h.follow

/-- Every state holds the items that some string reads. -/
theorem WellFormed.exists_reads_of_state (hg : g.WellFormed) {s : Nat} {st : State}
    (hst : g.automaton.states[s]? = some st) : ∃ γ, ∀ i, i ∈ st.items ↔ g.Reads γ i := by
  have hcollected := collected_automaton hg.symbolsExist hg.productionCount_pos
  have hpath := (hcollected.isState_iff st.items).1 ⟨s, st, hst, rfl⟩
  generalize st.items = items at hpath
  induction hpath with
  | refl => exact ⟨[], fun i => by rw [mem_closure hg.symbolsExist, reads_nil_iff]⟩
  | tail _ hgoes ih =>
    obtain ⟨γ, hγ⟩ := ih
    obtain ⟨x, hx⟩ := hgoes
    exact ⟨x :: γ, fun i => by rw [mem_goto hg.symbolsExist hx, reads_cons_iff hγ]⟩

/-- Some state holds the items that a string reads, if there are any. -/
theorem WellFormed.exists_state_of_reads (hg : g.WellFormed) {γ : List Nat} {j : Item}
    (h : g.Reads γ j) :
    ∃ (s : Nat) (st : State), g.automaton.states[s]? = some st ∧
      ∀ i, i ∈ st.items ↔ g.Reads γ i := by
  obtain ⟨s, hs⟩ := (hg.canonical.exists_follow_iff hg.symbolsExist).2 ⟨j, h⟩
  obtain ⟨st, hst⟩ := hg.canonical.mem_items_iff_reads hg.symbolsExist hs
  exact ⟨s, st, hst⟩

/-- A symbol that is expected after a string can be pushed on its path. -/
theorem WellFormed.exists_goto (hg : g.WellFormed) {γ below : List Nat} {s x : Nat} {i : Item}
    (h : g.automaton.Spells γ (s :: below)) (hi : g.Reads γ i) (hnext : i.nextSymbol g = some x) :
    ∃ v, g.automaton.goto s x = some v := by
  obtain ⟨st, hst, hitems⟩ := hg.exists_state h
  obtain ⟨v, hv, -⟩ := hg.canonical.exists_goto_of_nextSymbol hst ((hitems i).2 hi) hnext
  exact ⟨v, by simp [Automaton.goto, hst, hv]⟩

/-- The string of a path reads some item. -/
theorem WellFormed.exists_reads (hg : g.WellFormed) {γ below : List Nat} {s : Nat}
    (h : g.automaton.Spells γ (s :: below)) : ∃ i, g.Reads γ i :=
  (hg.canonical.exists_follow_iff hg.symbolsExist).1 ⟨s, h.follow⟩

/-! ## Section 2: What a candidate says about the string -/

section Candidates

variable (hg : g.WellFormed) {l : Lookahead} {st : State} {γ : List Nat} {x : Nat}
  (hitems : ∀ i, i ∈ st.items ↔ g.Reads γ i)
include hg

theorem Candidate.of_shift {target : Nat} (h : g.Candidate l st x (.shift target)) :
    x ≠ g.endMark ∧ st.edges.find x = some target := by
  obtain ⟨i, -, hi⟩ := h
  cases hi with
  | shift hnext _ htarget =>
    refine ⟨fun heq => ?_, htarget⟩
    exact hg.nextSymbol_ne_endMark i (heq ▸ hnext)

include hitems

/-- A complete item has the whole right side of its production at the end of the
    string. -/
theorem exists_of_complete {i : Item} (hi : i ∈ st.items) (hnext : i.nextSymbol g = none)
    {p : Production} (hp : g.productions[i.production]? = some p) :
    ∃ δ, γ = p.right.reverse ++ δ ∧ g.Reads δ (.initial i.production) := by
  obtain ⟨q, δ, hq, hle, heq, hread⟩ :=
    ((hitems i).1 hi).exists_suffix hg.productionCount_pos
  obtain rfl := Option.some.inj (hp.symm.trans hq)
  -- The dot is at the end, so what is before it is all of the right side.
  rw [Item.nextSymbol, rightSide_eq hp, List.getElem?_eq_none_iff] at hnext
  rw [List.take_of_length_le hnext] at heq
  exact ⟨δ, heq, hread⟩

/-- Where a reduction is proposed the right side of its rule has been read, and
    the left side is expected before it. -/
theorem Candidate.of_reduce {rule : Nat} (h : g.Candidate l st x (.reduce rule)) :
    ∃ (q : Production) (δ : List Nat) (j : Item), g.productions[rule]? = some q ∧ rule ≠ 0 ∧
      γ = q.right.reverse ++ δ ∧ g.Reads δ j ∧ j.nextSymbol g = some q.left := by
  obtain ⟨i, hi, hproposes⟩ := h
  cases hproposes with
  | reduce hnext hp hmatch hne _ =>
    obtain ⟨q, hq, hleft, hright, hzero⟩ := hg.getElem?_of_matchProduction hp hmatch
    obtain ⟨δ, hγ, hread⟩ := exists_of_complete hg hitems hi hnext hp
    obtain ⟨j, hj, hexpects⟩ := hread.exists_expecting_left hp (fun hn => hne (hzero.1 hn))
    exact ⟨q, δ, j, hq, hne, hright ▸ hγ, hj, hleft ▸ hexpects⟩

/-- Accepting is proposed once the start symbol has been read, at the end. -/
theorem Candidate.of_accept (h : g.Candidate l st x .accept) :
    x = g.endMark ∧ γ = [g.startSymbol] := by
  obtain ⟨i, hi, hproposes⟩ := h
  cases hproposes with
  | accept hnext hp hmatch =>
    obtain ⟨q, hq, -, hright, hzero⟩ := hg.getElem?_of_matchProduction hp hmatch
    obtain ⟨δ, hγ, hread⟩ := exists_of_complete hg hitems hi hnext hp
    rw [hzero.2 rfl] at hread
    obtain rfl := hg.eq_nil_of_reads_zero hread
    have hstart := hg.rightSide_zero
    rw [rightSide_eq hq, hright] at hstart
    exact ⟨rfl, by simp [hγ, hstart]⟩

end Candidates

/-! ## Section 3: What a string makes a candidate -/

section Proposals

variable (hg : g.WellFormed) {l : Lookahead} {st : State} {γ : List Nat}
  (hitems : ∀ i, i ∈ st.items ↔ g.Reads γ i)
include hg hitems

/-- To shift is proposed where some item expects the terminal. -/
theorem exists_candidate_shift {s x : Nat} (hst : g.automaton.states[s]? = some st) {i : Item}
    (hi : g.Reads γ i) (hnext : i.nextSymbol g = some x) (hx : g.isTerminal x = true) :
    ∃ target, g.Candidate l st x (.shift target) := by
  obtain ⟨target, htarget, -⟩ :=
    hg.canonical.exists_goto_of_nextSymbol hst ((hitems i).2 hi) hnext
  exact ⟨target, i, (hitems i).2 hi, .shift hnext hx htarget⟩

/-- To reduce a right side is proposed once it has been read, before any terminal
    that may follow its left side. The rule can be another one with the same
    symbols. -/
theorem exists_candidate_reduce {n x : Nat} {p : Production} {δ : List Nat}
    (hp : g.productions[n]? = some p) (hn : n ≠ 0) (hγ : γ = p.right.reverse ++ δ)
    (hread : g.Reads δ (.initial n)) (hfollow : x ∈ l.follow p.left) :
    ∃ (rule : Nat) (q : Production), g.productions[rule]? = some q ∧ q.left = p.left ∧
      q.right = p.right ∧ g.Candidate l st x (.reduce rule) := by
  have hcomplete : g.Reads γ ⟨n, p.right.length⟩ := hγ ▸ hread.advance_to_end hp
  have hnext : (Item.mk n p.right.length).nextSymbol g = none := by
    rw [Item.nextSymbol, rightSide_eq hp]
    exact List.getElem?_eq_none (Nat.le_refl _)
  obtain ⟨rule, hrule⟩ := exists_matchProduction hp
  obtain ⟨q, hq, hleft, hright, hzero⟩ := hg.getElem?_of_matchProduction hp hrule
  refine ⟨rule, q, hq, hleft, hright, _, (hitems _).2 hcomplete, ?_⟩
  exact .reduce hnext hp hrule (fun heq => hn (hzero.2 heq)) hfollow

/-- To accept is proposed once the start symbol has been read. -/
theorem candidate_accept (hγ : γ = [g.startSymbol]) : g.Candidate l st g.endMark .accept := by
  obtain ⟨p, hp, -, hright⟩ := hg.augmenting
  have hcomplete : g.Reads γ ⟨0, 1⟩ := by
    simpa [hγ, hright] using (Reads.start (g := g)).advance_to_end hp
  have hnext : (Item.mk 0 1).nextSymbol g = none := by
    rw [Item.nextSymbol, hg.rightSide_zero]
    rfl
  obtain ⟨rule, hrule⟩ := exists_matchProduction hp
  obtain ⟨q, -, -, -, hzero⟩ := hg.getElem?_of_matchProduction hp hrule
  obtain rfl := hzero.1 rfl
  exact ⟨_, (hitems _).2 hcomplete, .accept hnext hp hrule⟩

end Proposals

/-! ## Section 4: One step -/

variable (g) in
/-- What a step can do with the next terminal, when the stack is on the path of
    the given string. -/
inductive Moves (γ : List Nat) (c : Configuration) (x : Nat) : Outcome → Prop
  | shift {target : Nat} : x ≠ g.endMark → g.automaton.goto c.top x = some target →
      Moves γ c x (.next ⟨target, c.top :: c.below, c.position + 1⟩)
  | reduce {rule s target : Nat} {q : Production} {δ below : List Nat} :
      g.productions[rule]? = some q → rule ≠ 0 → γ = q.right.reverse ++ δ →
      g.automaton.Spells δ (s :: below) → g.automaton.goto s q.left = some target →
      Moves γ c x (.next ⟨target, s :: below, c.position⟩)
  | accept : x = g.endMark → γ = [g.startSymbol] → Moves γ c x .accepted
  | refuse {name : String} : Moves γ c x (.rejected (.noAction c.top c.position name))

variable {t : ParseTable} {input : Array Nat} {c : Configuration} {γ : List Nat} {x : Nat}

/-- A reduction in the cell of the next terminal can be carried out. -/
theorem exists_of_actionAt_eq_reduce (hg : g.WellFormed) (ht : g.Tabulates t)
    (hspells : g.automaton.Spells γ (c.top :: c.below)) (hx : x < g.terminalCount) {rule : Nat}
    (haction : t.actionAt c.top x = .reduce rule) :
    ∃ (q : Production) (δ : List Nat) (s target : Nat) (below : List Nat),
      g.productions[rule]? = some q ∧ rule ≠ 0 ∧ γ = q.right.reverse ++ δ ∧
      (c.top :: c.below).drop q.right.length = s :: below ∧ g.automaton.Spells δ (s :: below) ∧
      g.automaton.goto s q.left = some target ∧
      t.gotoCell? s (g.tableRule q).left = some (some target) := by
  obtain ⟨st, hst, hitems⟩ := hg.exists_state hspells
  have hcell := ht.action hst hx
  rw [haction] at hcell
  have hcandidate := hcell.resolve_right (by simp)
  obtain ⟨q, δ, j, hq, hne, rfl, hj, hnext⟩ := hcandidate.of_reduce hg hitems
  obtain ⟨s, below, hdrop, hδ⟩ := hspells.drop
  obtain ⟨target, htarget⟩ := hg.exists_goto hδ hj hnext
  obtain ⟨uncovered, huncovered, hfind⟩ := Option.bind_eq_some_iff.1 htarget
  refine ⟨q, δ, s, target, below, hq, hne, rfl, by simpa using hdrop, hδ, htarget, ?_⟩
  rw [ht.goto_left hg hq huncovered, hfind]

/-- Carrying it out replaces the right side of a production by its left side. -/
theorem exists_step_of_reduce (hg : g.WellFormed) (ht : g.Tabulates t)
    (hspells : g.automaton.Spells γ (c.top :: c.below)) (hx : x < g.terminalCount)
    (hinput : input[c.position]? = some x) {rule : Nat}
    (haction : t.actionAt c.top x = .reduce rule) :
    ∃ (q : Production) (δ : List Nat) (s target : Nat) (below : List Nat),
      g.productions[rule]? = some q ∧ rule ≠ 0 ∧ γ = q.right.reverse ++ δ ∧
      g.automaton.Spells δ (s :: below) ∧ g.automaton.goto s q.left = some target ∧
      c.step t input = .next ⟨target, s :: below, c.position⟩ := by
  obtain ⟨q, δ, s, target, below, hq, hne, hγ, hdrop, hδ, htarget, hgoto⟩ :=
    exists_of_actionAt_eq_reduce hg ht hspells hx haction
  have hrule : t.rules[rule]? = some (g.tableRule q) := by
    rw [ht.rules, hq, Option.map_some]
  have hstep := Configuration.step_of_reduce hinput haction hrule hdrop hgoto
  exact ⟨q, δ, s, target, below, hq, hne, hγ, hδ, htarget, hstep⟩

/-- A shift in the cell of the next terminal is that of an edge, and it can be carried out. -/
theorem exists_step_of_shift (hg : g.WellFormed) (ht : g.Tabulates t)
    (hspells : g.automaton.Spells γ (c.top :: c.below)) (hx : x < g.terminalCount)
    (hinput : input[c.position]? = some x) {target : Nat}
    (haction : t.actionAt c.top x = .shift target) :
    x ≠ g.endMark ∧ g.automaton.goto c.top x = some target ∧
      c.step t input = .next ⟨target, c.top :: c.below, c.position + 1⟩ := by
  obtain ⟨st, hst, -⟩ := hg.exists_state hspells
  have hcell := ht.action hst hx
  rw [haction] at hcell
  obtain ⟨hne, hfind⟩ := (hcell.resolve_right (by simp)).of_shift hg
  exact ⟨hne, by simp [Automaton.goto, hst, hfind], Configuration.step_of_shift hinput haction⟩

/-- **One step** does one of four things. -/
theorem moves_step (hg : g.WellFormed) (ht : g.Tabulates t)
    (hspells : g.automaton.Spells γ (c.top :: c.below)) (hx : x < g.terminalCount)
    (hinput : input[c.position]? = some x) : g.Moves γ c x (c.step t input) := by
  obtain ⟨st, hst, hitems⟩ := hg.exists_state hspells
  have hcell := ht.action hst hx
  cases haction : t.actionAt c.top x with
  | shift target =>
    obtain ⟨hne, hgoto, hstep⟩ := exists_step_of_shift hg ht hspells hx hinput haction
    rw [hstep]
    exact .shift hne hgoto
  | reduce rule =>
    obtain ⟨q, δ, s, target, below, hq, hne, hγ, hδ, htarget, hstep⟩ :=
      exists_step_of_reduce hg ht hspells hx hinput haction
    rw [hstep]
    exact .reduce hq hne hγ hδ htarget
  | accept =>
    rw [haction] at hcell
    obtain ⟨hend, hγ⟩ := (hcell.resolve_right (by simp)).of_accept hg hitems
    rw [Configuration.step_of_accept hinput haction]
    exact .accept hend hγ
  | error =>
    rw [Configuration.step_of_error hinput haction]
    exact .refuse

end Grammar

end SlrCompiler
