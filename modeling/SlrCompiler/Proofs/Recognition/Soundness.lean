import Mathlib.Data.List.TakeWhile
import SlrCompiler.Proofs.Recognition.Path

/-! # What a run can do

    The invariant of a run (`Follows`): its stack is on the path of a string of
    symbols, and that string derives the terminals that have been read, none of
    which is the end mark. One step keeps it (`Follows.step`), so it holds
    throughout (`exists_follows_of_reaches`).

    Two results come from it. A run on the table of a grammar never leaves the
    bounds of the table and never misses a goto (`inBounds_of_compile`), and
    what it accepts is a sentence (`isSentence_of_recognize`).
-/

namespace SlrCompiler

/-! ## Section 1: The invariant -/

variable {g : Grammar} {t : ParseTable} {ts : List Nat}

/-- The stack is on the path of a string that derives what has been read of the
    terminals, and the end mark has not been read. -/
structure Configuration.Follows (c : Configuration) (g : Grammar) (ts γ : List Nat) : Prop where
  spells : g.automaton.Spells γ (c.top :: c.below)
  derives : g.Derives γ.reverse (ts.take c.position)
  notMem : g.endMark ∉ ts.take c.position

theorem Configuration.follows_begin (ht : g.Tabulates t) : t.begin.Follows g ts [] :=
  ⟨ht.spells_begin, .refl, List.not_mem_nil⟩

namespace Configuration.Follows

/-- The end mark is still to be read. -/
theorem position_lt {c : Configuration} {γ : List Nat} (h : c.Follows g ts γ)
    (hend : g.endMark ∈ ts) : c.position < ts.length := by
  by_contra hge
  have hall : ts.take c.position = ts := List.take_of_length_le (by omega)
  have hnot := h.notMem
  rw [hall] at hnot
  exact hnot hend

/-- The next terminal. -/
theorem getElem?_position {c : Configuration} {γ : List Nat} (h : c.Follows g ts γ)
    (hts : g.AllTerminal ts) (hend : g.endMark ∈ ts) :
    ∃ x, ts.toArray[c.position]? = some x ∧ x < g.terminalCount := by
  have hlt := h.position_lt hend
  refine ⟨ts[c.position], by simp [hlt], ?_⟩
  exact Grammar.isTerminal_iff.1 (hts _ (List.getElem_mem hlt))

/-- What a step does, with the terminal that it reads. -/
theorem moves {c : Configuration} {γ : List Nat} (h : c.Follows g ts γ) (hg : g.WellFormed)
    (ht : g.Tabulates t) (hts : g.AllTerminal ts) (hend : g.endMark ∈ ts) :
    ∃ x, ts[c.position]? = some x ∧ g.Moves γ c x (c.step t ts.toArray) := by
  obtain ⟨x, hx, hlt⟩ := h.getElem?_position hts hend
  exact ⟨x, by simpa using hx, Grammar.moves_step hg ht h.spells hlt hx⟩

/-- **One step** keeps the invariant: a shift puts the terminal that it reads on
    the path, and a reduction replaces a right side by its left side. Which of
    them it is stands in the cell of that terminal. -/
theorem action_of_step {c d : Configuration} {γ : List Nat} (h : c.Follows g ts γ)
    (hg : g.WellFormed) (ht : g.Tabulates t) (hts : g.AllTerminal ts) (hend : g.endMark ∈ ts)
    (hstep : c.step t ts.toArray = .next d) :
    ∃ x, ts[c.position]? = some x ∧ g.isTerminal x = true ∧
      ((∃ target, t.actionAt c.top x = .shift target ∧ d.position = c.position + 1 ∧
          d.Follows g ts (x :: γ)) ∨
        ∃ (rule : Nat) (q : Production) (δ : List Nat), t.actionAt c.top x = .reduce rule ∧
          g.productions[rule]? = some q ∧ rule ≠ 0 ∧ γ = q.right.reverse ++ δ ∧
          d.position = c.position ∧ d.Follows g ts (q.left :: δ)) := by
  obtain ⟨x, hinput, hlt⟩ := h.getElem?_position hts hend
  have hx : ts[c.position]? = some x := by simpa using hinput
  refine ⟨x, hx, hts x (List.mem_of_getElem? hx), ?_⟩
  cases haction : t.actionAt c.top x with
  | shift target =>
    obtain ⟨hne, hgoto, hnext⟩ :=
      Grammar.exists_step_of_shift hg ht h.spells hlt hinput haction
    obtain rfl := Outcome.next.inj (hnext.symm.trans hstep)
    have htake : ts.take (c.position + 1) = ts.take c.position ++ [x] := by
      rw [List.take_add_one, hx, Option.toList_some]
    refine .inl ⟨target, rfl, rfl, h.spells.push hgoto, ?_, ?_⟩
    · show g.Derives (x :: γ).reverse (ts.take (c.position + 1))
      rw [htake, List.reverse_cons]
      exact h.derives.append .refl
    · show g.endMark ∉ ts.take (c.position + 1)
      rw [htake, List.mem_append, List.mem_singleton]
      exact fun hmem => hmem.elim h.notMem fun heq => hne heq.symm
  | reduce rule =>
    obtain ⟨q, δ, s, target, below, hq, hrule, hγ, hspells, hgoto, hnext⟩ :=
      Grammar.exists_step_of_reduce hg ht h.spells hlt hinput haction
    obtain rfl := Outcome.next.inj (hnext.symm.trans hstep)
    -- Nothing is read, and the left side derives what was on the path.
    have hundone : g.Derives (q.left :: δ).reverse γ.reverse := by
      rw [hγ]
      simpa using (Grammar.Derives.of_production hq).context δ.reverse []
    exact .inr ⟨rule, q, δ, rfl, hq, hrule, hγ, rfl, hspells.push hgoto,
      hundone.trans h.derives, h.notMem⟩
  | accept => simp [step_of_accept hinput haction] at hstep
  | error => simp [step_of_error hinput haction] at hstep

/-- The two kinds of step, without the cell that they come from. -/
theorem shift_or_reduce {c d : Configuration} {γ : List Nat} (h : c.Follows g ts γ)
    (hg : g.WellFormed) (ht : g.Tabulates t) (hts : g.AllTerminal ts) (hend : g.endMark ∈ ts)
    (hstep : c.step t ts.toArray = .next d) :
    (∃ x, g.isTerminal x = true ∧ d.position = c.position + 1 ∧ d.Follows g ts (x :: γ)) ∨
      ∃ (rule : Nat) (q : Production) (δ : List Nat), g.productions[rule]? = some q ∧ rule ≠ 0 ∧
        γ = q.right.reverse ++ δ ∧ d.position = c.position ∧ d.Follows g ts (q.left :: δ) := by
  obtain ⟨x, -, hx, ⟨target, -, hposition, hd⟩ | ⟨rule, q, δ, -, hreduced⟩⟩ :=
    h.action_of_step hg ht hts hend hstep
  · exact .inl ⟨x, hx, hposition, hd⟩
  · exact .inr ⟨rule, q, δ, hreduced⟩

theorem step {c d : Configuration} {γ : List Nat} (h : c.Follows g ts γ) (hg : g.WellFormed)
    (ht : g.Tabulates t) (hts : g.AllTerminal ts) (hend : g.endMark ∈ ts)
    (hstep : c.step t ts.toArray = .next d) : ∃ δ, d.Follows g ts δ := by
  rcases h.shift_or_reduce hg ht hts hend hstep with ⟨_, _, _, hd⟩ | ⟨_, _, _, _, _, _, _, hd⟩
  · exact ⟨_, hd⟩
  · exact ⟨_, hd⟩

theorem of_reaches {c d : Configuration} {γ : List Nat} (h : c.Follows g ts γ)
    (hg : g.WellFormed) (ht : g.Tabulates t) (hts : g.AllTerminal ts) (hend : g.endMark ∈ ts)
    (hreaches : t.Reaches ts.toArray c d) : ∃ δ, d.Follows g ts δ := by
  induction hreaches with
  | refl => exact ⟨γ, h⟩
  | tail _ hstep ih =>
    obtain ⟨δ, hδ⟩ := ih
    exact hδ.step hg ht hts hend hstep

end Configuration.Follows

/-- **The invariant** holds throughout a run on terminals. -/
theorem exists_follows_of_reaches (hg : g.WellFormed) (ht : g.Tabulates t)
    (hts : g.AllTerminal ts) (hend : g.endMark ∈ ts) {c : Configuration}
    (hreaches : t.Reaches ts.toArray t.begin c) : ∃ γ, c.Follows g ts γ :=
  (Configuration.follows_begin ht).of_reaches hg ht hts hend hreaches

/-- A run that ends has made a last move, with the invariant before it. -/
theorem exists_moves_of_run (hg : g.WellFormed) (ht : g.Tabulates t) (hts : g.AllTerminal ts)
    (hend : g.endMark ∈ ts) {steps : Nat} (hends : t.run ts.toArray steps t.begin ≠ .endless) :
    ∃ c γ x o, c.Follows g ts γ ∧ ts[c.position]? = some x ∧ g.Moves γ c x o ∧
      o.verdict = t.run ts.toArray steps t.begin := by
  obtain ⟨c, hc, hverdict⟩ := ParseTable.exists_last_step hends
  obtain ⟨γ, hγ⟩ := exists_follows_of_reaches hg ht hts hend hc
  obtain ⟨x, hx, hmoves⟩ := hγ.moves hg ht hts hend
  exact ⟨c, γ, x, _, hγ, hx, hmoves, hverdict⟩

/-- The terminals of an input with its end mark. -/
theorem allTerminal_input (hg : g.WellFormed) (ht : g.Tabulates t) {names : List String}
    {w : List Nat} (hw : t.terminalIndices names = .ok w) :
    g.AllTerminal (w ++ [g.endMark]) ∧ t.input w = (w ++ [g.endMark]).toArray := by
  obtain ⟨hall, -⟩ := (ht.terminalIndices_eq_ok_iff hg).1 hw
  exact ⟨hall.append hg.allTerminal_endMark, by rw [ParseTable.input, ht.endMark]⟩

/-! ## Section 2: Bounds -/

/-- All that the next step looks up is there: the terminal and its name, the
    states and the cell of the action; and if that is a reduction, its rule, the
    state that it uncovers and the goto. -/
structure Configuration.InBounds (c : Configuration) (t : ParseTable) (input : Array Nat) :
    Prop where
  position_lt : c.position < input.size
  /-- A refusal names the terminal. -/
  terminal_lt : ∀ x, input[c.position]? = some x → x < t.terminals.size
  states_lt : ∀ s ∈ c.top :: c.below, s < t.stateCount
  cell : ∃ x row, input[c.position]? = some x ∧ t.actions[c.top]? = some row ∧ x < row.size
  reduction : ∀ x rule, input[c.position]? = some x → t.actionAt c.top x = .reduce rule →
    ∃ r s target, t.rules[rule]? = some r ∧ r.arity < (c.top :: c.below).length ∧
      (c.top :: c.below)[r.arity]? = some s ∧ t.gotoCell? s r.left = some (some target)

theorem Configuration.Follows.inBounds {c : Configuration} {γ : List Nat}
    (h : c.Follows g ts γ) (hg : g.WellFormed) (ht : g.Tabulates t) (hts : g.AllTerminal ts)
    (hend : g.endMark ∈ ts) : c.InBounds t ts.toArray := by
  have hstates := hg.canonical.lt_of_spells h.spells
  rw [← ht.stateCount] at hstates
  obtain ⟨x, hx, hlt⟩ := h.getElem?_position hts hend
  constructor
  case position_lt => simpa using h.position_lt hend
  case terminal_lt =>
    intro y hy
    obtain rfl := Option.some.inj (hx.symm.trans hy)
    exact ht.terminals ▸ hlt
  case states_lt => exact hstates
  case cell =>
    obtain ⟨row, hrow, hsize⟩ := ht.row (hstates c.top List.mem_cons_self)
    exact ⟨x, row, hx, hrow, hsize ▸ hlt⟩
  case reduction =>
    intro y rule hy haction
    obtain rfl := Option.some.inj (hx.symm.trans hy)
    obtain ⟨q, δ, s, target, below, hq, -, -, hdrop, -, -, hgoto⟩ :=
      Grammar.exists_of_actionAt_eq_reduce hg ht h.spells hlt haction
    have harity : (g.tableRule q).arity = q.right.length := rfl
    have hs : (c.top :: c.below)[q.right.length]? = some s := by
      rw [← List.head?_drop, hdrop, List.head?_cons]
    refine ⟨g.tableRule q, s, target, by rw [ht.rules, hq, Option.map_some], ?_, ?_, hgoto⟩
    · rw [harity]
      exact (List.getElem?_eq_some_iff.1 hs).1
    · rw [harity, hs]

/-- A run ends by accepting, or for want of an action. -/
theorem run_eq_or (hg : g.WellFormed) (ht : g.Tabulates t) (hts : g.AllTerminal ts)
    (hend : g.endMark ∈ ts) (steps : Nat) :
    t.run ts.toArray steps t.begin = .endless ∨ t.run ts.toArray steps t.begin = .accepted ∨
      ∃ s p name, t.run ts.toArray steps t.begin = .rejected (.noAction s p name) := by
  by_cases hendless : t.run ts.toArray steps t.begin = .endless
  · exact .inl hendless
  right
  obtain ⟨c, γ, x, o, -, -, hmoves, hverdict⟩ := exists_moves_of_run hg ht hts hend hendless
  rw [← hverdict] at hendless ⊢
  cases hmoves with
  | shift => exact absurd rfl hendless
  | reduce => exact absurd rfl hendless
  | accept => exact .inl rfl
  | refuse => exact .inr ⟨_, _, _, rfl⟩

/-- **Bounds**: in a run on a compiled table every configuration is in bounds,
    whatever the number of steps, so the run is never broken off and never
    refused for want of a goto. -/
theorem inBounds_of_compile {spec : String} (hcompile : compile spec = .ok t)
    (names : List String) :
    (∀ w, t.terminalIndices names = .ok w →
      (∀ c, t.Reaches (t.input w) t.begin c → c.InBounds t (t.input w)) ∧
      ∀ steps, (∀ b, t.run (t.input w) steps t.begin ≠ .broken b) ∧
        ∀ s n, t.run (t.input w) steps t.begin ≠ .rejected (.missingGoto s n)) ∧
    (∀ b, t.recognize names ≠ .broken b) ∧
    ∀ s n, t.recognize names ≠ .rejected (.missingGoto s n) := by
  obtain ⟨g, -, hg, ht⟩ := Grammar.exists_tabulates_of_compile hcompile
  have hrun : ∀ w, t.terminalIndices names = .ok w →
      (∀ c, t.Reaches (t.input w) t.begin c → c.InBounds t (t.input w)) ∧
      ∀ steps, (∀ b, t.run (t.input w) steps t.begin ≠ .broken b) ∧
        ∀ s n, t.run (t.input w) steps t.begin ≠ .rejected (.missingGoto s n) := by
    intro w hw
    obtain ⟨hts, hinput⟩ := allTerminal_input hg ht hw
    have hend : g.endMark ∈ w ++ [g.endMark] := by simp
    rw [hinput]
    constructor
    · intro c hc
      obtain ⟨γ, hγ⟩ := exists_follows_of_reaches hg ht hts hend hc
      exact hγ.inBounds hg ht hts hend
    · intro steps
      rcases run_eq_or hg ht hts hend steps with h | h | ⟨_, _, _, h⟩ <;> simp [h]
  -- A name that is no terminal's is refused before the run begins.
  cases hindices : t.terminalIndices names with
  | error e =>
    obtain ⟨name, rfl⟩ := ParseTable.eq_unknownTerminal_of_terminalIndices hindices
    exact ⟨by simp, by simp [ParseTable.recognize, hindices],
      by simp [ParseTable.recognize, hindices]⟩
  | ok w =>
    have hw := (hrun w hindices).2 (t.stepBound (t.input w).size)
    have hrecognize : t.recognize names
        = t.run (t.input w) (t.stepBound (t.input w).size) t.begin := by
      simp [ParseTable.recognize, hindices]
    rw [hrecognize]
    refine ⟨fun v hv => ?_, hw.1, hw.2⟩
    obtain rfl := Except.ok.inj hv
    exact hrun w hindices

/-- Empty reductions, and input that goes on after an end mark. -/
theorem inBounds_of_compile_empty_rule :
    ∃ t w, compile "%% s : t s | ; t : 'a' | ; %%" = .ok t ∧
      t.terminalIndices ["'a'", "'a'", "$end", "'a'"] = .ok w ∧
      ∀ c, t.Reaches (t.input w) t.begin c → c.InBounds t (t.input w) := by
  have hfacts : (compile "%% s : t s | ; t : 'a' | ; %%").map (fun t => decide
      (t.terminalIndices ["'a'", "'a'", "$end", "'a'"] = .ok [2, 2, 1, 2])) = .ok true := by
    decide +kernel
  obtain ⟨t, hcompile, ht⟩ := map_eq_ok_iff.1 hfacts
  have hw := of_decide_eq_true ht
  exact ⟨t, _, hcompile, hw, ((inBounds_of_compile hcompile _).1 _ hw).1⟩

/-! ## Section 3: Sentences -/

namespace Configuration.Follows

variable {c : Configuration} {w γ : List Nat} (h : c.Follows g (w ++ [g.endMark]) γ)
include h

/-- What has been read does not include the end mark that was put at the end. -/
theorem take_position : (w ++ [g.endMark]).take c.position = w.take c.position := by
  have hlt := h.position_lt (by simp)
  rw [List.length_append, List.length_singleton] at hlt
  exact List.take_append_of_le_length (by omega)

/-- When the end mark comes next, all that stands before the first one has been
    read. -/
theorem takeWhile_names (hg : g.WellFormed) (hw : g.AllTerminal w)
    (hnext : (w ++ [g.endMark])[c.position]? = some g.endMark) :
    (w.map g.symbolName).takeWhile (· != endName) = (w.take c.position).map g.symbolName := by
  have hnotMem := h.notMem
  rw [h.take_position] at hnotMem
  -- No end mark has been read, and one comes next.
  have hbefore : ∀ name ∈ (w.take c.position).map g.symbolName, (name != endName) = true := by
    intro name hname
    obtain ⟨s, hs, rfl⟩ := List.mem_map.1 hname
    rw [bne_iff_ne, ← hg.symbolName_endMark]
    intro heq
    have hs' := hw s (List.mem_of_mem_take hs)
    exact hnotMem (hg.eq_of_symbolName_eq hs' hg.endMark_terminal heq ▸ hs)
  have hafter : ((w.drop c.position).map g.symbolName).takeWhile (· != endName) = [] := by
    cases hdrop : w.drop c.position with
    | nil => rfl
    | cons y rest =>
      have hy : w[c.position]? = some y := by
        rw [← List.head?_drop, hdrop, List.head?_cons]
      rw [List.getElem?_append_left (List.getElem?_eq_some_iff.1 hy).1, hy] at hnext
      simp [Option.some.inj hnext, hg.symbolName_endMark]
  calc (w.map g.symbolName).takeWhile (· != endName)
      = ((w.take c.position).map g.symbolName
          ++ (w.drop c.position).map g.symbolName).takeWhile (· != endName) := by
        rw [← List.map_append, List.take_append_drop]
    _ = (w.take c.position).map g.symbolName := by
        rw [List.takeWhile_append_of_pos hbefore, hafter, List.append_nil]

end Configuration.Follows

/-- All names stand before the first end mark, if there is none among them. -/
theorem takeWhile_ne_endName {names : List String} (hnames : endName ∉ names) :
    names.takeWhile (· != endName) = names := by
  rw [List.takeWhile_eq_self_iff]
  intro name hname
  exact bne_iff_ne.2 fun heq => hnames (heq ▸ hname)

/-- A run that accepts has derived all that stands before the first end mark from
    the start symbol. -/
theorem isSentence_of_run (hg : g.WellFormed) (ht : g.Tabulates t) {names : List String}
    {w : List Nat} (hw : t.terminalIndices names = .ok w) {steps : Nat}
    (haccepted : t.run (t.input w) steps t.begin = .accepted) :
    g.IsSentence (names.takeWhile (· != endName)) := by
  obtain ⟨hts, hinput⟩ := allTerminal_input hg ht hw
  obtain ⟨hterminal, rfl⟩ := (ht.terminalIndices_eq_ok_iff hg).1 hw
  have hend : g.endMark ∈ w ++ [g.endMark] := by simp
  rw [hinput] at haccepted
  obtain ⟨d, γ, x, o, hγ, hx, hmoves, hverdict⟩ :=
    exists_moves_of_run hg ht hts hend (by rw [haccepted]; simp)
  rw [haccepted] at hverdict
  cases hmoves with
  | shift => simp [Outcome.verdict] at hverdict
  | reduce => simp [Outcome.verdict] at hverdict
  | refuse => simp [Outcome.verdict] at hverdict
  | accept hxend hstart =>
    -- The start symbol is all that is on the path, and it derives what has been read.
    have hderives := hγ.derives
    rw [hγ.take_position, hstart, List.reverse_singleton] at hderives
    have hread : g.AllTerminal (w.take d.position) :=
      fun s hs => hterminal s (List.mem_of_mem_take hs)
    rw [hγ.takeWhile_names hg hterminal (hxend ▸ hx)]
    exact hg.isSentence_iff.2 ⟨w.take d.position, hread, rfl, hderives⟩

/-- **Soundness**: what stands before the first `$end` of an accepted input is a
    sentence of the grammar. -/
theorem isSentence_of_recognize {spec : String} (hcompile : compile spec = .ok t)
    {names : List String} (haccepted : t.recognize names = .accepted) :
    ∃ g, Grammar.parse spec = .ok g ∧ g.IsSentence (names.takeWhile (· != endName)) := by
  obtain ⟨g, hparse, hg, ht⟩ := Grammar.exists_tabulates_of_compile hcompile
  refine ⟨g, hparse, ?_⟩
  unfold ParseTable.recognize at haccepted
  split at haccepted
  · simp at haccepted
  · rename_i w hw
    exact isSentence_of_run hg ht hw haccepted

/-- A grammar with precedence and with conflicts, and input after the end mark. -/
theorem isSentence_of_recognize_ambiguous :
    ∃ t g, compile "%left '+'\n%% e : e '+' e | e 'x' e | 'a' ; %%" = .ok t ∧
      t.recognize ["'a'", "'+'", "'a'", "'x'", "'a'", "$end", "'+'"] = .accepted ∧
      Grammar.parse "%left '+'\n%% e : e '+' e | e 'x' e | 'a' ; %%" = .ok g ∧
      g.IsSentence ["'a'", "'+'", "'a'", "'x'", "'a'"] := by
  have hfacts : (compile "%left '+'\n%% e : e '+' e | e 'x' e | 'a' ; %%").map (fun t => decide
      (t.recognize ["'a'", "'+'", "'a'", "'x'", "'a'", "$end", "'+'"] = .accepted))
      = .ok true := by
    decide +kernel
  obtain ⟨t, hcompile, ht⟩ := map_eq_ok_iff.1 hfacts
  have haccepted := of_decide_eq_true ht
  obtain ⟨g, hparse, hsentence⟩ := isSentence_of_recognize hcompile haccepted
  exact ⟨t, g, hcompile, haccepted, hparse, hsentence⟩

end SlrCompiler
