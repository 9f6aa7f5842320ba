import SlrCompiler.Proofs.Grammar.Lookahead
import SlrCompiler.Proofs.Recognition.Soundness
import SlrCompiler.Proofs.Recognition.StepBound

/-! # Every sentence is accepted

    In a table that holds whatever is proposed for its cells (`Decides`) a run
    has no choice, and what it needs next is always proposed. Where an item
    expects a terminal, that terminal is shifted; where a right side has been
    read, FOLLOW has the terminal that comes next, so it is reduced.

    The run retraces a forest of derivation trees (`exists_reaches_of_yields`).
    When it sets out to read a string that an item expects, it ends up with that
    string on its path, and has read what the string yields.
-/

namespace SlrCompiler

variable {g : Grammar} {t : ParseTable} {ts : List Nat} {c : Configuration}

/-! ## Section 1: Tables that leave no choice -/

variable (g t) in
/-- A cell holds any action that is proposed for it. -/
def Grammar.Decides : Prop :=
  ∀ (s x : Nat) (st : State) (a : Action), g.automaton.states[s]? = some st →
    x < g.terminalCount → g.Candidate g.lookahead st x a → t.actionAt s x = a

/-- Without precedence lines and without conflicts there is no choice. -/
theorem Grammar.decides_of_compile {spec : String} (hcompile : compile spec = .ok t)
    (hparse : Grammar.parse spec = .ok g) (hlines : precedenceLines spec = [])
    (hconflicts : t.conflicts = []) : g.Decides t := by
  obtain ⟨-, hproduction⟩ := precedence_eq_none_of_parse hparse hlines
  intro s x st a hst hx ha
  exact actionAt_eq_of_candidate (parseTable_of_compile hcompile hparse) hconflicts hst
    (wellFormed_of_parse hparse) hproduction hx ha

/-! ## Section 2: One step -/

/-- The stack is on the path of a string, and the given terminals are still to be
    read. -/
structure Configuration.Stands (c : Configuration) (g : Grammar) (ts γ rest : List Nat) :
    Prop where
  spells : g.automaton.Spells γ (c.top :: c.below)
  drop : ts.drop c.position = rest

namespace Configuration.Stands

variable {γ rest : List Nat} {x : Nat}

theorem getElem? (h : c.Stands g ts γ (x :: rest)) : ts.toArray[c.position]? = some x := by
  rw [List.getElem?_toArray, ← List.head?_drop, h.drop, List.head?_cons]

variable (hg : g.WellFormed) (hdecides : g.Decides t)
include hg hdecides

/-- A terminal that some item expects is shifted. -/
theorem shift (h : c.Stands g ts γ (x :: rest)) {i : Item} (hi : g.Reads γ i)
    (hnext : i.nextSymbol g = some x) (hx : g.isTerminal x = true) :
    ∃ d, c.step t ts.toArray = .next d ∧ d.Stands g ts (x :: γ) rest := by
  obtain ⟨st, hst, hitems⟩ := hg.exists_state h.spells
  obtain ⟨target, htarget⟩ := hg.exists_goto h.spells hi hnext
  have hfind : st.edges.find x = some target := by
    simpa [Automaton.goto, hst] using htarget
  have haction : t.actionAt c.top x = .shift target :=
    hdecides _ _ _ _ hst (Grammar.isTerminal_iff.1 hx)
      ⟨i, (hitems i).2 hi, .shift hnext hx hfind⟩
  refine ⟨_, step_of_shift h.getElem? haction, h.spells.push htarget, ?_⟩
  show ts.drop (c.position + 1) = rest
  rw [← List.drop_drop, h.drop, List.drop_one, List.tail_cons]

/-- A right side that has been read is reduced before any terminal that may
    follow its left side. -/
theorem reduce (ht : g.Tabulates t) {n : Nat} {p : Production}
    (hp : g.productions[n]? = some p) (hn : n ≠ 0)
    (h : c.Stands g ts (p.right.reverse ++ γ) (x :: rest)) (hread : g.Reads γ (.initial n))
    (hx : g.isTerminal x = true) (hfollow : x ∈ g.lookahead.follow p.left) :
    ∃ d, c.step t ts.toArray = .next d ∧ d.Stands g ts (p.left :: γ) (x :: rest) := by
  obtain ⟨st, hst, hitems⟩ := hg.exists_state h.spells
  obtain ⟨rule, q, hq, hleft, hright, hcandidate⟩ :=
    Grammar.exists_candidate_reduce hg hitems hp hn rfl hread hfollow
  have hlt := Grammar.isTerminal_iff.1 hx
  have haction : t.actionAt c.top x = .reduce rule := hdecides _ _ _ _ hst hlt hcandidate
  obtain ⟨r, δ, s, target, below, hr, -, hγ, hδ, htarget, hstep⟩ :=
    Grammar.exists_step_of_reduce hg ht h.spells hlt h.getElem? haction
  obtain rfl := Option.some.inj (hq.symm.trans hr)
  rw [hright, List.append_cancel_left_eq] at hγ
  rw [hleft] at htarget
  exact ⟨_, hstep, (hγ ▸ hδ).push htarget, h.drop⟩

/-- The start symbol is accepted at the end. -/
theorem accept (h : c.Stands g ts [g.startSymbol] (g.endMark :: rest)) :
    c.step t ts.toArray = .accepted := by
  obtain ⟨st, hst, hitems⟩ := hg.exists_state h.spells
  have haction : t.actionAt c.top g.endMark = .accept :=
    hdecides _ _ _ _ hst (Grammar.isTerminal_iff.1 hg.endMark_terminal)
      (Grammar.candidate_accept hg hitems rfl)
  exact step_of_accept h.getElem? haction

end Configuration.Stands

/-! ## Section 3: Retracing a forest -/

/-- An item that expects a string expects its first symbol, and then the others. -/
theorem Item.nextSymbol_and_drop_advance {i : Item} {x : Nat} {φ : List Nat}
    (h : (g.rightSide i.production).drop i.position = x :: φ) :
    i.nextSymbol g = some x ∧ (g.rightSide i.advance.production).drop i.advance.position = φ := by
  constructor
  · rw [Item.nextSymbol, ← List.head?_drop, h, List.head?_cons]
  · rw [production_advance, position_advance, ← List.drop_drop, h, List.drop_one,
      List.tail_cons]

/-- **One forest**: where an item expects a string, a run reads what the string
    yields and ends with the string on its path. The rest of the input has to
    be what may stand there. -/
theorem exists_reaches_of_yields (hg : g.WellFormed) (ht : g.Tabulates t)
    (hdecides : g.Decides t) (hempty : g.EmptyByRule) {φ w : List Nat} (hw : g.Yields φ w)
    {γ z : List Nat} {i : Item} (hi : g.Reads γ i)
    (hrest : (g.rightSide i.production).drop i.position = φ)
    (hc : c.Stands g ts γ (w ++ z)) (hall : g.AllTerminal (w ++ z)) (hz : z ≠ [])
    (hctx : g.Derives [g.startSymbol, g.endMark] (γ.reverse ++ φ ++ z)) :
    ∃ d, t.Reaches ts.toArray c d ∧ d.Stands g ts (φ.reverse ++ γ) z := by
  -- The induction is on the forest; what is put on the path is kept in the context.
  induction hw generalizing c γ z i with
  | nil => exact ⟨c, .refl, hc⟩
  | @keep x φ w _ ih =>
    obtain ⟨hnext, hadvance⟩ := Item.nextSymbol_and_drop_advance hrest
    obtain ⟨d, hstep, hd⟩ := hc.shift hg hdecides hi hnext (hall x List.mem_cons_self)
    have hlater : g.Derives [g.startSymbol, g.endMark] ((x :: γ).reverse ++ φ ++ z) := by
      simpa using hctx
    obtain ⟨e, hreaches, he⟩ := ih (hi.advance hnext) hadvance hd
      (fun s hs => hall s (List.mem_cons_of_mem x hs)) hz hlater
    exact ⟨e, .head hstep hreaches, by simpa using he⟩
  | @expand n p φ v w hp hright hw ihright ih =>
    obtain ⟨hnext, hadvance⟩ := Item.nextSymbol_and_drop_advance hrest
    have hexpected := hg.mem_productionsOf_left hp
    have hn : n ≠ 0 := hg.ne_zero_of_expected hnext hexpected
    have hinitial : g.Reads γ (.initial n) := hi.expand hnext hexpected
    rw [List.append_assoc] at hc hall
    -- The right side is read first, before all that `φ` yields.
    have hinside : g.Derives [g.startSymbol, g.endMark] (γ.reverse ++ p.right ++ (w ++ z)) := by
      have hexpanded : g.Derives (γ.reverse ++ (p.left :: φ) ++ z)
          (γ.reverse ++ (p.right ++ w) ++ z) :=
        ((Grammar.Derives.of_production hp).append hw.derives).context γ.reverse z
      simpa using Grammar.Derives.trans hctx hexpanded
    have hwhole : (g.rightSide (Item.initial n).production).drop (Item.initial n).position
        = p.right := by
      simp [Grammar.rightSide_eq hp]
    obtain ⟨d, hread, hd⟩ := ihright hinitial hwhole hc hall (by simp [hz]) hinside
    -- Then it is reduced, since what comes next may follow its left side.
    obtain ⟨y, rest, hy⟩ : ∃ y rest, w ++ z = y :: rest :=
      List.exists_cons_of_ne_nil (by simp [hz])
    have hterminal : g.isTerminal y = true :=
      hall y (List.mem_append_right v (hy ▸ List.mem_cons_self))
    have hfollow : y ∈ g.lookahead.follow p.left := by
      have hyields : g.Yields (φ ++ z) (y :: rest) := hy ▸ hw.append (.refl z)
      have hsplit : γ.reverse ++ (p.left :: φ) ++ z = γ.reverse ++ p.left :: (φ ++ z) := by simp
      exact Grammar.mem_follow_of_derives hg hempty hctx hsplit (hg.left_nonterminal hp)
        hterminal hyields
    rw [hy] at hd
    obtain ⟨e, hstep, he⟩ := hd.reduce hg hdecides ht hp hn hinitial hterminal hfollow
    rw [← hy] at he
    -- The left side is on the path now, and `φ` is still expected.
    have hlater : g.Derives [g.startSymbol, g.endMark] ((p.left :: γ).reverse ++ φ ++ z) := by
      simpa using hctx
    obtain ⟨f, hreaches, hf⟩ := ih (hi.advance hnext) hadvance he hall.right hz hlater
    exact ⟨f, (hread.tail hstep).trans hreaches, by simpa using hf⟩

/-- A run accepts what the start symbol derives. -/
theorem exists_run_of_derives (hg : g.WellFormed) (ht : g.Tabulates t) (hdecides : g.Decides t)
    (hempty : g.EmptyByRule) {w : List Nat} (hw : g.AllTerminal w)
    (hderives : g.Derives [g.startSymbol] w) :
    ∃ n, t.run (t.input w) n t.begin = .accepted := by
  have hbegin : t.begin.Stands g (w ++ [g.endMark]) [] (w ++ [g.endMark]) :=
    ⟨ht.spells_begin, rfl⟩
  obtain ⟨d, hreaches, hd⟩ := exists_reaches_of_yields hg ht hdecides hempty hderives.yields
    .start hg.rightSide_zero hbegin (hw.append hg.allTerminal_endMark) (by simp) .refl
  rw [ParseTable.input, ht.endMark]
  exact ParseTable.exists_run_of_reaches hreaches (hd.accept hg hdecides)

/-! ## Section 4: The language of a table -/

/-- **Completeness**: a table without precedence and without conflicts accepts the
    sentences of its grammar and nothing else, if left sides that occur in their
    own right sides can be empty by rule only. -/
theorem recognize_eq_accepted_iff {spec : String} (hcompile : compile spec = .ok t)
    (hparse : Grammar.parse spec = .ok g) (hlines : precedenceLines spec = [])
    (hconflicts : t.conflicts = []) (hempty : g.EmptyByRule) {names : List String}
    (hnames : endName ∉ names) : t.recognize names = .accepted ↔ g.IsSentence names := by
  obtain ⟨g', hparse', hg, ht⟩ := Grammar.exists_tabulates_of_compile hcompile
  obtain rfl := Except.ok.inj (hparse.symm.trans hparse')
  constructor
  · intro haccepted
    unfold ParseTable.recognize at haccepted
    split at haccepted
    · simp at haccepted
    · rename_i w hw
      have hsentence := isSentence_of_run hg ht hw haccepted
      rwa [takeWhile_ne_endName hnames] at hsentence
  · intro hsentence
    obtain ⟨w, hw, hwnames, hderives⟩ := hg.isSentence_iff.1 hsentence
    have hindices : t.terminalIndices names = .ok w :=
      (ht.terminalIndices_eq_ok_iff hg).2 ⟨hw, hwnames⟩
    have hdecides := Grammar.decides_of_compile hcompile hparse hlines hconflicts
    obtain ⟨n, hn⟩ := exists_run_of_derives hg ht hdecides hempty hw hderives
    rw [t.recognize_eq_of_run hindices (by rw [hn]; simp), hn]

/-- A left-recursive list, which is empty by rule. -/
theorem recognize_eq_accepted_iff_left_recursive :
    ∃ t g, compile "%% s : s 'a' | ; %%" = .ok t ∧ Grammar.parse "%% s : s 'a' | ; %%" = .ok g ∧
      precedenceLines "%% s : s 'a' | ; %%" = [] ∧ t.conflicts = [] ∧ g.EmptyByRule ∧
      endName ∉ ["'a'", "'a'"] ∧ t.recognize ["'a'", "'a'"] = .accepted ∧
      g.IsSentence ["'a'", "'a'"] := by
  have htable : (compile "%% s : s 'a' | ; %%").map (fun t => decide
      (t.conflicts = [] ∧ t.recognize ["'a'", "'a'"] = .accepted)) = .ok true := by
    decide +kernel
  have hgrammar : (Grammar.parse "%% s : s 'a' | ; %%").map (fun g => decide
      (∀ p ∈ g.productions.toList, p.left ∈ p.right →
        ∃ q ∈ g.productions.toList, q.left = p.left ∧ q.right = [])) = .ok true := by
    decide +kernel
  have hlines : precedenceLines "%% s : s 'a' | ; %%" = [] := by decide +kernel
  have hnames : endName ∉ ["'a'", "'a'"] := by decide
  obtain ⟨t, hcompile, ht⟩ := map_eq_ok_iff.1 htable
  obtain ⟨g, hparse, hg⟩ := map_eq_ok_iff.1 hgrammar
  obtain ⟨hconflicts, haccepted⟩ := of_decide_eq_true ht
  have hempty : g.EmptyByRule := by
    intro i p hp hself _
    obtain ⟨q, hq, hleft, hright⟩ :=
      of_decide_eq_true hg p (Array.mem_toList_iff.2 (Array.mem_of_getElem? hp)) hself
    obtain ⟨j, hj⟩ := Array.mem_iff_getElem?.1 (Array.mem_toList_iff.1 hq)
    exact ⟨j, q, hj, hleft, hright⟩
  have hiff := recognize_eq_accepted_iff hcompile hparse hlines hconflicts hempty hnames
  exact ⟨t, g, hcompile, hparse, hlines, hconflicts, hempty, hnames, haccepted, hiff.1 haccepted⟩

end SlrCompiler
