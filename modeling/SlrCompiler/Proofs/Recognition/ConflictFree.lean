import Mathlib.Data.Fintype.Pigeonhole
import Mathlib.Order.Interval.Finset.Nat
import Mathlib.Order.WellFounded
import SlrCompiler.Proofs.Automaton.Completion
import SlrCompiler.Proofs.Grammar.Lookahead
import SlrCompiler.Proofs.Recognition.Termination

/-! # Termination on tables without conflicts

    A run that does not end makes, from some point on, only reductions that take
    no terminal off the stack: each other move uses up a terminal of the input,
    or of the stack. Call such a reduction quiet.

    Without conflicts there is no endless chain of quiet reductions
    (`acc_quiet`). Each string of the chain can be completed by some terminals,
    and the first of these may follow the left sides of all reductions before.
    As there are finitely many terminals, one of them may follow all left sides
    of the chain. Before that terminal, then, a quiet reduction is proposed in
    every state that is passed; and since nothing else is, the moves of a
    completion that begins with it are those of the chain, and never end either.

    The argument uses all of its conditions: that nonterminals derive terminals,
    that FOLLOW misses nothing (`EmptyByRule`), and that precedence does not
    decide for a quiet reduction (`PrecedenceByTerminal`). Section 5 has three
    tables without conflicts on which runs do not end, one for each of them.
-/

namespace SlrCompiler

variable {g : Grammar} {t : ParseTable} {ts : List Nat}

namespace Grammar

/-! ## Section 1: Quiet reductions -/

variable (g) in
/-- A rule has a precedence only if there is a terminal in its right side. -/
def PrecedenceByTerminal : Prop :=
  ∀ p ∈ g.productions.toList, p.precedence ≠ none → ∃ s ∈ p.right, g.isTerminal s = true

instance : Decidable g.PrecedenceByTerminal :=
  inferInstanceAs (Decidable (∀ p ∈ g.productions.toList, p.precedence ≠ none →
    ∃ s ∈ p.right, g.isTerminal s = true))

variable (g) in
/-- A right side without terminals has been read last, and is replaced by its left
    side; the string goes on to be read. -/
def Quiet (γ δ : List Nat) : Prop :=
  ∃ (n : Nat) (p : Production) (η : List Nat), g.productions[n]? = some p ∧ n ≠ 0 ∧
    (∀ s ∈ p.right, g.isTerminal s = false) ∧ γ = p.right.reverse ++ η ∧ δ = p.left :: η ∧
    ∃ i, g.Reads δ i

theorem Quiet.derives {γ δ : List Nat} (h : g.Quiet γ δ) : g.Derives δ.reverse γ.reverse := by
  obtain ⟨n, p, η, hp, -, -, rfl, rfl, -⟩ := h
  simpa using (Derives.of_production hp).context η.reverse []

/-- What is read after a quiet reduction ends with a nonterminal. -/
theorem Quiet.exists_cons (hg : g.WellFormed) {γ δ : List Nat} (h : g.Quiet γ δ) :
    ∃ s η, δ = s :: η ∧ g.isTerminal s = false := by
  obtain ⟨n, p, η, hp, -, -, -, rfl, -⟩ := h
  exact ⟨p.left, η, rfl, hg.left_nonterminal hp⟩

/-- In a chain of quiet reductions a later string derives what was there before. -/
theorem derives_of_quiet {f : Nat → List Nat} (hf : ∀ k, g.Quiet (f k) (f (k + 1))) {m n : Nat}
    (h : m ≤ n) : g.Derives (f n).reverse (f m).reverse := by
  induction n, h using Nat.le_induction with
  | base => exact .refl
  | succ n _ ih => exact (hf n).derives.trans ih

/-! ## Section 2: What may follow -/

/-- The first of the terminals behind a nonterminal, or the end mark, may follow
    it. -/
theorem headD_mem_follow (hg : g.WellFormed) (hempty : g.EmptyByRule) {φ z : List Nat} {s : Nat}
    (h : g.Derives [g.startSymbol] (φ ++ s :: z)) (hs : g.isTerminal s = false)
    (hz : g.AllTerminal z) : z.headD g.endMark ∈ g.lookahead.follow s := by
  have hend : g.Derives [g.startSymbol, g.endMark] (φ ++ s :: (z ++ [g.endMark])) := by
    simpa using h.context [] [g.endMark]
  have hterminal : g.AllTerminal (z ++ [g.endMark]) := hz.append hg.allTerminal_endMark
  obtain ⟨w, hw⟩ : ∃ w, z ++ [g.endMark] = z.headD g.endMark :: w := by
    cases z with
    | nil => exact ⟨[], rfl⟩
    | cons x z => exact ⟨z ++ [g.endMark], rfl⟩
  rw [hw] at hend hterminal
  exact mem_follow_of_derives hg hempty hend rfl hs (hterminal _ List.mem_cons_self) (.refl _)

/-- The first terminal that completes a string may follow the left sides of all
    quiet reductions that led to the string. -/
theorem Completes.headD_mem_follow (hg : g.WellFormed) (hempty : g.EmptyByRule)
    {f : Nat → List Nat} (hf : ∀ k, g.Quiet (f k) (f (k + 1))) {n : Nat} {z : List Nat}
    (hz : g.Completes (f n) z) {k s : Nat} {η : List Nat} (hk : k < n) (hs : f (k + 1) = s :: η) :
    z.headD g.endMark ∈ g.lookahead.follow s := by
  obtain ⟨s', η', hs', hnonterminal⟩ := (hf k).exists_cons hg
  obtain ⟨rfl, rfl⟩ := List.cons.inj (hs.symm.trans hs')
  have hderives : g.Derives [g.startSymbol] ((f (k + 1)).reverse ++ z) :=
    hz.derives.trans ((derives_of_quiet hf hk).append .refl)
  rw [hs, List.reverse_cons, List.append_assoc, List.singleton_append] at hderives
  exact Grammar.headD_mem_follow hg hempty hderives hnonterminal hz.allTerminal

/-! ## Section 3: Chains of quiet reductions -/

section NoConflicts

variable (hg : g.WellFormed) (htable : g.parseTable = .ok t) (hconflicts : t.conflicts = [])
  (hempty : g.EmptyByRule) (hprecedence : g.PrecedenceByTerminal)
include hg htable hconflicts hprecedence

/-- Before a terminal that may follow its left side a quiet reduction is the only
    action that is proposed. -/
theorem Quiet.exists_only {γ δ : List Nat} (h : g.Quiet γ δ) {y : Nat}
    (hy : ∀ s η, δ = s :: η → y ∈ g.lookahead.follow s) :
    ∃ (s : Nat) (st : State) (rule : Nat) (q : Production) (η : List Nat),
      g.automaton.states[s]? = some st ∧ (∀ i, i ∈ st.items ↔ g.Reads γ i) ∧
      g.productions[rule]? = some q ∧ γ = q.right.reverse ++ η ∧ δ = q.left :: η ∧
      ∀ a, g.Candidate g.lookahead st y a → a = .reduce rule := by
  obtain ⟨n, p, η, hp, hn, hquiet, rfl, rfl, i, hi⟩ := h
  have hinitial := hg.reads_initial hi hp
  obtain ⟨s, st, hst, hitems⟩ := hg.exists_state_of_reads (hinitial.advance_to_end hp)
  -- The table may name another rule, with the same sides.
  obtain ⟨rule, q, hq, hleft, hright, hcandidate⟩ :=
    exists_candidate_reduce hg hitems hp hn rfl hinitial (hy p.left η rfl)
  have hrule : g.productionPrecedence rule = none := by
    rw [productionPrecedence, hq, Option.bind_some]
    by_contra hne
    have hmem : q ∈ g.productions.toList := Array.mem_toList_iff.2 (Array.mem_of_getElem? hq)
    obtain ⟨x, hx, hterminal⟩ := hprecedence q hmem hne
    simp [hquiet x (hright ▸ hx)] at hterminal
  exact ⟨s, st, rule, q, η, hst, hitems, hq, by rw [hright], by rw [hleft],
    fun a ha => hcandidate.eq_reduce htable hconflicts hst hrule ha⟩

include hempty

/-- If a terminal may follow all left sides of an endless chain, no completion of
    a string of the chain begins with it. -/
theorem Completes.ne_of_chain {f : Nat → List Nat} (hf : ∀ k, g.Quiet (f k) (f (k + 1))) {y : Nat}
    (hy : ∀ k s η, f (k + 1) = s :: η → y ∈ g.lookahead.follow s) {γ z : List Nat}
    (h : g.Completes γ z) (hfirst : z.headD g.endMark = y) (k : Nat) : γ ≠ f k := by
  intro hk
  -- The moves of the completion have to be those of the chain, which has no end.
  induction h generalizing k with
  | done =>
    -- Acceptance would be proposed beside the reduction.
    obtain ⟨s, st, rule, q, η, -, hitems, -, -, -, honly⟩ :=
      (hf k).exists_only hg htable hconflicts hprecedence (hy k)
    have haccept := honly .accept (hfirst ▸ candidate_accept hg hitems hk.symm)
    simp at haccept
  | @read γ z x hx hz _ =>
    -- So would a shift.
    obtain ⟨s, st, rule, q, η, hst, hitems, -, -, -, honly⟩ :=
      (hf k).exists_only hg htable hconflicts hprecedence (hy k)
    obtain rfl : x = y := hfirst
    obtain ⟨i, hi⟩ := hz.exists_reads hg
    obtain ⟨j, hj, hnext⟩ := hi.exists_expecting
    obtain ⟨target, hshift⟩ := exists_candidate_shift hg hitems hst (hk ▸ hj) hnext hx
    have heq := honly _ hshift
    simp at heq
  | @close γ z n p hp hn hz ih =>
    obtain ⟨s, st, rule, q, η, hst, hitems, hq, hγ, hδ, honly⟩ :=
      (hf k).exists_only hg htable hconflicts hprecedence (hy k)
    obtain ⟨i, hi⟩ := hz.exists_reads hg
    have hderives : g.Derives [g.startSymbol] (γ.reverse ++ p.left :: z) := by
      simpa using hz.derives
    have hfollow : y ∈ g.lookahead.follow p.left :=
      hfirst ▸ Grammar.headD_mem_follow hg hempty hderives (hg.left_nonterminal hp) hz.allTerminal
    obtain ⟨other, r, hr, hleft, hright, hreduce⟩ :=
      exists_candidate_reduce hg hitems hp hn hk.symm (hg.reads_initial hi hp) hfollow
    -- Both reductions are by the same rule.
    obtain rfl := Action.reduce.inj (honly _ hreduce)
    obtain rfl := Option.some.inj (hq.symm.trans hr)
    -- They leave the same string, the next one of the chain.
    have hsame : γ = η := by
      rw [hγ, ← hright] at hk
      exact List.append_cancel_left hk
    exact ih hfirst (k + 1) (by rw [hδ, hleft, hsame])

/-- **No endless chains**: quiet reductions come to an end on any string. -/
theorem acc_quiet (hproductive : g.Productive) (γ : List Nat) :
    Acc (fun δ γ => g.Quiet γ δ) γ := by
  by_contra hacc
  obtain ⟨f, -, hf⟩ := not_acc_iff_exists_descending_chain.1 hacc
  have hcompletes : ∀ n, ∃ z, g.Completes (f (n + 1)) z := by
    intro n
    obtain ⟨_, _, _, _, _, _, _, _, i, hi⟩ := hf n
    exact exists_completes_of_reads hg hproductive hi
  choose z hz using hcompletes
  have hterminal : ∀ n, (z n).headD g.endMark < g.terminalCount := by
    intro n
    cases hzn : z n with
    | nil => exact isTerminal_iff.1 hg.endMark_terminal
    | cons x w =>
      exact isTerminal_iff.1 ((hz n).allTerminal x (hzn ▸ List.mem_cons_self))
  -- Some terminal begins completions again and again.
  obtain ⟨y, hy⟩ := Finite.exists_infinite_fiber
    fun n => (⟨(z n).headD g.endMark, hterminal n⟩ : Fin g.terminalCount)
  have hagain : ∀ k, ∃ n, k < n ∧ (z n).headD g.endMark = y.val := by
    intro k
    obtain ⟨n, hn, hlt⟩ := (Set.infinite_coe_iff.1 hy).exists_gt k
    exact ⟨n, hlt, congrArg Fin.val hn⟩
  -- It may follow each left side, since it begins a completion later on.
  have hfollow : ∀ k s η, f (k + 1) = s :: η → y.val ∈ g.lookahead.follow s := by
    intro k s η hs
    obtain ⟨n, hlt, hn⟩ := hagain k
    exact hn ▸ (hz n).headD_mem_follow hg hempty hf (Nat.lt_succ_of_lt hlt) hs
  obtain ⟨n, -, hn⟩ := hagain 0
  exact (hz n).ne_of_chain hg htable hconflicts hempty hprecedence hf hfollow hn (n + 1) rfl

end NoConflicts

end Grammar

/-! ## Section 4: Termination -/

/-- A run ends if quiet reductions come to an end: any other move uses up a
    terminal, of the input or of the stack. -/
theorem exists_run_ne_endless (hg : g.WellFormed) (ht : g.Tabulates t) (hts : g.AllTerminal ts)
    (hend : g.endMark ∈ ts) (hquiet : ∀ γ, Acc (fun δ γ => g.Quiet γ δ) γ) {c : Configuration}
    {γ : List Nat} (h : c.Follows g ts γ) : ∃ n, t.run ts.toArray n c ≠ .endless := by
  -- The outer induction is on the terminals that are left, those of the input
  -- counted twice; the inner one is on the quiet reductions, which keep them.
  induction hm : 2 * (ts.length - c.position) + γ.countP g.isTerminal
    using Nat.strongRecOn generalizing c γ with
  | ind m ih =>
    induction hquiet γ generalizing c with
    | intro γ _ ihquiet =>
      apply ParseTable.exists_run_of_next
      intro d hstep
      rcases h.shift_or_reduce hg ht hts hend hstep with
        ⟨x, hx, hposition, hd⟩ | ⟨rule, q, δ, hq, hrule, rfl, hposition, hd⟩
      · refine ih _ ?_ hd rfl
        have hlt := h.position_lt hend
        rw [List.countP_cons_of_pos hx, hposition]
        omega
      · have hleft : (q.left :: δ).countP g.isTerminal = δ.countP g.isTerminal :=
          List.countP_cons_of_neg (by simp [hg.left_nonterminal hq])
        by_cases hterminal : ∀ s ∈ q.right, g.isTerminal s = false
        · have hnone : q.right.countP g.isTerminal = 0 :=
            List.countP_eq_zero.2 fun s hs => by simp [hterminal s hs]
          refine ihquiet (q.left :: δ)
            ⟨rule, q, δ, hq, hrule, hterminal, rfl, rfl, hg.exists_reads hd.spells⟩ hd ?_
          rw [hleft, hposition, ← hm, List.countP_append, List.countP_reverse, hnone, Nat.zero_add]
        · push Not at hterminal
          obtain ⟨s, hs, hs'⟩ := hterminal
          have hsome : 0 < q.right.countP g.isTerminal :=
            List.countP_pos_iff.2 ⟨s, hs, by simpa using hs'⟩
          refine ih _ ?_ hd rfl
          rw [hleft, hposition, ← hm, List.countP_append, List.countP_reverse]
          omega

/-- **Termination without conflicts**: the loop over any input ends, and is never
    cut off, if each nonterminal derives terminals, left sides that occur in their
    own right sides can be empty by rule only, and no rule without terminals has a
    precedence. -/
theorem ends_of_conflicts_nil {spec : String} (hcompile : compile spec = .ok t)
    (hparse : Grammar.parse spec = .ok g) (hconflicts : t.conflicts = [])
    (hproductive : g.Productive) (hempty : g.EmptyByRule)
    (hprecedence : g.PrecedenceByTerminal) (names : List String) :
    t.Ends names ∧ t.recognize names ≠ .endless := by
  obtain ⟨g', hparse', hg, ht⟩ := Grammar.exists_tabulates_of_compile hcompile
  obtain rfl := Except.ok.inj (hparse.symm.trans hparse')
  have htable := Grammar.parseTable_of_compile hcompile hparse
  have hquiet := Grammar.acc_quiet hg htable hconflicts hempty hprecedence hproductive
  have hends : t.Ends names := by
    intro w hw
    obtain ⟨hts, hinput⟩ := allTerminal_input hg ht hw
    have hbegin : t.begin.Follows g (w ++ [g.endMark]) [] :=
      ⟨ht.spells_begin, .refl, List.not_mem_nil⟩
    rw [hinput]
    exact exists_run_ne_endless hg ht hts (by simp) hquiet hbegin
  exact ⟨hends, ParseTable.ends_iff.1 hends⟩

/-- Operators with precedence, in lists that are empty by rule. -/
def operatorLists : String :=
  "%left '+'\n%left '*'\n%% l : l e ';' | ; e : e '+' e | e '*' e | 'a' ; %%"

theorem ends_of_conflicts_nil_operatorLists :
    ∃ t g, compile operatorLists = .ok t ∧ Grammar.parse operatorLists = .ok g ∧
      t.conflicts = [] ∧ g.Productive ∧ g.EmptyByRule ∧ g.PrecedenceByTerminal ∧
      t.Ends ["'a'", "'+'", "'a'", "'*'", "'*'"] := by
  have htable : (compile operatorLists).map (fun t => decide (t.conflicts = [])) = .ok true := by
    decide +kernel
  have hgrammar : (Grammar.parse operatorLists).map (fun g => decide
      ((g.RankedBy fun s => if s = g.acceptSymbol then 1 else 0) ∧ g.MarkedByRule ∧
        g.PrecedenceByTerminal)) = .ok true := by
    decide +kernel
  obtain ⟨t, hcompile, hconflicts⟩ := exists_of_map_decide htable
  obtain ⟨g, hparse, hranked, hmarked, hprecedence⟩ := exists_of_map_decide hgrammar
  have hempty := hmarked.emptyByRule (Grammar.wellFormed_of_parse hparse)
  have hends := (ends_of_conflicts_nil hcompile hparse hconflicts hranked.productive hempty
    hprecedence ["'a'", "'+'", "'a'", "'*'", "'*'"]).1
  exact ⟨t, g, hcompile, hparse, hconflicts, hranked.productive, hempty, hprecedence, hends⟩

/-! ## Section 5: What the conditions exclude -/

/-- Precedence decides for two rules that lead in a circle. -/
def circular : String :=
  "%left 'b'\n%left HIGH\n" ++
    "%% s : a 'b' ; a : c %prec HIGH ; c : a %prec HIGH | 'x' | 'x' 'y' 'z' ; %%"

/-- The nonterminals `a` and `c` derive no terminals. They pass for empty, so that
    `b` may come before `'y'`, and then again. -/
def unproductive : String := "%% s : 'x' | a 'y' ; a : b c ; c : a ; b : ; %%"

/-- The nonterminals `a`, `b` and `c` are empty, but not by rule. Each can follow
    itself after the next one, and they are reduced in turn. -/
def hiddenEmpty : String :=
  "%% s : | 'p' a u 'x' | c w 'x' ; a : a b 'e' | g ; b : b c 'f' | n ; c : c a 'd' | s ; " ++
    "g : ; n : ; u : n 'k' ; w : g 'm' ; %%"

theorem not_ends_circular :
    ∃ t g, compile circular = .ok t ∧ Grammar.parse circular = .ok g ∧ t.conflicts = [] ∧
      g.Productive ∧ g.EmptyByRule ∧ ¬ t.Ends ["'x'", "'b'"] := by
  have htable : (compile circular).map (fun t => decide
      (t.conflicts = [] ∧ t.terminalIndices ["'x'", "'b'"] = .ok [4, 0] ∧
        t.after (t.input [4, 0]) 2 t.begin = some ⟨4, [0], 1⟩ ∧ (t.input [4, 0])[1]? = some 0 ∧
        t.reducedBy 0 2 [4, 0] = some ([4, 0] ++ []))) = .ok true := by
    decide +kernel
  have hgrammar : (Grammar.parse circular).map (fun g => decide
      ((g.RankedBy fun s => g.symbolCount - s) ∧ g.MarkedByRule)) = .ok true := by
    decide +kernel
  obtain ⟨t, hcompile, hconflicts, hindices, hafter, hnext, hcycle⟩ := exists_of_map_decide htable
  obtain ⟨g, hparse, hranked, hmarked⟩ := exists_of_map_decide hgrammar
  have hempty := hmarked.emptyByRule (Grammar.wellFormed_of_parse hparse)
  have hendless : ¬ t.Ends ["'x'", "'b'"] :=
    t.not_ends_of_pump hindices hafter hnext rfl (by decide) hcycle
  exact ⟨t, g, hcompile, hparse, hconflicts, hranked.productive, hempty, hendless⟩

theorem not_ends_unproductive :
    ∃ t g, compile unproductive = .ok t ∧ Grammar.parse unproductive = .ok g ∧ t.conflicts = [] ∧
      g.EmptyByRule ∧ g.PrecedenceByTerminal ∧ ¬ t.Ends ["'y'"] := by
  have htable : (compile unproductive).map (fun t => decide
      (t.conflicts = [] ∧ t.terminalIndices ["'y'"] = .ok [3] ∧
        t.after (t.input [3]) 1 t.begin = some ⟨4, [0], 0⟩ ∧ (t.input [3])[0]? = some 3 ∧
        t.reducedBy 3 1 [4] = some ([4] ++ [4]))) = .ok true := by
    decide +kernel
  have hgrammar : (Grammar.parse unproductive).map (fun g => decide
      (g.MarkedByRule ∧ g.PrecedenceByTerminal)) = .ok true := by
    decide +kernel
  obtain ⟨t, hcompile, hconflicts, hindices, hafter, hnext, hpump⟩ := exists_of_map_decide htable
  obtain ⟨g, hparse, hmarked, hprecedence⟩ := exists_of_map_decide hgrammar
  have hempty := hmarked.emptyByRule (Grammar.wellFormed_of_parse hparse)
  have hendless : ¬ t.Ends ["'y'"] :=
    t.not_ends_of_pump hindices hafter hnext rfl (by decide) hpump
  exact ⟨t, g, hcompile, hparse, hconflicts, hempty, hprecedence, hendless⟩

theorem not_ends_hiddenEmpty :
    ∃ t g, compile hiddenEmpty = .ok t ∧ Grammar.parse hiddenEmpty = .ok g ∧ t.conflicts = [] ∧
      g.Productive ∧ g.PrecedenceByTerminal ∧ ¬ t.Ends ["'x'"] := by
  have htable : (compile hiddenEmpty).map (fun t => decide
      (t.conflicts = [] ∧ t.terminalIndices ["'x'"] = .ok [3] ∧
        t.after (t.input [3]) 8 t.begin = some ⟨18, [9, 6, 3, 0], 0⟩ ∧
        (t.input [3])[0]? = some 3 ∧
        t.reducedBy 3 6 [18] = some ([18] ++ [9, 6, 18]))) = .ok true := by
    decide +kernel
  have hgrammar : (Grammar.parse hiddenEmpty).map (fun g => decide
      ((g.RankedBy fun s => if s ∈ g.epsilon then 0 else 1) ∧ g.PrecedenceByTerminal))
      = .ok true := by
    decide +kernel
  obtain ⟨t, hcompile, hconflicts, hindices, hafter, hnext, hpump⟩ := exists_of_map_decide htable
  obtain ⟨g, hparse, hranked, hprecedence⟩ := exists_of_map_decide hgrammar
  have hendless : ¬ t.Ends ["'x'"] :=
    t.not_ends_of_pump hindices hafter hnext rfl (by decide) hpump
  exact ⟨t, g, hcompile, hparse, hconflicts, hranked.productive, hprecedence, hendless⟩

/-- **Loops without conflicts**: two of the three conditions are not enough. -/
theorem not_ends_of_conflicts_nil :
    (∃ t g, compile circular = .ok t ∧ Grammar.parse circular = .ok g ∧ t.conflicts = [] ∧
      g.Productive ∧ g.EmptyByRule ∧ ¬ t.Ends ["'x'", "'b'"]) ∧
    (∃ t g, compile unproductive = .ok t ∧ Grammar.parse unproductive = .ok g ∧
      t.conflicts = [] ∧ g.EmptyByRule ∧ g.PrecedenceByTerminal ∧ ¬ t.Ends ["'y'"]) ∧
    ∃ t g, compile hiddenEmpty = .ok t ∧ Grammar.parse hiddenEmpty = .ok g ∧ t.conflicts = [] ∧
      g.Productive ∧ g.PrecedenceByTerminal ∧ ¬ t.Ends ["'x'"] :=
  ⟨not_ends_circular, not_ends_unproductive, not_ends_hiddenEmpty⟩

end SlrCompiler
