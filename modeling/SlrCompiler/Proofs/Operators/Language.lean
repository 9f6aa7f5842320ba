import SlrCompiler.Proofs.Operators.Grouping
import SlrCompiler.Proofs.Recognition.Termination

/-! # Operator grammars: what is accepted

    An operator grammar accepts its operand, and after every operator the operand
    again (`chain`). The leaves of a grouped tree are such a chain
    (`Grouped.exists_chain`). In the other direction a run over a chain never comes to
    a blank cell, since what is left to be read continues the path at every step
    (`Remains`); and it ends, so it accepts (`accepted_of_chain`).
-/

namespace SlrCompiler

/-- The operand, and after each of the operators the operand again. -/
def chain {α : Type} (operand : α) (operators : List α) : List α :=
  operand :: operators.flatMap fun x => [x, operand]

theorem chain_append {α : Type} (operand x : α) (before after : List α) :
    chain operand (before ++ x :: after) = chain operand before ++ x :: chain operand after := by
  simp [chain]

theorem map_chain {α β : Type} (f : α → β) (operand : α) (operators : List α) :
    (chain operand operators).map f = chain (f operand) (operators.map f) := by
  simp [chain, List.map_flatMap, List.flatMap_map]

namespace Grammar

variable {g : Grammar} {n : Nat}

/-! ## Section 1: The leaves of a tree -/

/-- A node stands for an operand or for an operation. -/
theorem OperatorRules.right_of_forest (h : g.OperatorRules n) {rule : Nat} {children : List Tree}
    {w : List Nat} (hforest : g.Forest [g.startSymbol] [.node rule children] w) :
    g.Forest [n] children w ∨
      ∃ x, g.IsOperator x ∧ g.Forest [g.startSymbol, x, g.startSymbol] children w := by
  obtain ⟨p, hp, hleft, hchildren⟩ := hforest.exists_children
  have hne : rule ≠ 0 :=
    h.wellFormed.ne_zero_of_left hp (hleft ▸ h.wellFormed.startSymbol_ne_acceptSymbol)
  rcases (h.production hp hne).2 with hright | ⟨x, hright⟩
  · exact .inl (hright ▸ hchildren)
  · exact .inr ⟨x, ⟨rule, p, hp, hright⟩, hright ▸ hchildren⟩

/-- The leaves of an operation, or of an operand, are a chain. -/
theorem Grouped.exists_chain (h : g.OperatorRules n) {tree : Tree} (htree : g.Grouped tree)
    {w : List Nat} (hforest : g.Forest [g.startSymbol] [tree] w) :
    ∃ operators, (∀ x ∈ operators, g.IsOperator x) ∧ w = chain n operators := by
  -- The shape of the tree says which of the two rules its root is.
  induction htree generalizing w with
  | leaf =>
    obtain ⟨_, _, _, _, _, _, -, -, heq, -⟩ := hforest.exists_node h.startSymbol_nonterminal
    simp at heq
  | single _ _ =>
    rcases h.right_of_forest hforest with hoperand | ⟨x, -, hoperation⟩
    · obtain ⟨others, v, -, rfl, hrest⟩ := hoperand.eq_leaf h.wellFormed h.operand_terminal
      cases hrest
      exact ⟨[], by simp, rfl⟩
    · exact absurd hoperation.length_eq (by simp)
  | operation _ _ _ _ ihleft ihright =>
    rcases h.right_of_forest hforest with hoperand | ⟨x, hx, hoperation⟩
    · exact absurd hoperand.length_eq (by simp)
    · -- The leaves are those of the left operand, the operator and those of the right one.
      obtain ⟨front, back, u, v, htrees, rfl, hfront, hback⟩ :=
        hoperation.split (φ := [g.startSymbol])
      obtain ⟨tree, rfl⟩ := List.length_eq_one_iff.1 hfront.length_eq
      obtain ⟨rfl, rfl⟩ := List.cons.inj htrees
      obtain ⟨others, w, heq, rfl, hright⟩ :=
        hback.eq_leaf h.wellFormed (h.operator_terminal hx)
      obtain ⟨-, rfl⟩ := List.cons.inj heq
      obtain ⟨before, hbefore, rfl⟩ := ihleft hfront
      obtain ⟨after, hafter, rfl⟩ := ihright hright
      refine ⟨before ++ x :: after, ?_, (chain_append n x before after).symm⟩
      simp only [List.mem_append, List.mem_cons]
      rintro y (hy | rfl | hy)
      · exact hbefore y hy
      · exact hx
      · exact hafter y hy

/-! ## Section 2: What is left to be read -/

variable (g n) in
/-- What is left to be read continues a path to a chain: a chain where an operand is
    expected, and after one the rest of a chain. -/
inductive Remains : List Nat → List Nat → Prop
  | operand {γ operators : List Nat} : g.Open γ → (∀ x ∈ operators, g.IsOperator x) →
      Remains γ (chain n operators ++ [g.endMark])
  | after {s : Nat} {γ operators : List Nat} : s = n ∨ s = g.startSymbol → g.Open γ →
      (∀ x ∈ operators, g.IsOperator x) →
      Remains (s :: γ) ((operators.flatMap fun x => [x, n]) ++ [g.endMark])

theorem Remains.continues {γ rest : List Nat} {x : Nat} (h : g.Remains n γ (x :: rest)) :
    g.Continues n γ x := by
  generalize hall : x :: rest = all at h
  cases h with
  | operand hγ _ =>
    obtain ⟨rfl, -⟩ := List.cons.inj hall
    exact .operand hγ
  | @after s δ operators hs hγ hoperators =>
    refine .after hs hγ ?_
    cases operators with
    | nil => exact .inr (List.cons.inj hall).1
    | cons y operators => exact .inl ((List.cons.inj hall).1 ▸ hoperators y List.mem_cons_self)

namespace OperatorRules

variable (h : g.OperatorRules n)
include h

theorem remains_of_shift {γ rest : List Nat} {x target : Nat}
    (hremains : g.Remains n γ (x :: rest)) (hoffers : g.Offers n γ x (.shift target)) :
    g.Remains n (x :: γ) rest := by
  generalize hall : x :: rest = all at hremains
  cases hremains with
  | operand hγ hoperators =>
    obtain ⟨rfl, rfl⟩ := List.cons.inj hall
    exact .after (.inl rfl) hγ hoperators
  | @after s δ operators hs _ hoperators =>
    cases hoffers with
    | shiftOperand _ hopen => exact absurd hopen (h.not_open_cons hs)
    | shiftOperator hx hγ hδ =>
      obtain ⟨rfl, rfl⟩ := List.cons.inj hγ
      cases operators with
      | nil =>
        -- The end mark is no operator: it is in no right side.
        obtain ⟨i, p, hp, hright⟩ := hx
        have hend := h.wellFormed.endMark_notMem hp
        rw [hright, ← (List.cons.inj hall).1] at hend
        exact absurd (by simp) hend
      | cons y operators =>
        obtain ⟨rfl, rfl⟩ := List.cons.inj hall
        exact .operand (.cons hx hδ) fun z hz => hoperators z (List.mem_cons_of_mem _ hz)

theorem remains_of_reduce {γ δ rest : List Nat} {x rule : Nat} {q : Production}
    (hremains : g.Remains n γ rest) (hoffers : g.Offers n γ x (.reduce rule))
    (hq : g.productions[rule]? = some q) (hne : rule ≠ 0) (hγ : γ = q.right.reverse ++ δ) :
    g.Remains n (q.left :: δ) rest := by
  obtain ⟨hδ, hpath⟩ := hoffers.reduce_cases hq hγ
  cases hremains with
  | operand hopen _ =>
    rcases hpath with ⟨-, rfl⟩ | ⟨y, -, rfl⟩
    · exact absurd hopen (h.not_open_cons (.inl rfl))
    · exact absurd hopen (h.not_open_cons (.inr rfl))
  | after _ _ hoperators => exact .after (.inr (h.production hq hne).1) hδ hoperators

/-! ## Section 3: Runs -/

variable {t : ParseTable} (ht : g.Tabulates t) {ts : List Nat} (hts : g.AllTerminal ts)
  (hend : g.endMark ∈ ts) {c d : Configuration}
include ht hts hend

/-- **One step** leaves what continues the path to a chain. -/
theorem remains_step {γ : List Nat} (hc : c.Follows g ts γ)
    (hremains : g.Remains n γ (ts.drop c.position)) (hstep : c.step t ts.toArray = .next d) :
    ∃ δ, d.Follows g ts δ ∧ g.Remains n δ (ts.drop d.position) := by
  obtain ⟨x, hx, hterminal, hmoved⟩ := hc.action_of_step h.wellFormed ht hts hend hstep
  rcases hmoved with ⟨target, haction, hposition, hd⟩ | ⟨rule, q, δ, haction, hq, hne, hγ,
    hposition, hd⟩
  · have hoffers := h.offers_of_actionAt ht hc.spells hterminal haction (by simp)
    obtain ⟨hlt, rfl⟩ := List.getElem?_eq_some_iff.1 hx
    rw [List.drop_eq_getElem_cons hlt] at hremains
    exact ⟨_, hd, hposition ▸ h.remains_of_shift hremains hoffers⟩
  · have hoffers := h.offers_of_actionAt ht hc.spells hterminal haction (by simp)
    exact ⟨_, hd, hposition ▸ h.remains_of_reduce hremains hoffers hq hne hγ⟩

/-- The last step of a run accepts while a chain is left to be read. -/
theorem verdict_of_remains {γ : List Nat} (hc : c.Follows g ts γ)
    (hremains : g.Remains n γ (ts.drop c.position)) :
    (c.step t ts.toArray).verdict = .endless ∨ c.step t ts.toArray = .accepted := by
  obtain ⟨x, hinput, hlt⟩ := hc.getElem?_position hts hend
  obtain ⟨st, hst, hitems⟩ := h.wellFormed.exists_state hc.spells
  have hx : ts[c.position]? = some x := by simpa using hinput
  obtain ⟨hposition, rfl⟩ := List.getElem?_eq_some_iff.1 hx
  rw [List.drop_eq_getElem_cons hposition] at hremains
  have hne := h.actionAt_ne_error hst hitems ht hremains.continues hlt
  cases haction : t.actionAt c.top ts[c.position] with
  | shift target => exact .inl (by rw [Configuration.step_of_shift hinput haction]; rfl)
  | reduce rule =>
    obtain ⟨_, _, _, _, _, -, -, -, -, -, hstep⟩ :=
      exists_step_of_reduce h.wellFormed ht hc.spells hlt hinput haction
    exact .inl (by rw [hstep]; rfl)
  | accept => exact .inr (Configuration.step_of_accept hinput haction)
  | error => exact absurd haction hne

theorem exists_remains_of_reaches {γ : List Nat} (hc : c.Follows g ts γ)
    (hremains : g.Remains n γ (ts.drop c.position)) (hreaches : t.Reaches ts.toArray c d) :
    ∃ δ, d.Follows g ts δ ∧ g.Remains n δ (ts.drop d.position) := by
  induction hreaches with
  | refl => exact ⟨γ, hc, hremains⟩
  | tail _ hstep ih =>
    obtain ⟨δ, hδ, hrest⟩ := ih
    exact h.remains_step ht hts hend hδ hrest hstep

omit ht hts hend

theorem right_ne_nil {i : Nat} {p : Production} (hp : g.productions[i]? = some p) :
    p.right ≠ [] := by
  by_cases hi : i = 0
  · have hzero := h.wellFormed.rightSide_zero
    rw [← hi, rightSide_eq hp] at hzero
    simp [hzero]
  · rcases (h.production hp hi).2 with hright | ⟨x, hright⟩ <;> simp [hright]

/-- Only `$accept` has a rule for a single nonterminal. -/
theorem left_of_unitRule {a b : Nat} (hunit : g.UnitRule a b) :
    a = g.acceptSymbol ∧ b = g.startSymbol := by
  obtain ⟨hb, i, p, hp, hleft, hright⟩ := hunit
  by_cases hi : i = 0
  · obtain ⟨q, hq, hqleft, hqright⟩ := h.wellFormed.augmenting
    obtain rfl := Option.some.inj ((hi ▸ hp).symm.trans hq)
    rw [hqright] at hright
    exact ⟨hleft.symm.trans hqleft, (List.cons.inj hright).1.symm⟩
  · rcases (h.production hp hi).2 with hoperand | ⟨x, hoperation⟩
    · rw [hoperand] at hright
      rw [← (List.cons.inj hright).1, h.operand_terminal] at hb
      exact absurd hb (by simp)
    · simp [hoperation] at hright

theorem unitRule_acyclic (s : Nat) : ¬ Relation.TransGen g.UnitRule s s := by
  intro hcycle
  obtain ⟨a, hfirst, -⟩ := Relation.TransGen.head'_iff.1 hcycle
  obtain ⟨b, -, hlast⟩ := Relation.TransGen.tail'_iff.1 hcycle
  exact h.wellFormed.startSymbol_ne_acceptSymbol
    ((h.left_of_unitRule hlast).2.symm.trans (h.left_of_unitRule hfirst).1)

/-- **Chains** are accepted. -/
theorem accepted_of_chain (ht : g.Tabulates t) {operators : List Nat}
    (hoperators : ∀ x ∈ operators, g.IsOperator x) :
    t.recognize ((chain n operators).map g.symbolName) = .accepted := by
  have hw : g.AllTerminal (chain n operators) := by
    intro s hs
    simp only [chain, List.mem_cons, List.mem_flatMap, List.not_mem_nil, or_false] at hs
    rcases hs with rfl | ⟨x, hx, rfl | rfl⟩
    · exact h.operand_terminal
    · exact h.operator_terminal (hoperators _ hx)
    · exact h.operand_terminal
  have hindices := (ht.terminalIndices_eq_ok_iff h.wellFormed).2 ⟨hw, rfl⟩
  obtain ⟨hts, hinput⟩ := allTerminal_input h.wellFormed ht hindices
  -- No rule is empty and none but the augmenting one is a unit rule, so the run ends. At
  -- its last step the rest of a chain is left, so it has not come to a blank cell.
  have hends := run_toDo_ne_endless h.wellFormed ht hts (by simp)
    (fun i p hp => h.right_ne_nil hp) h.unitRule_acyclic
  obtain ⟨d, hreaches, hverdict⟩ := ParseTable.exists_last_step hends
  obtain ⟨γ, hγ, hremains⟩ := h.exists_remains_of_reaches ht hts (by simp)
    (Configuration.follows_begin ht) (.operand .nil hoperators) hreaches
  rcases h.verdict_of_remains ht hts (by simp) hγ hremains with hendless | haccepted
  · exact absurd (hverdict.symm.trans hendless) hends
  · rw [haccepted] at hverdict
    rw [← hinput] at hends hverdict
    rw [t.recognize_eq_of_run hindices hends, ← hverdict]
    rfl

/-- **The language** of an operator grammar, among the inputs without an end mark: the
    chains of its operand. -/
theorem accepted_iff_chain (ht : g.parseTable = .ok t) {names : List String}
    (hnames : endName ∉ names) :
    t.recognize names = .accepted ↔ ∃ operators, (∀ x ∈ operators, g.IsOperator x) ∧
      names = (chain n operators).map g.symbolName := by
  constructor
  · intro haccepted
    obtain ⟨tree, v, -, hforest, hv, htree⟩ := h.exists_grouped_of_recognize ht haccepted
    obtain ⟨operators, hoperators, rfl⟩ := htree.exists_chain h hforest
    refine ⟨operators, hoperators, ?_⟩
    rw [hv, takeWhile_ne_endName hnames]
  · rintro ⟨operators, hoperators, rfl⟩
    exact h.accepted_of_chain (tabulates_of_parseTable ht) hoperators

end OperatorRules

end Grammar

end SlrCompiler
