import SlrCompiler.Proofs.Operators.Paths
import SlrCompiler.Proofs.Recognition.Trees

/-! # Operator grammars: how a run groups

    A choice at a cell is local: it compares the next operator with the last one. What
    comes of all choices of a run is a tree in which precedence favours every operator
    of an operand over the one above it (`Grouped`).

    The invariant (`Groups`) speaks of the operations that are not complete. Each has
    its left operand, whose operator was reduced before it, and each was begun because
    a shift was favoured over the reduction of the one before (`Nested`). The operand
    that has been completed last was favoured over the next terminal. One step keeps
    that (`Groups.step`), so the tree of a run that accepts is grouped
    (`exists_grouped_of_recognize`).
-/

namespace SlrCompiler

/-! ## Section 1: Grouped trees -/

namespace Tree

/-- The operator of an operation: the leaf between its operands. -/
def operator? : Tree → Option Nat
  | .node _ [_, .leaf x, _] => some x
  | _ => none

/-- The first tree is a part of the second one, or all of it. -/
inductive Within : Tree → Tree → Prop
  | refl {tree : Tree} : Within tree tree
  | child {part child : Tree} {rule : Nat} {children : List Tree} : Within part child →
      child ∈ children → Within part (.node rule children)

end Tree

namespace Grammar

variable {g : Grammar}

variable (g) in
/-- Precedence favours the operators of the operands: it reduces the left one before the
    operator, and reads on for the right one. -/
inductive Grouped : Tree → Prop
  | leaf {x : Nat} : Grouped (.leaf x)
  | single {rule : Nat} {tree : Tree} : Grouped tree → Grouped (.node rule [tree])
  | operation {rule x : Nat} {left right : Tree} : Grouped left → Grouped right →
      (∀ y, left.operator? = some y → g.Favours .reduce x y) →
      (∀ y, right.operator? = some y → g.Favours .shift y x) →
      Grouped (.node rule [left, .leaf x, right])

namespace Grouped

/-- The parts of a grouped tree are grouped. -/
theorem of_within {part tree : Tree} (hpart : part.Within tree) (h : g.Grouped tree) :
    g.Grouped part := by
  induction hpart with
  | refl => exact h
  | child _ hmem ih =>
    refine ih ?_
    cases h with
    | single htree => exact List.mem_singleton.1 hmem ▸ htree
    | operation hleft hright _ _ =>
      simp only [List.mem_cons, List.not_mem_nil, or_false] at hmem
      rcases hmem with rfl | rfl | rfl
      · exact hleft
      · exact .leaf
      · exact hright

theorem favours {rule x : Nat} {left right : Tree}
    (h : g.Grouped (.node rule [left, .leaf x, right])) :
    (∀ y, left.operator? = some y → g.Favours .reduce x y) ∧
      ∀ y, right.operator? = some y → g.Favours .shift y x := by
  cases h with
  | operation _ _ hreduce hshift => exact ⟨hreduce, hshift⟩

end Grouped

/-! ## Section 2: The invariant -/

variable (g) in
/-- The operations on a path that are not complete, with their left operands. -/
inductive Nested : List Nat → List Tree → Prop
  | nil : Nested [] []
  | cons {x : Nat} {left : Tree} {γ : List Nat} {forest : List Tree} : g.IsOperator x →
      g.Grouped left → (∀ y, left.operator? = some y → g.Favours .reduce x y) →
      (∀ y δ, γ = y :: δ → g.Favours .shift x y) → Nested γ forest →
      Nested (x :: g.startSymbol :: γ) (.leaf x :: left :: forest)

theorem Nested.open {γ : List Nat} {forest : List Tree} (h : g.Nested γ forest) : g.Open γ := by
  induction h with
  | nil => exact .nil
  | cons hx _ _ _ _ ih => exact .cons hx ih

variable (g) in
/-- A path with its forest: an operand is expected, or has been completed. Of its
    operator two choices are known, the one over the operator before it and the one
    over the operator that comes next. -/
inductive Groups (n : Nat) (next : Option Nat) : List Nat → List Tree → Prop
  | expecting {γ : List Nat} {forest : List Tree} : g.Nested γ forest → Groups n next γ forest
  | complete {s : Nat} {γ : List Nat} {tree : Tree} {forest : List Tree} :
      s = n ∨ s = g.startSymbol → g.Grouped tree →
      (∀ y z δ, tree.operator? = some y → γ = z :: δ → g.Favours .shift y z) →
      (∀ x y, next = some x → g.IsOperator x → tree.operator? = some y → g.Favours .reduce x y) →
      g.Nested γ forest → Groups n next (s :: γ) (tree :: forest)

namespace OperatorRules

variable {n : Nat} (h : g.OperatorRules n)
include h

/-! ## Section 3: One step -/

/-- What a cell holds is one of the actions that its path offers. -/
theorem offers_of_actionAt {t : ParseTable} (ht : g.Tabulates t) {γ below : List Nat} {s x : Nat}
    {a : Action} (hspells : g.automaton.Spells γ (s :: below)) (hx : g.isTerminal x = true)
    (haction : t.actionAt s x = a) (hne : a ≠ .error) : g.Offers n γ x a := by
  obtain ⟨st, hst, hitems⟩ := h.wellFormed.exists_state hspells
  rcases ht.action hst (isTerminal_iff.1 hx) with hcandidate | ⟨hblank, -⟩
  · exact h.offers_of_candidate hitems (haction ▸ hcandidate)
  · exact absurd (haction.symm.trans hblank) hne

/-- What the cell does after an operation is what precedence favours. -/
theorem favours_of_actionAt {t : ParseTable} (ht : g.parseTable = .ok t) {δ below : List Nat}
    {s x y v r : Nat} {preference : Preference}
    (hspells : g.automaton.Spells (g.startSymbol :: y :: g.startSymbol :: δ) (s :: below))
    (hy : g.IsOperator y) (hδ : g.Open δ) (hx : g.IsOperator x)
    (haction : t.actionAt s x = preference.action v r) : g.Favours preference x y := by
  obtain ⟨st, hst, hitems⟩ := h.wellFormed.exists_state hspells
  obtain ⟨favoured, target, rule, hfavours, heq⟩ :=
    h.exists_favours_of_operation hst hitems ht rfl hy hδ hx
  have hsame : favoured = preference := by
    rw [haction] at heq
    cases favoured <;> cases preference <;> simp [Preference.action] at heq ⊢
  exact hsame ▸ hfavours

section Cells

variable {t : ParseTable} (ht : g.parseTable = .ok t) {γ below : List Nat} {s x : Nat}
  (hspells : g.automaton.Spells γ (s :: below)) (hx : g.isTerminal x = true)
  {forest : List Tree} (hgroups : g.Groups n (some x) γ forest)
include ht hspells hx hgroups

/-- A shift completes an operand or begins an operation. -/
theorem groups_of_shift {target : Nat} (haction : t.actionAt s x = .shift target)
    (next : Option Nat) : g.Groups n next (x :: γ) (.leaf x :: forest) := by
  cases h.offers_of_actionAt (tabulates_of_parseTable ht) hspells hx haction (by simp) with
  | shiftOperand heq hγ =>
    cases hgroups with
    | expecting hnested =>
      exact .complete (.inl heq) .leaf (by simp [Tree.operator?]) (by simp [Tree.operator?]) hnested
    | complete hs _ _ _ _ => exact absurd hγ (h.not_open_cons hs)
  | @shiftOperator _ δ hoperator hγ hδ =>
    subst hγ
    cases hgroups with
    | expecting hnested => exact absurd hnested.open (h.not_open_cons (.inr rfl))
    | complete _ htree _ hreduce hnested =>
      -- The operator is favoured over the one before it, or there is none.
      have hshift : ∀ y η, δ = y :: η → g.Favours .shift x y := by
        rintro y η rfl
        cases hδ with
        | cons hy hη =>
          have hcell : t.actionAt s x = Preference.shift.action target 0 := haction
          exact h.favours_of_actionAt ht hspells hy hη hoperator hcell
      exact .expecting (.cons hoperator htree (fun y => hreduce x y rfl hoperator) hshift hnested)

/-- A reduction completes an operand, or an operation and with it the operand of the
    operation before. -/
theorem groups_of_reduce {rule : Nat} {q : Production} {δ : List Nat} {children others : List Tree}
    (haction : t.actionAt s x = .reduce rule) (hq : g.productions[rule]? = some q) (hne : rule ≠ 0)
    (hγ : γ = q.right.reverse ++ δ) (hforest : forest = children.reverse ++ others)
    (hlength : children.length = q.right.length) :
    g.Groups n (some x) (q.left :: δ) (.node rule children :: others) := by
  have hleft : q.left = n ∨ q.left = g.startSymbol := .inr (h.production hq hne).1
  have hoffers := h.offers_of_actionAt (tabulates_of_parseTable ht) hspells hx haction (by simp)
  obtain ⟨-, ⟨hright, hpath⟩ | ⟨y, hright, hpath⟩⟩ := hoffers.reduce_cases hq hγ
  · -- One tree becomes the only child of a node without an operator.
    obtain ⟨tree, rfl⟩ := List.length_eq_one_iff.1 (hright ▸ hlength)
    subst hpath hforest
    cases hgroups with
    | expecting hnested => exact absurd hnested.open (h.not_open_cons (.inl rfl))
    | complete _ htree _ _ hnested =>
      exact .complete hleft (.single htree) (by simp [Tree.operator?]) (by simp [Tree.operator?])
        hnested
  · -- The three trees are the last operand, the operator and its left operand.
    obtain ⟨left, middle, right, rfl⟩ := List.length_eq_three.1 (hright ▸ hlength)
    subst hpath hforest
    cases hgroups with
    | expecting hnested => exact absurd hnested.open (h.not_open_cons (.inr rfl))
    | complete _ htree hshift _ hnested =>
      cases hnested with
      | cons hy hgrouped hreduce hbefore hrest =>
        have hgrouping : g.Grouped (.node rule [left, .leaf y, right]) :=
          .operation hgrouped htree hreduce fun z hz => hshift z y _ hz rfl
        have hnext : ∀ v z, some x = some v → g.IsOperator v →
            (Tree.node rule [left, .leaf y, right]).operator? = some z →
            g.Favours .reduce v z := by
          intro v z hv hoperator hz
          obtain rfl := Option.some.inj hv
          obtain rfl : y = z := Option.some.inj hz
          have hcell : t.actionAt s x = Preference.reduce.action 0 rule := haction
          exact h.favours_of_actionAt ht hspells hy hrest.open hoperator hcell
        refine .complete hleft hgrouping (fun z v θ hz hθ => ?_) hnext hrest
        obtain rfl : y = z := Option.some.inj hz
        exact hbefore v θ hθ

end Cells

/-- **One step** keeps what is known of a path and its forest. -/
theorem groups_step {t : ParseTable} (ht : g.parseTable = .ok t) {ts γ : List Nat}
    {c d : Configuration} {forest : List Tree} (hc : c.Builds g ts γ forest)
    (hgroups : g.Groups n ts[c.position]? γ forest) (hts : g.AllTerminal ts)
    (hend : g.endMark ∈ ts) (hstep : c.step t ts.toArray = .next d) :
    ∃ δ, d.Builds g ts δ (c.grow t ts.toArray forest) ∧
      g.Groups n ts[d.position]? δ (c.grow t ts.toArray forest) := by
  have htable := tabulates_of_parseTable ht
  obtain ⟨x, hx, hterminal, hmoved⟩ := hc.step h.wellFormed htable hts hend hstep
  rw [hx] at hgroups
  rcases hmoved with ⟨target, haction, -, hgrow, hd⟩ | ⟨rule, q, δ, children, others,
    haction, hq, hne, hγ, hposition, hforest, hlength, hgrow, hd⟩
  · rw [hgrow]
    exact ⟨_, hd, h.groups_of_shift ht hc.spells hterminal hgroups haction _⟩
  · rw [hgrow, hposition, hx]
    exact ⟨_, hd, h.groups_of_reduce ht hc.spells hterminal hgroups haction hq hne hγ hforest
      hlength⟩

/-! ## Section 4: Runs -/

/-- **Grouping**: the tree of a run that accepts is grouped. -/
theorem exists_grouped_of_recognize {t : ParseTable} (ht : g.parseTable = .ok t)
    {names : List String} (haccepted : t.recognize names = .accepted) :
    ∃ tree v, t.forest names = [tree] ∧ g.Forest [g.startSymbol] [tree] v ∧
      v.map g.symbolName = names.takeWhile (· != endName) ∧ g.Grouped tree := by
  have htable := tabulates_of_parseTable ht
  obtain ⟨tree, v, ts, d, γ, hforest, hv, hnames, hgroups⟩ :=
    exists_tree_of_invariant (motive := fun ts c γ forest => g.Groups n ts[c.position]? γ forest)
      h.wellFormed htable (fun ts => .expecting .nil)
      (fun ts c d γ forest hts hend hc hgroups hnext =>
        h.groups_step ht hc hgroups hts hend hnext)
      haccepted
  refine ⟨tree, v, hforest, hv, hnames, ?_⟩
  -- The path of a single tree is not open.
  cases hgroups with
  | expecting hnested => cases hnested
  | complete _ htree _ _ _ => exact htree

end OperatorRules

end Grammar

end SlrCompiler
