import SlrCompiler.Proofs.Recognition.Soundness

/-! # The tree of a run

    A run that is watched builds a syntax tree from the leaves up. Beside the
    stack of states it has a forest, one tree for each state but the first: a
    shift puts a leaf on top of it, and a reduction joins as many trees as its rule
    has symbols under one node (`Configuration.grow`).

    The trees of the forest are syntax trees of the symbols on the path, and their
    leaves are what has been read (`Configuration.Builds`). One step keeps that
    (`Builds.step`), so a run that accepts ends with one tree: a syntax tree of the
    start symbol over the input (`exists_tree_of_recognize`).
-/

namespace SlrCompiler

/-- A syntax tree: a terminal, or a rule over the trees of its right side. -/
inductive Tree where
  | leaf (terminal : Nat)
  | node (rule : Nat) (children : List Tree)

/-! ## Section 1: Building -/

/-- The forest after the next step: a shift adds a leaf, a reduction joins the trees
    of its right side. The last tree comes first, as on the stack. -/
def Configuration.grow (t : ParseTable) (input : Array Nat) (c : Configuration)
    (forest : List Tree) : List Tree :=
  match c.action t input with
  | some (x, .shift _) => .leaf x :: forest
  | some (_, .reduce rule) =>
    match t.rules[rule]? with
    | none => forest
    | some r => .node rule (forest.take r.arity).reverse :: forest.drop r.arity
  | _ => forest

namespace ParseTable

variable (t : ParseTable)

/-- The forest at the end of a run of at most the given number of steps. -/
def grown (input : Array Nat) : Nat → Configuration → List Tree → List Tree
  | 0, _, forest => forest
  | steps + 1, c, forest =>
    match c.step t input with
    | .next d => grown input steps d (c.grow t input forest)
    | _ => forest

/-- The forest that recognition builds from the terminals with the given names. -/
def forest (names : List String) : List Tree :=
  match t.terminalIndices names with
  | .error _ => []
  | .ok w => t.grown (t.input w) (t.stepBound (t.input w).size) t.begin []

end ParseTable

/-! ## Section 2: Syntax trees -/

/-- The trees are syntax trees of the symbols, one for each, and the terminals are
    their leaves. -/
inductive Grammar.Forest (g : Grammar) : List Nat → List Tree → List Nat → Prop
  | nil : Forest g [] [] []
  | leaf {x : Nat} {φ w : List Nat} {trees : List Tree} : g.isTerminal x = true →
      Forest g φ trees w → Forest g (x :: φ) (.leaf x :: trees) (x :: w)
  | node {rule : Nat} {p : Production} {φ v w : List Nat} {children trees : List Tree} :
      g.productions[rule]? = some p → Forest g p.right children v → Forest g φ trees w →
      Forest g (p.left :: φ) (.node rule children :: trees) (v ++ w)

namespace Grammar.Forest

variable {g : Grammar}

/-- There is one tree for each symbol. -/
theorem length_eq {φ w : List Nat} {trees : List Tree} (h : g.Forest φ trees w) :
    trees.length = φ.length := by
  induction h with
  | nil => rfl
  | leaf _ _ ih => rw [List.length_cons, List.length_cons, ih]
  | node _ _ _ _ ih => rw [List.length_cons, List.length_cons, ih]

theorem append {φ ψ v w : List Nat} {trees others : List Tree} (hv : g.Forest φ trees v)
    (hw : g.Forest ψ others w) : g.Forest (φ ++ ψ) (trees ++ others) (v ++ w) := by
  induction hv with
  | nil => exact hw
  | leaf hx _ ih => exact .leaf hx ih
  | node hp hchildren _ _ ih =>
    rw [List.append_assoc]
    exact .node hp hchildren ih

/-- A forest falls into the trees of two parts of its symbols. -/
theorem split {φ ψ x : List Nat} {trees : List Tree} (h : g.Forest (φ ++ ψ) trees x) :
    ∃ (front back : List Tree) (v w : List Nat), trees = front ++ back ∧ x = v ++ w ∧
      g.Forest φ front v ∧ g.Forest ψ back w := by
  induction φ generalizing trees x with
  | nil => exact ⟨[], trees, [], x, rfl, rfl, .nil, h⟩
  | cons s φ ih =>
    rw [List.cons_append] at h
    cases h with
    | leaf hs h =>
      obtain ⟨front, back, v, w, rfl, rfl, hv, hw⟩ := ih h
      exact ⟨_ :: front, back, s :: v, w, rfl, rfl, .leaf hs hv, hw⟩
    | @node rule p _ u _ children _ hp hchildren h =>
      obtain ⟨front, back, v, w, rfl, rfl, hv, hw⟩ := ih h
      exact ⟨_ :: front, back, u ++ v, w, rfl, by simp, .node hp hchildren hv, hw⟩

/-- The tree of a terminal is a leaf. -/
theorem eq_leaf (hg : g.WellFormed) {x : Nat} {φ w : List Nat} {trees : List Tree}
    (h : g.Forest (x :: φ) trees w) (hx : g.isTerminal x = true) :
    ∃ others v, trees = .leaf x :: others ∧ w = x :: v ∧ g.Forest φ others v := by
  cases h with
  | leaf _ h => exact ⟨_, _, rfl, rfl, h⟩
  | node hp _ _ => simp [hg.left_nonterminal hp] at hx

/-- The tree of a nonterminal is a node. -/
theorem exists_node {s : Nat} {φ w : List Nat} {trees : List Tree}
    (h : g.Forest (s :: φ) trees w) (hs : g.isTerminal s = false) :
    ∃ (rule : Nat) (p : Production) (children others : List Tree) (u v : List Nat),
      g.productions[rule]? = some p ∧ p.left = s ∧ trees = .node rule children :: others ∧
        w = u ++ v ∧ g.Forest p.right children u ∧ g.Forest φ others v := by
  cases h with
  | leaf hx _ => simp [hs] at hx
  | node hp hchildren h => exact ⟨_, _, _, _, _, _, hp, rfl, rfl, rfl, hchildren, h⟩

/-- The children of a node are the trees of the right side of its rule. -/
theorem exists_children {s rule : Nat} {w : List Nat} {children : List Tree}
    (h : g.Forest [s] [.node rule children] w) :
    ∃ p, g.productions[rule]? = some p ∧ p.left = s ∧ g.Forest p.right children w := by
  cases h with
  | node hp hchildren hrest =>
    cases hrest
    exact ⟨_, hp, rfl, by rwa [List.append_nil]⟩

end Grammar.Forest

/-! ## Section 3: One step -/

namespace Configuration

variable {g : Grammar} {t : ParseTable} {ts γ : List Nat} {c d : Configuration}
  {forest : List Tree}

theorem grow_of_shift {input : Array Nat} {x target : Nat} (hx : input[c.position]? = some x)
    (haction : t.actionAt c.top x = .shift target) :
    c.grow t input forest = .leaf x :: forest := by
  rw [grow, action_eq hx, haction]

theorem grow_of_reduce {input : Array Nat} {x rule : Nat} {r : TableRule}
    (hx : input[c.position]? = some x) (haction : t.actionAt c.top x = .reduce rule)
    (hr : t.rules[rule]? = some r) :
    c.grow t input forest
      = .node rule (forest.take r.arity).reverse :: forest.drop r.arity := by
  rw [grow, action_eq hx, haction]
  simp only [hr]

/-- The forest has the syntax trees of the symbols on the path, over the terminals
    that have been read. -/
structure Builds (c : Configuration) (g : Grammar) (ts γ : List Nat) (forest : List Tree) :
    Prop extends c.Follows g ts γ where
  forest : g.Forest γ.reverse forest.reverse (ts.take c.position)

theorem builds_begin (ht : g.Tabulates t) : t.begin.Builds g ts [] [] :=
  ⟨follows_begin ht, .nil⟩

/-- **One step** of a run and of its forest: a leaf is added, or the trees of a right
    side are joined. -/
theorem Builds.step (h : c.Builds g ts γ forest) (hg : g.WellFormed) (ht : g.Tabulates t)
    (hts : g.AllTerminal ts) (hend : g.endMark ∈ ts) (hstep : c.step t ts.toArray = .next d) :
    ∃ x, ts[c.position]? = some x ∧ g.isTerminal x = true ∧
      ((∃ target, t.actionAt c.top x = .shift target ∧ d.position = c.position + 1 ∧
          c.grow t ts.toArray forest = .leaf x :: forest ∧
          d.Builds g ts (x :: γ) (.leaf x :: forest)) ∨
        ∃ (rule : Nat) (q : Production) (δ : List Nat) (children others : List Tree),
          t.actionAt c.top x = .reduce rule ∧ g.productions[rule]? = some q ∧ rule ≠ 0 ∧
          γ = q.right.reverse ++ δ ∧ d.position = c.position ∧
          forest = children.reverse ++ others ∧ children.length = q.right.length ∧
          c.grow t ts.toArray forest = .node rule children :: others ∧
          d.Builds g ts (q.left :: δ) (.node rule children :: others)) := by
  obtain ⟨x, hx, hterminal, hmoved⟩ := h.action_of_step hg ht hts hend hstep
  have hinput : ts.toArray[c.position]? = some x := by simpa using hx
  refine ⟨x, hx, hterminal, ?_⟩
  rcases hmoved with ⟨target, haction, hposition, hd⟩ | ⟨rule, q, δ, haction, hq, hne, rfl,
    hposition, hd⟩
  · -- The terminal becomes a leaf, and one more of the input has been read.
    refine .inl ⟨target, haction, hposition, grow_of_shift hinput haction, hd, ?_⟩
    rw [hposition, List.take_add_one, hx, Option.toList_some, List.reverse_cons,
      List.reverse_cons]
    exact h.forest.append (.leaf hterminal .nil)
  · -- The trees on top of the forest are those of the right side.
    have hforest := h.forest
    rw [List.reverse_append, List.reverse_reverse] at hforest
    obtain ⟨front, children, v, w, hsplit, hread, hfront, hchildren⟩ := hforest.split
    have hall : forest = children.reverse ++ front.reverse := by
      rw [← List.reverse_append, ← hsplit, List.reverse_reverse]
    have hlength : children.reverse.length = q.right.length := by
      rw [List.length_reverse, hchildren.length_eq]
    have hrule : t.rules[rule]? = some (g.tableRule q) := by rw [ht.rules, hq, Option.map_some]
    have harity : (g.tableRule q).arity = children.reverse.length := hlength.symm
    refine .inr ⟨rule, q, δ, children, front.reverse, haction, hq, hne, rfl, hposition, hall,
      hchildren.length_eq, ?_, hd, ?_⟩
    · rw [grow_of_reduce hinput haction hrule, harity, hall, List.take_left, List.drop_left,
        List.reverse_reverse]
    · rw [hposition, hread, List.reverse_cons, List.reverse_cons, List.reverse_reverse]
      have hjoined := hfront.append (.node hq hchildren .nil)
      rwa [List.append_nil] at hjoined

end Configuration

/-! ## Section 4: Runs -/

section Runs

variable {g : Grammar} {t : ParseTable}

/-- What holds of a configuration and its forest at the beginning and is kept by
    every step holds before the step that accepts. -/
theorem ParseTable.exists_of_grown {input : Array Nat} {motive : Configuration → List Tree → Prop}
    (hstep : ∀ c d forest, motive c forest → c.step t input = .next d →
      motive d (c.grow t input forest)) {steps : Nat} {c : Configuration} {forest : List Tree}
    (hstart : motive c forest) (haccepted : t.run input steps c = .accepted) :
    ∃ d, d.step t input = .accepted ∧ motive d (t.grown input steps c forest) := by
  induction steps generalizing c forest with
  | zero => simp [run] at haccepted
  | succ steps ih =>
    unfold run at haccepted
    unfold grown
    split at haccepted
    · rename_i d hd
      rw [hd]
      exact ih (hstep c d forest hstart hd) haccepted
    · rename_i hlast
      rw [hlast]
      exact ⟨c, hlast, hstart⟩
    · simp at haccepted
    · simp at haccepted

/-- A recognized input is a run that accepts, and its forest is that of the run. -/
theorem ParseTable.exists_run_of_recognize {names : List String}
    (haccepted : t.recognize names = .accepted) :
    ∃ w steps, t.terminalIndices names = .ok w ∧ t.run (t.input w) steps t.begin = .accepted ∧
      t.forest names = t.grown (t.input w) steps t.begin [] := by
  unfold recognize at haccepted
  split at haccepted
  · simp at haccepted
  · rename_i w hw
    exact ⟨w, _, hw, haccepted, by rw [forest, hw]⟩

/-- When the next step accepts, there is one tree, of the start symbol. -/
theorem Configuration.Builds.exists_tree {c : Configuration} {w γ : List Nat}
    {forest : List Tree} (h : c.Builds g (w ++ [g.endMark]) γ forest) (hg : g.WellFormed)
    (ht : g.Tabulates t) (hw : g.AllTerminal w)
    (haccepted : c.step t (w ++ [g.endMark]).toArray = .accepted) :
    ∃ tree v, forest = [tree] ∧ g.Forest [g.startSymbol] [tree] v ∧
      v.map g.symbolName = (w.map g.symbolName).takeWhile (· != endName) := by
  have hts : g.AllTerminal (w ++ [g.endMark]) := hw.append hg.allTerminal_endMark
  obtain ⟨x, hx, hmoves⟩ := h.moves hg ht hts (by simp)
  rw [haccepted] at hmoves
  cases hmoves with
  | accept hxend hstart =>
    have hforest := h.forest
    rw [hstart, List.reverse_singleton] at hforest
    obtain ⟨tree, htree⟩ := List.length_eq_one_iff.1 hforest.length_eq
    have hreverse : forest = [tree] := by
      rw [← List.reverse_reverse forest, htree, List.reverse_singleton]
    rw [htree] at hforest
    refine ⟨tree, _, hreverse, hforest, ?_⟩
    rw [h.takeWhile_names hg hw (hxend ▸ hx), h.take_position]

/-- What a step keeps, along with the forest and its path, holds of the one tree with
    which a run ends that accepts. -/
theorem exists_tree_of_invariant (hg : g.WellFormed) (ht : g.Tabulates t)
    {motive : List Nat → Configuration → List Nat → List Tree → Prop}
    (hbegin : ∀ ts, motive ts t.begin [] [])
    (hstep : ∀ ts c d γ forest, g.AllTerminal ts → g.endMark ∈ ts → c.Builds g ts γ forest →
      motive ts c γ forest → c.step t ts.toArray = .next d →
      ∃ δ, d.Builds g ts δ (c.grow t ts.toArray forest) ∧
        motive ts d δ (c.grow t ts.toArray forest))
    {names : List String} (haccepted : t.recognize names = .accepted) :
    ∃ tree v ts d γ, t.forest names = [tree] ∧ g.Forest [g.startSymbol] [tree] v ∧
      v.map g.symbolName = names.takeWhile (· != endName) ∧ motive ts d γ [tree] := by
  obtain ⟨w, steps, hw, hrun, hforest⟩ := t.exists_run_of_recognize haccepted
  obtain ⟨hts, hinput⟩ := allTerminal_input hg ht hw
  obtain ⟨hterminal, rfl⟩ := (ht.terminalIndices_eq_ok_iff hg).1 hw
  rw [hinput] at hrun hforest
  obtain ⟨d, hd, γ, hγ, hlast⟩ := ParseTable.exists_of_grown
    (motive := fun c trees => ∃ γ, c.Builds g (w ++ [g.endMark]) γ trees ∧
      motive (w ++ [g.endMark]) c γ trees)
    (fun c d trees hc hnext => by
      obtain ⟨γ, hγ, hc⟩ := hc
      exact hstep _ c d γ trees hts (by simp) hγ hc hnext)
    ⟨[], Configuration.builds_begin ht, hbegin _⟩ hrun
  rw [← hforest] at hγ hlast
  obtain ⟨tree, v, htree, hv, hnames⟩ := hγ.exists_tree hg ht hterminal hd
  rw [htree] at hlast
  exact ⟨tree, v, _, d, γ, htree, hv, hnames, hlast⟩

/-- **The tree of a run**: recognition that accepts has built one syntax tree, of the
    start symbol, over all that stands before the first `$end`. -/
theorem exists_tree_of_recognize {spec : String} (hcompile : compile spec = .ok t)
    (hparse : Grammar.parse spec = .ok g) {names : List String}
    (haccepted : t.recognize names = .accepted) :
    ∃ tree v, t.forest names = [tree] ∧ g.Forest [g.startSymbol] [tree] v ∧
      v.map g.symbolName = names.takeWhile (· != endName) := by
  obtain ⟨g', hparse', hg, ht⟩ := Grammar.exists_tabulates_of_compile hcompile
  obtain rfl := Except.ok.inj (hparse.symm.trans hparse')
  obtain ⟨tree, v, -, -, -, htree, hv, hnames, -⟩ :=
    exists_tree_of_invariant (motive := fun _ _ _ _ => True) hg ht (fun _ => trivial)
      (fun ts c d γ forest hts hend hγ _ hnext => by
        obtain ⟨x, -, -, ⟨_, -, -, hgrow, hd⟩ | ⟨_, _, _, _, _, -, -, -, -, -, -, -, hgrow, hd⟩⟩ :=
          hγ.step hg ht hts hend hnext
        · exact ⟨_, hgrow ▸ hd, trivial⟩
        · exact ⟨_, hgrow ▸ hd, trivial⟩)
      haccepted
  exact ⟨tree, v, htree, hv, hnames⟩

end Runs

end SlrCompiler
