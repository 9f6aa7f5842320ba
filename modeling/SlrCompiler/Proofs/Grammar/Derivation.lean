import Mathlib.Logic.Relation
import SlrCompiler.Proofs.Grammar.WellFormed

/-! # Derivations

    What the productions of a grammar generate, as relations between strings
    of symbols:

    * `Derives`: any occurrence of a left side may be expanded next.
    * `DerivesRightmost`: only terminals stand after the occurrence that is
      expanded. This is the order that a shift-reduce parser undoes, and a
      special case of `Derives` (`DerivesRightmost.derives`).
    * `Yields`: all symbols of the string are expanded side by side, each into
      a piece of the result. It is the forest of derivation trees with the
      trees themselves left out, and inductions go over it.

    Every derivation is a yield (`Derives.yields`), and a yield that ends in
    terminals can be put in rightmost order (`Yields.derivesRightmost`).
-/

namespace SlrCompiler

namespace Grammar

variable (g : Grammar)

/-! ## Section 1: Definitions -/

/-- A string of terminals. -/
def AllTerminal (w : List Nat) : Prop := ∀ s ∈ w, g.isTerminal s = true

/-- The production with the given number rewrites `u` to `v` in one place. -/
def Rewrites (production : Nat) (u v : List Nat) : Prop :=
  ∃ (p : Production) (before after : List Nat), g.productions[production]? = some p ∧
    u = before ++ p.left :: after ∧ v = before ++ p.right ++ after

/-- Zero or more rewrites. -/
def Derives : List Nat → List Nat → Prop :=
  Relation.ReflTransGen fun u v => ∃ i, g.Rewrites i u v

/-- Some production rewrites the last nonterminal of `u`. -/
def RewritesLast (u v : List Nat) : Prop :=
  ∃ (i : Nat) (p : Production) (before after : List Nat),
    g.productions[i]? = some p ∧ g.AllTerminal after ∧
      u = before ++ p.left :: after ∧ v = before ++ p.right ++ after

/-- Zero or more rewrites, each of the last nonterminal. -/
def DerivesRightmost : List Nat → List Nat → Prop :=
  Relation.ReflTransGen g.RewritesLast

/-- Each symbol of the first string is kept or expanded, and the pieces make up
    the second string. -/
inductive Yields : List Nat → List Nat → Prop
  | nil : Yields [] []
  | keep (s : Nat) {φ w : List Nat} : Yields φ w → Yields (s :: φ) (s :: w)
  | expand {i : Nat} {p : Production} {φ v w : List Nat} :
      g.productions[i]? = some p → Yields p.right v → Yields φ w →
      Yields (p.left :: φ) (v ++ w)

/-- The names of a string of terminals that the productions after the augmenting
    one derive from the start symbol. -/
def IsSentence (names : List String) : Prop :=
  ∃ w, g.AllTerminal w ∧ w.map g.symbolName = names ∧
    Relation.ReflTransGen (fun u v => ∃ i, 1 ≤ i ∧ g.Rewrites i u v) [g.startSymbol] w

variable {g}

/-! ## Section 2: Terminals -/

theorem AllTerminal.nil : g.AllTerminal [] := fun _ hs => absurd hs List.not_mem_nil

theorem AllTerminal.append {v w : List Nat} (hv : g.AllTerminal v) (hw : g.AllTerminal w) :
    g.AllTerminal (v ++ w) := by
  intro s hs
  rcases List.mem_append.1 hs with hs | hs
  · exact hv s hs
  · exact hw s hs

theorem AllTerminal.left {v w : List Nat} (h : g.AllTerminal (v ++ w)) : g.AllTerminal v :=
  fun s hs => h s (List.mem_append_left w hs)

theorem AllTerminal.right {v w : List Nat} (h : g.AllTerminal (v ++ w)) : g.AllTerminal w :=
  fun s hs => h s (List.mem_append_right v hs)

theorem WellFormed.allTerminal_endMark (h : g.WellFormed) : g.AllTerminal [g.endMark] := by
  intro s hs
  rw [List.mem_singleton.1 hs]
  exact h.endMark_terminal

/-! ## Section 3: Derivations in a context -/

/-- A symbol of a rewritten string stands before the piece that was put in, in
    it, or after it. -/
theorem eq_of_append_eq_append_cons {before piece after δ z : List Nat} {s : Nat}
    (h : before ++ piece ++ after = δ ++ s :: z) :
    (∃ x, before = δ ++ s :: x ∧ z = x ++ piece ++ after) ∨
      (∃ α β, piece = α ++ s :: β ∧ δ = before ++ α ∧ z = β ++ after) ∨
      ∃ x, after = x ++ s :: z ∧ δ = before ++ piece ++ x := by
  rcases List.append_eq_append_iff.1 h with ⟨x, hδ, hafter⟩ | ⟨x, hleft, hz⟩
  · exact .inr (.inr ⟨x, hafter, hδ⟩)
  cases x with
  | nil => exact .inr (.inr ⟨[], by simpa using hz.symm, by simpa using hleft.symm⟩)
  | cons t β =>
    obtain ⟨rfl, rfl⟩ := List.cons.inj hz
    rcases List.append_eq_append_iff.1 hleft with ⟨α, hδ, hpiece⟩ | ⟨y, hbefore, hpiece⟩
    · exact .inr (.inl ⟨α, β, hpiece, hδ, rfl⟩)
    cases y with
    | nil => exact .inr (.inl ⟨[], β, by simpa using hpiece.symm, by simp [hbefore], rfl⟩)
    | cons t y =>
      obtain ⟨rfl, rfl⟩ := List.cons.inj hpiece
      exact .inl ⟨y, hbefore, rfl⟩

theorem Rewrites.context {i : Nat} {u v : List Nat} (h : g.Rewrites i u v)
    (before after : List Nat) :
    g.Rewrites i (before ++ u ++ after) (before ++ v ++ after) := by
  obtain ⟨p, x, y, hp, rfl, rfl⟩ := h
  exact ⟨p, before ++ x, y ++ after, hp, by simp, by simp⟩

/-- A derivation goes on unchanged inside any context. -/
theorem Derives.context {u v : List Nat} (h : g.Derives u v) (before after : List Nat) :
    g.Derives (before ++ u ++ after) (before ++ v ++ after) :=
  Relation.ReflTransGen.lift (fun w => before ++ w ++ after)
    (fun _ _ ⟨i, hi⟩ => ⟨i, hi.context before after⟩) u v h

theorem Derives.append {u v x y : List Nat} (huv : g.Derives u v) (hxy : g.Derives x y) :
    g.Derives (u ++ x) (v ++ y) := by
  have hleft : g.Derives (u ++ x) (v ++ x) := by simpa using huv.context [] x
  have hright : g.Derives (v ++ x) (v ++ y) := by simpa using hxy.context v []
  exact hleft.trans hright

theorem Derives.of_production {i : Nat} {p : Production} (hp : g.productions[i]? = some p) :
    g.Derives [p.left] p.right :=
  .single ⟨i, p, [], [], hp, by simp, by simp⟩

/-- What a production derives can be read off the list of the sides of all. -/
theorem Derives.of_mem_sides {left : Nat} {right : List Nat}
    (h : (left, right) ∈ g.productions.toList.map fun p => (p.left, p.right)) :
    g.Derives [left] right := by
  obtain ⟨p, hp, heq⟩ := List.mem_map.1 h
  obtain ⟨rfl, rfl⟩ := Prod.mk.inj heq
  obtain ⟨i, hi⟩ := Array.mem_iff_getElem?.1 (Array.mem_toList_iff.1 hp)
  exact .of_production hi

theorem Derives.trans {u v w : List Nat} (huv : g.Derives u v) (hvw : g.Derives v w) :
    g.Derives u w :=
  Relation.ReflTransGen.trans huv hvw

/-- A string derives terminals if each of its symbols does. -/
theorem exists_derives_of_forall {φ : List Nat}
    (h : ∀ s ∈ φ, ∃ w, g.AllTerminal w ∧ g.Derives [s] w) :
    ∃ w, g.AllTerminal w ∧ g.Derives φ w := by
  induction φ with
  | nil => exact ⟨[], .nil, .refl⟩
  | cons s φ ih =>
    obtain ⟨v, hv, hfirst⟩ := h s List.mem_cons_self
    obtain ⟨w, hw, hrest⟩ := ih fun x hx => h x (List.mem_cons_of_mem s hx)
    exact ⟨v ++ w, hv.append hw, by simpa using hfirst.append hrest⟩

theorem DerivesRightmost.trans {u v w : List Nat} (huv : g.DerivesRightmost u v)
    (hvw : g.DerivesRightmost v w) : g.DerivesRightmost u w :=
  Relation.ReflTransGen.trans huv hvw

theorem DerivesRightmost.derives {u v : List Nat} (h : g.DerivesRightmost u v) : g.Derives u v := by
  refine Relation.ReflTransGen.mono (fun x y hxy => ?_) u v h
  obtain ⟨i, p, before, after, hp, -, hu, hv⟩ := hxy
  exact ⟨i, p, before, after, hp, hu, hv⟩

/-- A rightmost derivation goes on before terminals, after any string. -/
theorem DerivesRightmost.context {u v : List Nat} (h : g.DerivesRightmost u v)
    (before : List Nat) {after : List Nat} (hafter : g.AllTerminal after) :
    g.DerivesRightmost (before ++ u ++ after) (before ++ v ++ after) := by
  refine Relation.ReflTransGen.lift (fun w => before ++ w ++ after) (fun x y hxy => ?_) u v h
  obtain ⟨i, p, a, b, hp, hb, rfl, rfl⟩ := hxy
  exact ⟨i, p, before ++ a, b ++ after, hp, hb.append hafter, by simp, by simp⟩

/-! ## Section 4: Yields -/

theorem Yields.refl (φ : List Nat) : g.Yields φ φ := by
  induction φ with
  | nil => exact .nil
  | cons s φ ih => exact .keep s ih

theorem Yields.append {φ ψ v w : List Nat} (hv : g.Yields φ v) (hw : g.Yields ψ w) :
    g.Yields (φ ++ ψ) (v ++ w) := by
  induction hv with
  | nil => exact hw
  | keep s _ ih => exact .keep s ih
  | expand hp hright _ _ ih =>
    rw [List.append_assoc]
    exact .expand hp hright ih

/-- What a string yields falls into what its two parts yield. -/
theorem Yields.split {φ ψ x : List Nat} (h : g.Yields (φ ++ ψ) x) :
    ∃ v w, x = v ++ w ∧ g.Yields φ v ∧ g.Yields ψ w := by
  induction φ generalizing x with
  | nil => exact ⟨[], x, rfl, .nil, h⟩
  | cons s φ ih =>
    rw [List.cons_append] at h
    cases h with
    | keep s h =>
      obtain ⟨v, w, rfl, hv, hw⟩ := ih h
      exact ⟨s :: v, w, rfl, .keep s hv, hw⟩
    | @expand i p _ u _ hp hright h =>
      obtain ⟨v, w, rfl, hv, hw⟩ := ih h
      exact ⟨u ++ v, w, by simp, .expand hp hright hv, hw⟩

/-- Undoing a rewrite joins a piece of the forest under one more left side. -/
theorem Yields.of_rewrites {i : Nat} {φ ψ w : List Nat} (h : g.Rewrites i φ ψ)
    (hw : g.Yields ψ w) : g.Yields φ w := by
  obtain ⟨p, before, after, hp, rfl, rfl⟩ := h
  rw [List.append_assoc] at hw
  -- The yield falls into what comes before the piece, of it, and after it.
  obtain ⟨u, rest, rfl, hbefore, hrest⟩ := hw.split
  obtain ⟨v, x, rfl, hright, hafter⟩ := hrest.split
  exact hbefore.append (.expand hp hright hafter)

theorem Derives.yields {φ w : List Nat} (h : g.Derives φ w) : g.Yields φ w := by
  induction h using Relation.ReflTransGen.head_induction_on with
  | refl => exact .refl w
  | head hstep _ ih =>
    obtain ⟨i, hi⟩ := hstep
    exact .of_rewrites hi ih

theorem Yields.derives {φ w : List Nat} (h : g.Yields φ w) : g.Derives φ w := by
  induction h with
  | nil => exact .refl
  | keep s _ ih => simpa using ih.context [s] []
  | @expand i p φ v w hp _ _ ihright ih =>
    have hleft : g.Derives [p.left] v := (Derives.of_production hp).trans ihright
    simpa using hleft.append ih

/-- A string that yields terminals derives them in rightmost order: the symbols
    are expanded from the last to the first. -/
theorem Yields.derivesRightmost {φ w : List Nat} (h : g.Yields φ w) (hw : g.AllTerminal w) :
    g.DerivesRightmost φ w := by
  induction h with
  | nil => exact .refl
  | @keep s φ w _ ih =>
    have htail : g.AllTerminal w := fun x hx => hw x (List.mem_cons_of_mem s hx)
    simpa using (ih htail).context [s] AllTerminal.nil
  | @expand i p φ v w hp _ _ ihright ih =>
    -- First all that stands after the symbol, then the symbol, then its right side.
    have hrest : g.DerivesRightmost (p.left :: φ) (p.left :: w) := by
      simpa using (ih hw.right).context [p.left] AllTerminal.nil
    have hstep : g.DerivesRightmost (p.left :: w) (p.right ++ w) :=
      .single ⟨i, p, [], w, hp, hw.right, by simp, by simp⟩
    have hexpand : g.DerivesRightmost (p.right ++ w) (v ++ w) := by
      simpa using (ihright hw.left).context [] hw.right
    exact (hrest.trans hstep).trans hexpand

/-- Terminals yield nothing but themselves. -/
theorem WellFormed.eq_of_yields (h : g.WellFormed) {φ w : List Nat} (hφ : g.AllTerminal φ)
    (hw : g.Yields φ w) : w = φ := by
  induction hw with
  | nil => rfl
  | keep s _ ih => rw [ih fun x hx => hφ x (List.mem_cons_of_mem s hx)]
  | @expand i p _ _ _ hp _ _ _ _ =>
    have hterminal := hφ p.left List.mem_cons_self
    simp [h.left_nonterminal hp] at hterminal

/-! ## Section 5: Sentences -/

/-- What is derived from a string without `$accept` is derived without the
    augmenting production. -/
theorem WellFormed.derives_iff (h : g.WellFormed) {u v : List Nat} (hu : g.acceptSymbol ∉ u) :
    g.Derives u v ↔ Relation.ReflTransGen (fun u v => ∃ i, 1 ≤ i ∧ g.Rewrites i u v) u v := by
  constructor
  · intro huv
    -- No right side brings `$accept` in, so it never comes up to be rewritten.
    have hboth : g.acceptSymbol ∉ v ∧
        Relation.ReflTransGen (fun u v => ∃ i, 1 ≤ i ∧ g.Rewrites i u v) u v := by
      induction huv with
      | refl => exact ⟨hu, .refl⟩
      | tail _ hstep ih =>
        obtain ⟨i, p, before, after, hp, rfl, rfl⟩ := hstep
        obtain ⟨hnot, hderives⟩ := ih
        simp only [List.mem_append, List.mem_cons, not_or] at hnot
        obtain ⟨hbefore, hleft, hafter⟩ := hnot
        have hi : i ≠ 0 := h.ne_zero_of_left hp fun haccept => hleft haccept.symm
        refine ⟨?_, hderives.tail ⟨i, Nat.pos_of_ne_zero hi, p, before, after, hp, rfl, rfl⟩⟩
        simp only [List.mem_append, not_or]
        exact ⟨⟨hbefore, h.acceptSymbol_notMem hp⟩, hafter⟩
    exact hboth.2
  · exact Relation.ReflTransGen.mono (fun x y ⟨i, _, hi⟩ => ⟨i, hi⟩) u v

/-- A sentence is what the start symbol derives. -/
theorem WellFormed.isSentence_iff (h : g.WellFormed) {names : List String} :
    g.IsSentence names ↔
      ∃ w, g.AllTerminal w ∧ w.map g.symbolName = names ∧ g.Derives [g.startSymbol] w := by
  have hnot : g.acceptSymbol ∉ [g.startSymbol] := by
    simpa using h.startSymbol_ne_acceptSymbol.symm
  simp only [IsSentence, h.derives_iff hnot]

end Grammar

end SlrCompiler
