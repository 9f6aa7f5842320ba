import SlrCompiler.Proofs.Automaton.Collection

/-! # Viable prefixes

    Which items can be reached by reading a string of symbols is a question
    about the grammar alone: an item expands at its dot, and its dot moves over
    a symbol that is read. `Reads` is that relation. The automaton is its
    subset construction: along a path spelled by a string, the state reached
    holds exactly the items that the string reads (`mem_items_iff_reads`), and
    there is such a path exactly if the string reads some item
    (`exists_follow_iff`).

    Strings of read symbols are kept with the last symbol first, like the stack
    of a parser.
-/

namespace SlrCompiler

/-- The state at the end of the path that a string spells from the first state. -/
def Automaton.follow (a : Automaton) (γ : List Nat) : Option Nat := γ.foldlM a.goto a.start

namespace Grammar

variable (g : Grammar)

/-! ## Section 1: Reading items -/

/-- The items at which a parser can be when it has read the given symbols, the
    last of them first. -/
inductive Reads : List Nat → Item → Prop
  | start : Reads [] (.initial 0)
  | expand {γ : List Nat} {i : Item} {s p : Nat} : Reads γ i → i.nextSymbol g = some s →
      p ∈ g.productionsOf s → Reads γ (.initial p)
  | advance {γ : List Nat} {i : Item} {s : Nat} : Reads γ i → i.nextSymbol g = some s →
      Reads (s :: γ) i.advance

variable {g}

/-- A symbol that has been read was expected before. -/
theorem Reads.exists_expecting {γ : List Nat} {x : Nat} {i : Item} (h : g.Reads (x :: γ) i) :
    ∃ j, g.Reads γ j ∧ j.nextSymbol g = some x := by
  generalize hδ : x :: γ = δ at h
  induction h with
  | start => simp at hδ
  | expand _ _ _ ih => exact ih hδ
  | advance hi hnext _ =>
    obtain ⟨rfl, rfl⟩ := List.cons.inj hδ
    exact ⟨_, hi, hnext⟩

/-- An item holds the symbols that were read last, before its dot; in front of
    them its production was expected. -/
theorem Reads.exists_suffix (hzero : 0 < g.productionCount) {γ : List Nat} {i : Item}
    (h : g.Reads γ i) :
    ∃ p δ, g.productions[i.production]? = some p ∧ i.position ≤ p.right.length ∧
      γ = (p.right.take i.position).reverse ++ δ ∧ g.Reads δ (.initial i.production) := by
  induction h with
  | start => exact ⟨_, [], Array.getElem?_eq_getElem hzero, Nat.zero_le _, by simp, .start⟩
  | @expand γ j s n hj hnext hn _ =>
    obtain ⟨-, p, hp, -⟩ := mem_productionsOf.1 hn
    exact ⟨p, γ, hp, Nat.zero_le _, by simp, .expand hj hnext hn⟩
  | advance _ hnext ih =>
    obtain ⟨p, δ, hp, hle, rfl, hδ⟩ := ih
    rw [Item.nextSymbol, rightSide_eq hp] at hnext
    obtain ⟨hlt, heq⟩ := List.getElem?_eq_some_iff.1 hnext
    refine ⟨p, δ, hp, hlt, ?_, hδ⟩
    simp [List.take_add_one, hnext]

/-- The dot of an item can move over any part of its right side. -/
theorem Reads.advance_to {δ : List Nat} {n : Nat} {p : Production}
    (hp : g.productions[n]? = some p) (h : g.Reads δ (.initial n)) {k : Nat}
    (hk : k ≤ p.right.length) : g.Reads ((p.right.take k).reverse ++ δ) ⟨n, k⟩ := by
  induction k with
  | zero => exact h
  | succ k ih =>
    have hlast : p.right[k]? = some p.right[k] := List.getElem?_eq_getElem hk
    have hnext : (Item.mk n k).nextSymbol g = some p.right[k] := by
      rw [Item.nextSymbol, rightSide_eq hp, hlast]
    rw [List.take_add_one, hlast, Option.toList_some, List.reverse_append, List.append_assoc]
    exact (ih (by omega)).advance hnext

/-- The dot of an item can move to the end of its right side. -/
theorem Reads.advance_to_end {δ : List Nat} {n : Nat} {p : Production}
    (h : g.Reads δ (.initial n)) (hp : g.productions[n]? = some p) :
    g.Reads (p.right.reverse ++ δ) ⟨n, p.right.length⟩ := by
  simpa using h.advance_to hp (Nat.le_refl p.right.length)

/-- A production but the augmenting one begins where its left side is expected. -/
theorem Reads.exists_expecting_left {γ : List Nat} {n : Nat} {p : Production}
    (hread : g.Reads γ (.initial n)) (hp : g.productions[n]? = some p) (hn : n ≠ 0) :
    ∃ j, g.Reads γ j ∧ j.nextSymbol g = some p.left := by
  generalize hi : Item.initial n = i at hread
  cases hread with
  | start => exact absurd (congrArg Item.production hi) hn
  | @expand _ j s m hj hnext hm =>
    obtain rfl : n = m := congrArg Item.production hi
    obtain ⟨-, q, hq, rfl⟩ := mem_productionsOf.1 hm
    obtain rfl : p = q := Option.some.inj (hp.symm.trans hq)
    exact ⟨j, hj, hnext⟩
  | advance _ _ => exact absurd (congrArg Item.position hi) (by simp)

namespace WellFormed

variable (h : g.WellFormed)
include h

theorem productionCount_pos : 0 < g.productionCount := by
  obtain ⟨p, hp, -⟩ := h.augmenting
  exact (Array.getElem?_eq_some_iff.1 hp).1

/-- No dot stands before `$accept`. -/
theorem nextSymbol_ne_acceptSymbol (i : Item) : i.nextSymbol g ≠ some g.acceptSymbol := by
  intro hnext
  obtain ⟨p, hp, hmem⟩ := i.exists_production_of_nextSymbol hnext
  exact h.acceptSymbol_notMem hp hmem

/-- No dot stands before `$end`. -/
theorem nextSymbol_ne_endMark (i : Item) : i.nextSymbol g ≠ some g.endMark := by
  intro hnext
  obtain ⟨p, hp, hmem⟩ := i.exists_production_of_nextSymbol hnext
  exact h.endMark_notMem hp hmem

/-- What an item expects is expanded by other productions than the augmenting
    one. -/
theorem ne_zero_of_expected {i : Item} {s n : Nat} (hnext : i.nextSymbol g = some s)
    (hn : n ∈ g.productionsOf s) : n ≠ 0 := by
  obtain ⟨-, p, hp, rfl⟩ := mem_productionsOf.1 hn
  apply h.ne_zero_of_left hp
  intro haccept
  exact h.nextSymbol_ne_acceptSymbol i (haccept ▸ hnext)

/-- A production can begin in the place of its left side. -/
theorem reads_initial {γ : List Nat} {i : Item} {n : Nat} {p : Production}
    (hread : g.Reads (p.left :: γ) i) (hp : g.productions[n]? = some p) :
    g.Reads γ (.initial n) := by
  obtain ⟨j, hj, hnext⟩ := hread.exists_expecting
  exact hj.expand hnext (h.mem_productionsOf_left hp)

/-- The augmenting production begins nowhere but at the start. -/
theorem eq_nil_of_reads_zero {γ : List Nat} (hread : g.Reads γ (.initial 0)) : γ = [] := by
  generalize hi : Item.initial 0 = i at hread
  cases hread with
  | start => rfl
  | @expand _ j s m hj hnext hm =>
    have hzero : 0 = m := congrArg Item.production hi
    exact absurd hzero.symm (h.ne_zero_of_expected hnext hm)
  | advance _ _ => exact absurd (congrArg Item.position hi) (by simp)

end WellFormed

/-! ## Section 2: The states along a path -/

theorem follow_cons (a : Automaton) (x : Nat) (γ : List Nat) :
    a.follow (x :: γ).reverse = (a.follow γ.reverse).bind fun s => a.goto s x := by
  simp only [Automaton.follow, List.reverse_cons, List.foldlM_append, List.foldlM_cons,
    List.foldlM_nil]
  cases a.follow γ.reverse <;> simp

theorem reads_nil_iff {i : Item} :
    g.Reads [] i ↔ g.InClosure (.singleton (.initial 0)) i := by
  constructor
  · intro h
    -- No symbol has been read, so no item has been advanced.
    generalize hγ : ([] : List Nat) = γ at h
    induction h with
    | start => exact .base (SortedSet.mem_singleton.2 rfl)
    | expand _ hnext hp ih => exact .expand (ih hγ) hnext hp
    | advance _ _ => simp at hγ
  · intro h
    induction h with
    | base hi =>
      obtain rfl := SortedSet.mem_singleton.1 hi
      exact .start
    | expand _ hnext hp ih => exact .expand ih hnext hp

theorem reads_cons_iff {γ : List Nat} {x : Nat} {items : ItemSet}
    (hitems : ∀ i, i ∈ items ↔ g.Reads γ i) {i : Item} :
    g.Reads (x :: γ) i ↔ g.InClosure (.ofList (g.advanced items x)) i := by
  constructor
  · intro h
    -- After the last advance there are only expansions.
    generalize hδ : x :: γ = δ at h
    induction h with
    | start => simp at hδ
    | expand _ hnext hp ih => exact .expand (ih hδ) hnext hp
    | @advance _ j _ hj hnext _ =>
      obtain ⟨rfl, rfl⟩ := List.cons.inj hδ
      exact .base (SortedSet.mem_ofList.2 (mem_advanced.2 ⟨j, (hitems j).2 hj, hnext, rfl⟩))
  · intro h
    induction h with
    | base hi =>
      obtain ⟨j, hj, hnext, rfl⟩ := mem_advanced.1 (SortedSet.mem_ofList.1 hi)
      exact .advance ((hitems j).1 hj) hnext
    | expand _ hnext hp ih => exact .expand ih hnext hp

namespace Canonical

variable {a : Automaton} (h : g.Canonical a)
include h

/-- A state that holds an item expecting a symbol has an edge on it. -/
theorem exists_goto_of_nextSymbol {s x : Nat} {st : State} {i : Item}
    (hst : a.states[s]? = some st) (hi : i ∈ st.items) (hnext : i.nextSymbol g = some x) :
    ∃ v, st.edges.find x = some v ∧ v < a.size := by
  cases htarget : g.goto st.items x with
  | none => exact absurd hnext (goto_eq_none_iff.1 htarget i hi)
  | some target =>
    obtain ⟨v, next, hv, hnext, -⟩ := h.edge_some hst htarget
    exact ⟨v, hv, (Array.getElem?_eq_some_iff.1 hnext).1⟩

/-- An edge leads from an item that expects its symbol. -/
theorem exists_nextSymbol_of_goto {s x v : Nat} {st : State} (hst : a.states[s]? = some st)
    (hv : st.edges.find x = some v) : ∃ i ∈ st.items, i.nextSymbol g = some x := by
  by_contra hnone
  push Not at hnone
  have := h.edge_none hst (goto_eq_none_iff.2 hnone)
  simp [this] at hv

variable (hg : g.SymbolsExist)
include hg

/-- **Subset construction**: the state at the end of a path holds the items that
    its string reads. -/
theorem mem_items_iff_reads {γ : List Nat} {s : Nat} (hs : a.follow γ.reverse = some s) :
    ∃ st, a.states[s]? = some st ∧ ∀ i, i ∈ st.items ↔ g.Reads γ i := by
  -- The induction is on the path from its end; the last edge leads to the state in question.
  induction γ generalizing s with
  | nil =>
    obtain ⟨st, hst, hitems⟩ := h.first
    obtain rfl : a.start = s := Option.some.inj hs
    refine ⟨st, by rw [h.start, hst], fun i => ?_⟩
    rw [hitems, mem_closure hg, reads_nil_iff]
  | cons x γ ih =>
    rw [follow_cons, Option.bind_eq_some_iff] at hs
    obtain ⟨r, hr, hedge⟩ := hs
    obtain ⟨st, hst, hitems⟩ := ih hr
    have hfind : st.edges.find x = some s := by simpa [Automaton.goto, hst] using hedge
    cases htarget : g.goto st.items x with
    | none =>
      have hnone := h.edge_none hst htarget
      simp [hnone] at hfind
    | some target =>
      obtain ⟨v, next, hv, hnext, rfl⟩ := h.edge_some hst htarget
      obtain rfl : v = s := Option.some.inj (hv.symm.trans hfind)
      refine ⟨next, hnext, fun i => ?_⟩
      rw [mem_goto hg htarget, reads_cons_iff hitems]

/-- **Viable prefixes**: a string spells a path exactly if it reads some item. -/
theorem exists_follow_iff {γ : List Nat} :
    (∃ s, a.follow γ.reverse = some s) ↔ ∃ i, g.Reads γ i := by
  induction γ with
  | nil => exact ⟨fun _ => ⟨_, .start⟩, fun _ => ⟨_, rfl⟩⟩
  | cons x γ ih =>
    constructor
    · intro h
      obtain ⟨s, hs⟩ := h
      rw [follow_cons, Option.bind_eq_some_iff] at hs
      obtain ⟨r, hr, hedge⟩ := hs
      obtain ⟨st, hst, hitems⟩ := h.mem_items_iff_reads hg hr
      have hfind : st.edges.find x = some s := by simpa [Automaton.goto, hst] using hedge
      obtain ⟨i, hi, hnext⟩ := h.exists_nextSymbol_of_goto hst hfind
      exact ⟨i.advance, .advance ((hitems i).1 hi) hnext⟩
    · intro h
      obtain ⟨i, hi⟩ := h
      -- What reads the longer path was expected at the end of the shorter one.
      obtain ⟨j, hj, hnext⟩ := hi.exists_expecting
      obtain ⟨r, hr⟩ := ih.2 ⟨j, hj⟩
      obtain ⟨st, hst, hitems⟩ := h.mem_items_iff_reads hg hr
      obtain ⟨v, hv, -⟩ := h.exists_goto_of_nextSymbol hst ((hitems j).2 hj) hnext
      refine ⟨v, ?_⟩
      rw [follow_cons, hr]
      simp [Automaton.goto, hst, hv]

end Canonical

end Grammar

end SlrCompiler
