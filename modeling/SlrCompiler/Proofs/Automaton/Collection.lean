import Mathlib.Data.Finset.Powerset
import SlrCompiler.Automaton.Collection
import SlrCompiler.Proofs.Automaton.Closure

/-! # The canonical collection

    `collect` works off item sets in the order of their discovery while it
    appends to the array it reads from. The loop invariant `Collecting` speaks
    of the part that is worked off: each of its item sets has an edge on a
    symbol exactly where goto has a value, and the edge leads to the number of
    that value. Since no item set is found twice and all of them are made of
    the same finitely many items, the rounds are not used up before the last
    item set is worked off (`workOff_collection`).
-/

namespace SlrCompiler

namespace Grammar

variable (g : Grammar)

/-! ## Section 1: A pool for all items -/

/-- The items of some productions, the first of them having the given number. -/
def itemsFrom (first : Nat) : List Production → List Item
  | [] => []
  | p :: rest => (List.range (p.right.length + 1)).map (Item.mk first) ++ itemsFrom (first + 1) rest

/-- The items of all productions. -/
def itemPool : List Item := itemsFrom 0 g.productions.toList

/-- The production exists, and the dot stands in its right side or at its end. -/
def ItemExists (i : Item) : Prop :=
  ∃ p, g.productions[i.production]? = some p ∧ i.position ≤ p.right.length

variable {g}

theorem mem_itemsFrom {first : Nat} {ps : List Production} {i : Item} :
    i ∈ itemsFrom first ps ↔
      ∃ k p, ps[k]? = some p ∧ i.production = first + k ∧ i.position ≤ p.right.length := by
  induction ps generalizing first with
  | nil => simp [itemsFrom]
  | cons q rest ih =>
    obtain ⟨n, position⟩ := i
    simp only [itemsFrom, List.mem_append, List.mem_map, List.mem_range, Item.mk.injEq, ih]
    constructor
    · rintro (⟨k, hk, rfl, rfl⟩ | ⟨k, p, hp, rfl, hposition⟩)
      · exact ⟨0, q, rfl, rfl, by omega⟩
      · exact ⟨k + 1, p, hp, by omega, hposition⟩
    · intro h
      obtain ⟨k, p, hp, rfl, hposition⟩ := h
      cases k with
      | zero =>
        obtain rfl : q = p := Option.some.inj hp
        exact .inl ⟨position, by omega, rfl, rfl⟩
      | succ k => exact .inr ⟨k, p, hp, by omega, hposition⟩

theorem mem_itemPool {i : Item} : i ∈ g.itemPool ↔ g.ItemExists i := by
  simp [itemPool, mem_itemsFrom, ItemExists]

theorem length_itemPool : g.itemPool.length = g.itemCount := by
  have hlength : ∀ first ps, (itemsFrom first ps).length
      = ps.foldr (fun p n => p.right.length + 1 + n) 0 := by
    intro first ps
    induction ps generalizing first with
    | nil => rfl
    | cons p rest ih => simp [itemsFrom, ih]
  exact hlength 0 g.productions.toList

/-- What items that exist expand to exists as well. -/
theorem InClosure.itemExists {items : ItemSet} {i : Item} (h : g.InClosure items i)
    (hitems : ∀ j ∈ items, g.ItemExists j) : g.ItemExists i := by
  cases h with
  | base hi => exact hitems i hi
  | expand _ _ hp =>
    obtain ⟨-, q, hq, -⟩ := mem_productionsOf.1 hp
    exact ⟨q, hq, Nat.zero_le _⟩

/-- A dot that stands before a symbol can move over it. -/
theorem ItemExists.advance {i : Item} {s : Nat} (h : g.ItemExists i)
    (hs : i.nextSymbol g = some s) : g.ItemExists i.advance := by
  obtain ⟨p, hp, -⟩ := h
  rw [Item.nextSymbol, rightSide_eq hp] at hs
  exact ⟨p, hp, (List.getElem?_eq_some_iff.1 hs).1⟩

theorem itemExists_of_mem_goto (hg : g.SymbolsExist) {items target : ItemSet} {s : Nat}
    (h : g.goto items s = some target) (hitems : ∀ i ∈ items, g.ItemExists i) :
    ∀ j ∈ target, g.ItemExists j := by
  intro j hj
  apply ((mem_goto hg h).1 hj).itemExists
  intro k hk
  obtain ⟨i, hi, hnext, rfl⟩ := mem_advanced.1 (SortedSet.mem_ofList.1 hk)
  exact (hitems i hi).advance hnext

/-- Different sets of existing items are at most as many as the pool has parts. -/
theorem length_le_two_pow {sets : List ItemSet} (hnodup : sets.Nodup)
    (hexists : ∀ items ∈ sets, ∀ i ∈ items, g.ItemExists i) :
    sets.length ≤ 2 ^ g.itemCount := by
  let parts := sets.map fun items : ItemSet => items.toList.toFinset
  have hparts : parts.Nodup := by
    refine hnodup.map fun s t hst => SortedSet.ext fun x => ?_
    have := congrArg (x ∈ ·) hst
    simpa [SortedSet.mem_def] using this
  have hsub : parts.toFinset ⊆ g.itemPool.toFinset.powerset := by
    intro part hpart
    obtain ⟨items, hitems, rfl⟩ := List.mem_map.1 (List.mem_toFinset.1 hpart)
    refine Finset.mem_powerset.2 fun i hi => List.mem_toFinset.2 (mem_itemPool.2 ?_)
    exact hexists items hitems i (List.mem_toFinset.1 hi)
  calc sets.length = parts.length := by simp [parts]
    _ = parts.toFinset.card := (List.toFinset_card_of_nodup hparts).symm
    _ ≤ g.itemPool.toFinset.powerset.card := Finset.card_le_card hsub
    _ = 2 ^ g.itemPool.toFinset.card := Finset.card_powerset _
    _ ≤ 2 ^ g.itemPool.length := Nat.pow_le_pow_right (by omega) (List.toFinset_card_le _)
    _ = 2 ^ g.itemCount := by rw [length_itemPool]

/-! ## Section 2: Working off one item set -/

/-- What was found stays found, at the same number. -/
def Grows (sets later : Array ItemSet) : Prop := sets.toList <+: later.toList

theorem Grows.refl (sets : Array ItemSet) : Grows sets sets := List.prefix_rfl

theorem Grows.trans {a b c : Array ItemSet} (hab : Grows a b) (hbc : Grows b c) : Grows a c :=
  List.IsPrefix.trans hab hbc

theorem Grows.getElem? {sets later : Array ItemSet} (h : Grows sets later) {v : Nat}
    {items : ItemSet} (hv : sets[v]? = some items) : later[v]? = some items := by
  obtain ⟨added, hadded⟩ := h
  rw [← Array.getElem?_toList] at hv ⊢
  rw [← hadded, List.getElem?_append_left (List.getElem?_eq_some_iff.1 hv).1, hv]

/-- An edge agrees with a goto: it is absent where there is nowhere to go, and
    leads to the number of the item set otherwise. -/
def EdgeTo (sets : Array ItemSet) (edge : Option Nat) : Option ItemSet → Prop
  | none => edge = none
  | some target => ∃ v, edge = some v ∧ sets[v]? = some target

theorem EdgeTo.grow {sets later : Array ItemSet} {edge : Option Nat} {target : Option ItemSet}
    (h : EdgeTo sets edge target) (hgrows : Grows sets later) : EdgeTo later edge target := by
  cases target with
  | none => exact h
  | some target =>
    obtain ⟨v, hv, htarget⟩ := h
    exact ⟨v, hv, hgrows.getElem? htarget⟩

/-- An item set is found at the number that `locate` gives it, and it is the
    only one that can be new. -/
theorem locate_spec {sets : Array ItemSet} (items : ItemSet) (hnodup : sets.toList.Nodup) :
    (locate sets items).2[(locate sets items).1]? = some items ∧
      Grows sets (locate sets items).2 ∧ (locate sets items).2.toList.Nodup ∧
      ∀ t ∈ (locate sets items).2, t ∈ sets ∨ t = items := by
  unfold locate
  split
  · rename_i v hv
    obtain ⟨hlt, heq, -⟩ := Array.findIdx?_eq_some_iff_getElem.1 hv
    refine ⟨?_, .refl sets, hnodup, fun t ht => .inl ht⟩
    rw [Array.getElem?_eq_getElem hlt]
    simpa using heq
  · rename_i hnone
    have hnew : items ∉ sets.toList := by
      intro hmem
      have := Array.findIdx?_eq_none_iff.1 hnone items (by simpa using hmem)
      simp at this
    refine ⟨by simp, ?_, ?_, fun t ht => by simpa using ht⟩
    · simp [Grows]
    · rw [Array.toList_push, List.nodup_append]
      refine ⟨hnodup, List.nodup_singleton items, fun t ht u hu heq => hnew ?_⟩
      rw [← List.mem_singleton.1 hu, ← heq]
      exact ht

variable (g) in
/-- What comes of adding edges on some symbols: they agree with goto, the others
    stay as they were, and what is found on the way is a goto. -/
structure AddsEdges (items : ItemSet) (sets : Array ItemSet) (edges : IndexMap Nat)
    (symbols : List Nat) (result : Array ItemSet × IndexMap Nat) : Prop where
  grows : Grows sets result.1
  nodup : result.1.toList.Nodup
  found : ∀ t ∈ result.1, t ∈ sets ∨ ∃ x ∈ symbols, g.goto items x = some t
  edge : ∀ x ∈ symbols, EdgeTo result.1 (result.2.find x) (g.goto items x)
  other : ∀ x, x ∉ symbols → result.2.find x = edges.find x

namespace AddsEdges

variable {items : ItemSet} {sets : Array ItemSet} {edges : IndexMap Nat} {y : Nat}
  {rest : List Nat} {result : Array ItemSet × IndexMap Nat}

/-- A symbol on which there is nowhere to go adds nothing. -/
theorem cons_of_none (h : g.AddsEdges items sets edges rest result) (hy : y ∉ rest)
    (hedge : edges.find y = none) (hgoto : g.goto items y = none) :
    g.AddsEdges items sets edges (y :: rest) result := by
  constructor
  case grows => exact h.grows
  case nodup => exact h.nodup
  case found =>
    intro t ht
    rcases h.found t ht with ht | ⟨x, hx, htarget⟩
    · exact .inl ht
    · exact .inr ⟨x, List.mem_cons_of_mem y hx, htarget⟩
  case edge =>
    intro x hx
    rcases List.mem_cons.1 hx with rfl | hx
    · rw [hgoto, h.other x hy]
      exact hedge
    · exact h.edge x hx
  case other =>
    intro x hx
    exact h.other x fun hmem => hx (List.mem_cons_of_mem y hmem)

/-- The goto on a symbol is located first. -/
theorem cons_of_some {target : ItemSet} (hsets : sets.toList.Nodup) (hy : y ∉ rest)
    (hgoto : g.goto items y = some target)
    (h : g.AddsEdges items (locate sets target).2 (edges.set y (locate sets target).1) rest
      result) : g.AddsEdges items sets edges (y :: rest) result := by
  obtain ⟨hlocated, hgrows, -, hfound⟩ := locate_spec target hsets
  constructor
  case grows => exact hgrows.trans h.grows
  case nodup => exact h.nodup
  case found =>
    intro t ht
    rcases h.found t ht with ht | ⟨x, hx, hx'⟩
    · rcases hfound t ht with ht | rfl
      · exact .inl ht
      · exact .inr ⟨y, List.mem_cons_self, hgoto⟩
    · exact .inr ⟨x, List.mem_cons_of_mem y hx, hx'⟩
  case edge =>
    intro x hx
    rcases List.mem_cons.1 hx with rfl | hx
    · rw [hgoto, h.other x hy, IndexMap.find_set, if_pos rfl]
      exact ⟨_, rfl, h.grows.getElem? hlocated⟩
    · exact h.edge x hx
  case other =>
    intro x hx
    have hne : y ≠ x := fun heq => hx (heq ▸ List.mem_cons_self)
    rw [h.other x fun hmem => hx (List.mem_cons_of_mem y hmem), IndexMap.find_set, if_neg hne]

end AddsEdges

theorem addsEdges_edgesOn (items : ItemSet) {sets : Array ItemSet} {edges : IndexMap Nat}
    {symbols : List Nat} (hsets : sets.toList.Nodup) (hsymbols : symbols.Nodup)
    (hedges : ∀ x ∈ symbols, edges.find x = none) :
    g.AddsEdges items sets edges symbols (g.edgesOn items sets edges symbols) := by
  induction symbols generalizing sets edges with
  | nil => exact ⟨.refl sets, hsets, fun t ht => .inl ht, by simp, fun x _ => rfl⟩
  | cons y rest ih =>
    obtain ⟨hy, hrest⟩ := List.nodup_cons.1 hsymbols
    have hlater : ∀ x ∈ rest, edges.find x = none :=
      fun x hx => hedges x (List.mem_cons_of_mem y hx)
    unfold edgesOn
    split
    · rename_i hnone
      exact (ih hsets hrest hlater).cons_of_none hy (hedges y List.mem_cons_self) hnone
    · rename_i target htarget
      obtain ⟨-, -, hnodup, -⟩ := locate_spec target hsets
      refine .cons_of_some hsets hy htarget (ih hnodup hrest fun x hx => ?_)
      have hne : y ≠ x := fun heq => hy (heq ▸ hx)
      rw [IndexMap.find_set, if_neg hne]
      exact hlater x hx

/-! ## Section 3: The loop -/

variable (g) in
/-- The loop invariant: what is found, and the edges of what is worked off. -/
structure Collecting (c : Collection) : Prop where
  first : c.sets[0]? = some (g.closure (.singleton (.initial 0)))
  nodup : c.sets.toList.Nodup
  itemsExist : ∀ items ∈ c.sets.toList, ∀ i ∈ items, g.ItemExists i
  edges_le : c.edges.size ≤ c.sets.size
  edge : ∀ {u : Nat} {items : ItemSet} {edges : IndexMap Nat}, c.sets[u]? = some items →
    c.edges[u]? = some edges → ∀ x, EdgeTo c.sets (edges.find x) (g.goto items x)

/-- Nowhere to go on what is not a symbol. -/
theorem goto_eq_none_of_le (hg : g.SymbolsExist) {items : ItemSet} {x : Nat}
    (hx : g.symbolCount ≤ x) : g.goto items x = none := by
  apply goto_eq_none_iff.2
  intro i _ hnext
  have := Item.nextSymbol_lt hg hnext
  omega

/-- With an edge for every symbol, all edges agree with goto. -/
theorem AddsEdges.edge_all (hg : g.SymbolsExist) {items : ItemSet} {sets : Array ItemSet}
    {result : Array ItemSet × IndexMap Nat}
    (h : g.AddsEdges items sets .empty g.symbols result) (x : Nat) :
    EdgeTo result.1 (result.2.find x) (g.goto items x) := by
  by_cases hx : x ∈ g.symbols
  · exact h.edge x hx
  · have hge : g.symbolCount ≤ x := by simpa [symbols] using hx
    rw [h.other x hx, goto_eq_none_of_le hg hge]
    rfl

theorem collecting_firstCollection (hg : g.SymbolsExist) (hzero : 0 < g.productionCount) :
    g.Collecting g.firstCollection where
  first := by simp [firstCollection]
  nodup := by simp [firstCollection]
  itemsExist := by
    intro items hitems i hi
    obtain rfl : items = g.closure (.singleton (.initial 0)) := by
      simpa [firstCollection] using hitems
    apply ((mem_closure hg).1 hi).itemExists
    intro j hj
    obtain rfl := SortedSet.mem_singleton.1 hj
    exact ⟨_, Array.getElem?_eq_getElem hzero, Nat.zero_le _⟩
  edges_le := by simp [firstCollection]
  edge := by
    intro u items edges _ hedges
    simp [firstCollection] at hedges

/-- **Step**: working off an item set keeps the invariant. -/
theorem Collecting.workOff (hg : g.SymbolsExist) {c next : Collection} (h : g.Collecting c)
    (hnext : g.workOff c = some next) :
    g.Collecting next ∧ next.edges.size = c.edges.size + 1 := by
  unfold Grammar.workOff at hnext
  split at hnext
  · simp at hnext
  rename_i items hitems
  obtain rfl := Option.some.inj hnext
  -- Item sets are only added, so those that have a number keep it.
  have hadds : g.AddsEdges items c.sets .empty g.symbols
      (g.edgesOn items c.sets .empty g.symbols) :=
    addsEdges_edgesOn items h.nodup List.nodup_range fun x _ => IndexMap.find_empty x
  have hlt : c.edges.size < c.sets.size := (Array.getElem?_eq_some_iff.1 hitems).1
  refine ⟨?_, by simp⟩
  constructor
  case first => exact hadds.grows.getElem? h.first
  case nodup => exact hadds.nodup
  case itemsExist =>
    intro t ht
    rcases hadds.found t (by simpa using ht) with ht | ⟨x, -, hx⟩
    · exact h.itemsExist t (by simpa using ht)
    · refine itemExists_of_mem_goto hg hx (h.itemsExist items ?_)
      exact List.mem_of_getElem? (by simpa using hitems)
  case edges_le =>
    have hle : c.sets.size ≤ (g.edgesOn items c.sets .empty g.symbols).1.size := by
      simpa using hadds.grows.length_le
    simp only [Array.size_push]
    omega
  case edge =>
    intro u other edges hother hedges x
    rw [Array.getElem?_push] at hedges
    split at hedges
    · -- The item set that has just been worked off.
      rename_i hu
      subst hu
      obtain rfl := Option.some.inj hedges
      obtain rfl := Option.some.inj ((hadds.grows.getElem? hitems).symm.trans hother)
      exact hadds.edge_all hg x
    · -- An item set worked off before: what its edges lead to has kept its number.
      have hu : u < c.sets.size := by
        have := (Array.getElem?_eq_some_iff.1 hedges).1
        omega
      have hold := Array.getElem?_eq_getElem hu
      obtain rfl := Option.some.inj ((hadds.grows.getElem? hold).symm.trans hother)
      exact (h.edge hold hedges x).grow hadds.grows

/-- **Run**: what every step keeps is kept by any number of rounds. -/
theorem collect_induction {motive : Collection → Prop} {rounds : Nat} {c : Collection}
    (hstart : motive c)
    (hstep : ∀ c next, motive c → g.workOff c = some next → motive next) :
    motive (g.collect rounds c) := by
  induction rounds generalizing c with
  | zero => exact hstart
  | succ rounds ih =>
    unfold collect
    split
    · exact hstart
    · rename_i next hnext
      exact ih (hstep c next hstart hnext)

theorem Collecting.collect (hg : g.SymbolsExist) {rounds : Nat} {c : Collection}
    (h : g.Collecting c) : g.Collecting (g.collect rounds c) :=
  collect_induction h fun _ _ hc hnext => (hc.workOff hg hnext).1

theorem Collecting.size_le {c : Collection} (h : g.Collecting c) :
    c.sets.size ≤ 2 ^ g.itemCount := by
  simpa using length_le_two_pow h.nodup h.itemsExist

/-- The rounds outlast the item sets. -/
theorem Collecting.workOff_collect (hg : g.SymbolsExist) {rounds : Nat} {c : Collection}
    (h : g.Collecting c) (hrounds : 2 ^ g.itemCount < c.edges.size + rounds) :
    g.workOff (g.collect rounds c) = none := by
  induction rounds generalizing c with
  | zero =>
    have := h.size_le
    have := h.edges_le
    omega
  | succ rounds ih =>
    unfold Grammar.collect
    split
    · assumption
    · rename_i next hnext
      obtain ⟨hcollecting, hsize⟩ := h.workOff hg hnext
      exact ih hcollecting (by omega)

/-- **Termination**: the loop ends with every item set worked off. -/
theorem workOff_collection (hg : g.SymbolsExist) (hzero : 0 < g.productionCount) :
    g.workOff g.collection = none := by
  apply (collecting_firstCollection hg hzero).workOff_collect hg
  simp only [firstCollection, Nat.pow_eq]
  omega

/-! ## Section 4: The automaton -/

variable (g) in
/-- The states are closed under goto, and their edges are the gotos. -/
structure Canonical (a : Automaton) : Prop where
  start : a.start = 0
  first : ∃ st, a.states[0]? = some st ∧ st.items = g.closure (.singleton (.initial 0))
  items_inj : ∀ {u v : Nat} {su sv : State}, a.states[u]? = some su → a.states[v]? = some sv →
    su.items = sv.items → u = v
  itemsExist : ∀ {s : Nat} {st : State}, a.states[s]? = some st → ∀ i ∈ st.items, g.ItemExists i
  edge_none : ∀ {s x : Nat} {st : State}, a.states[s]? = some st →
    g.goto st.items x = none → st.edges.find x = none
  edge_some : ∀ {s x : Nat} {st : State} {target : ItemSet}, a.states[s]? = some st →
    g.goto st.items x = some target →
    ∃ v next, st.edges.find x = some v ∧ a.states[v]? = some next ∧ next.items = target

/-- In the end all item sets are worked off. -/
theorem Collecting.size_edges {c : Collection} (h : g.Collecting c) (hdone : g.workOff c = none) :
    c.edges.size = c.sets.size := by
  unfold Grammar.workOff at hdone
  split at hdone
  · rename_i hnone
    have := Array.getElem?_eq_none_iff.1 hnone
    have := h.edges_le
    omega
  · simp at hdone

theorem getElem?_states {s : Nat} {st : State} : g.automaton.states[s]? = some st ↔
    g.collection.sets[s]? = some st.items ∧ g.collection.edges[s]? = some st.edges := by
  rw [automaton, Array.getElem?_zipWith_eq_some]
  constructor
  · intro h
    obtain ⟨items, edges, hitems, hedges, rfl⟩ := h
    exact ⟨hitems, hedges⟩
  · intro h
    obtain ⟨hitems, hedges⟩ := h
    exact ⟨st.items, st.edges, hitems, hedges, rfl⟩

/-- **The canonical collection**: it is what the automaton of a grammar is made of. -/
theorem canonical_automaton (hg : g.SymbolsExist) (hzero : 0 < g.productionCount) :
    g.Canonical g.automaton := by
  have hc : g.Collecting g.collection := (collecting_firstCollection hg hzero).collect hg
  have hsize := hc.size_edges (workOff_collection hg hzero)
  -- Nothing is left to be worked off: every item set has its edges, so it is a state.
  have hexists : ∀ {v : Nat} {items : ItemSet}, g.collection.sets[v]? = some items →
      ∃ st, g.automaton.states[v]? = some st ∧ st.items = items := by
    intro v items hv
    have hlt : v < g.collection.edges.size := by
      have := (Array.getElem?_eq_some_iff.1 hv).1
      omega
    exact ⟨⟨items, g.collection.edges[v]⟩,
      getElem?_states.2 ⟨hv, Array.getElem?_eq_getElem hlt⟩, rfl⟩
  constructor
  case start => rfl
  case first => exact hexists hc.first
  case items_inj =>
    intro u v su sv hu hv heq
    obtain ⟨hu, -⟩ := getElem?_states.1 hu
    obtain ⟨hv, -⟩ := getElem?_states.1 hv
    have hlt : u < g.collection.sets.size := (Array.getElem?_eq_some_iff.1 hu).1
    refine (List.getElem?_inj (by simpa using hlt) hc.nodup).1 ?_
    rw [Array.getElem?_toList, Array.getElem?_toList, hu, hv, heq]
  case itemsExist =>
    intro s st hst
    obtain ⟨hitems, -⟩ := getElem?_states.1 hst
    exact hc.itemsExist st.items (List.mem_of_getElem? (by simpa using hitems))
  case edge_none =>
    intro s x st hst hnone
    obtain ⟨hitems, hedges⟩ := getElem?_states.1 hst
    have hedge := hc.edge hitems hedges x
    rwa [hnone] at hedge
  case edge_some =>
    intro s x st target hst htarget
    obtain ⟨hitems, hedges⟩ := getElem?_states.1 hst
    have hedge := hc.edge hitems hedges x
    rw [htarget] at hedge
    obtain ⟨v, hv, hnext⟩ := hedge
    obtain ⟨next, hnext, heq⟩ := hexists hnext
    exact ⟨v, next, hv, hnext, heq⟩

end Grammar

end SlrCompiler
