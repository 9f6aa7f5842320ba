import Mathlib.Logic.Relation
import SlrCompiler.Proofs.Automaton.ViablePrefix
import SlrCompiler.Proofs.Grammar.Resolution

/-! # The numbers of the states

    The automaton of a grammar, also of one to which productions have been
    added, is the canonical collection (`Collected`): its states are the item
    sets that goto leads to from the first one, each of them once, and its edges
    are the gotos.

    Moreover the states are numbered in the order in which they are found. The
    invariant of the loop is `InOrder`: each number but the first has an edge to
    it from a lower number, and all edges before that one, by source and then by
    symbol, lead to lower numbers. Since the symbols of an item set are tried in
    order, the edges added for it have this property among themselves
    (`newInOrder_edgesOn`), and they come after all earlier ones.
-/

namespace SlrCompiler

/-! ## Section 1: Edges in order -/

/-- The first edge to a state, by source and then by symbol. -/
structure Automaton.FirstEdge (a : Automaton) (v u x : Nat) : Prop where
  leads : a.goto u x = some v
  least : ∀ u' x', a.goto u' x' = some v → u < u' ∨ u = u' ∧ x ≤ x'

/-- The edge of an item set on a symbol, if the item set is worked off. -/
def Collection.edge (c : Collection) (u x : Nat) : Option Nat :=
  c.edges[u]?.bind fun edges => edges.find x

/-- Each item set but the first has an edge to it from one that was found before,
    and what was found by an edge before that one has a lower number. -/
def Collection.InOrder (c : Collection) : Prop :=
  ∀ v, 0 < v → v < c.sets.size → ∃ u x, c.edge u x = some v ∧ u < v ∧
    ∀ u' x' w, u' < u ∨ u' = u ∧ x' < x → c.edge u' x' = some w → w < v

section Push

variable {c : Collection} {sets : Array ItemSet} {edges : IndexMap Nat}

/-- The edges of what has been worked off before stay as they are. -/
theorem Collection.edge_of_lt {u : Nat} (hu : u < c.edges.size) (x : Nat) :
    Collection.edge ⟨sets, c.edges.push edges⟩ u x = c.edge u x := by
  simp [Collection.edge, Array.getElem?_push, Nat.ne_of_lt hu]

theorem Collection.edge_size (x : Nat) :
    Collection.edge ⟨sets, c.edges.push edges⟩ c.edges.size x = edges.find x := by
  simp [Collection.edge]

theorem Collection.lt_of_edge {u x v : Nat} (h : c.edge u x = some v) : u < c.edges.size := by
  obtain ⟨_, hedges, -⟩ := Option.bind_eq_some_iff.1 h
  exact (Array.getElem?_eq_some_iff.1 hedges).1

end Push

namespace Grammar

variable {g : Grammar}

/-! ## Section 2: The loop -/

/-- At most one item set is new, and then it has the next number. -/
theorem size_locate (sets : Array ItemSet) (items : ItemSet) :
    (locate sets items).2.size = sets.size ∨
      (locate sets items).2.size = sets.size + 1 ∧ (locate sets items).1 = sets.size := by
  unfold locate
  split
  · exact .inl rfl
  · exact .inr ⟨by simp, rfl⟩

/-- Each number that is new after edges have been added has an edge to it, and the
    edges on lower symbols lead to lower numbers. -/
def NewInOrder (sets : Array ItemSet) (symbols : List Nat)
    (result : Array ItemSet × IndexMap Nat) : Prop :=
  ∀ v, sets.size ≤ v → v < result.1.size → ∃ x ∈ symbols, result.2.find x = some v ∧
    ∀ y ∈ symbols, y < x → ∀ w, result.2.find y = some w → w < v

namespace NewInOrder

variable {sets : Array ItemSet} {s : Nat} {rest : List Nat}
  {result : Array ItemSet × IndexMap Nat}

/-- A symbol without an edge makes nothing new. -/
theorem cons_of_none (h : NewInOrder sets rest result) (hnone : result.2.find s = none) :
    NewInOrder sets (s :: rest) result := by
  intro v hv hlt
  obtain ⟨x, hx, hfind, hlower⟩ := h v hv hlt
  refine ⟨x, List.mem_cons_of_mem s hx, hfind, fun y hy hyx w hw => ?_⟩
  rcases List.mem_cons.1 hy with rfl | hy
  · simp [hnone] at hw
  · exact hlower y hy hyx w hw

/-- The goto on the first symbol is the first that can be new. -/
theorem cons_of_some {target : ItemSet} (hsets : sets.toList.Nodup)
    (h : NewInOrder (locate sets target).2 rest result) (hs : ∀ x ∈ rest, s < x)
    (hedge : result.2.find s = some (locate sets target).1) :
    NewInOrder sets (s :: rest) result := by
  obtain ⟨hlocated, -, -, -⟩ := locate_spec target hsets
  have hbound : (locate sets target).1 < (locate sets target).2.size :=
    (Array.getElem?_eq_some_iff.1 hlocated).1
  intro v hv hlt
  by_cases hnew : v < (locate sets target).2.size
  · -- The only number that this symbol can have made new is that of its own goto.
    obtain rfl : (locate sets target).1 = v := by
      rcases size_locate sets target with hsize | ⟨hsize, hnumber⟩ <;> omega
    refine ⟨s, List.mem_cons_self, hedge, fun y hy hys => ?_⟩
    rcases List.mem_cons.1 hy with rfl | hy
    · exact absurd hys (Nat.lt_irrefl y)
    · exact absurd hys (Nat.lt_asymm (hs y hy))
  · obtain ⟨x, hx, hfind, hlower⟩ := h v (Nat.le_of_not_lt hnew) hlt
    refine ⟨x, List.mem_cons_of_mem s hx, hfind, fun y hy hyx w hw => ?_⟩
    rcases List.mem_cons.1 hy with rfl | hy
    · obtain rfl := Option.some.inj (hedge.symm.trans hw)
      omega
    · exact hlower y hy hyx w hw

end NewInOrder

theorem newInOrder_edgesOn (items : ItemSet) {sets : Array ItemSet} {edges : IndexMap Nat}
    {symbols : List Nat} (hsets : sets.toList.Nodup) (hsymbols : symbols.Pairwise (· < ·))
    (hedges : ∀ x ∈ symbols, edges.find x = none) :
    NewInOrder sets symbols (g.edgesOn items sets edges symbols) := by
  induction symbols generalizing sets edges with
  | nil =>
    intro v hv hlt
    exact absurd hlt (Nat.not_lt_of_le hv)
  | cons s rest ih =>
    obtain ⟨hfirst, hrest⟩ := List.pairwise_cons.1 hsymbols
    have hs : s ∉ rest := fun hmem => Nat.lt_irrefl s (hfirst s hmem)
    have hlater : ∀ x ∈ rest, edges.find x = none :=
      fun x hx => hedges x (List.mem_cons_of_mem s hx)
    -- The edge on the first symbol is not touched by the others.
    have hkept : ∀ {sets : Array ItemSet} {edges : IndexMap Nat}, sets.toList.Nodup →
        (∀ x ∈ rest, edges.find x = none) →
          (g.edgesOn items sets edges rest).2.find s = edges.find s :=
      fun hsets hedges =>
        (addsEdges_edgesOn items hsets (hrest.imp Nat.ne_of_lt) hedges).other s hs
    unfold edgesOn
    split
    · refine (ih hsets hrest hlater).cons_of_none ?_
      rw [hkept hsets hlater, hedges s List.mem_cons_self]
    · rename_i target _
      obtain ⟨-, -, hnodup, -⟩ := locate_spec target hsets
      have hnext : ∀ x ∈ rest, (edges.set s (locate sets target).1).find x = none := by
        intro x hx
        have hne : s ≠ x := fun heq => hs (heq ▸ hx)
        rw [IndexMap.find_set, if_neg hne, hlater x hx]
      refine (ih hnodup hrest hnext).cons_of_some hsets hfirst ?_
      rw [hkept hnodup hnext, IndexMap.find_set, if_pos rfl]

/-- An edge leads to an item set that has been found. -/
theorem Collecting.lt_of_edge {c : Collection} (h : g.Collecting c) {u x w : Nat}
    (hw : c.edge u x = some w) : w < c.sets.size := by
  have hu : u < c.sets.size := Nat.lt_of_lt_of_le (Collection.lt_of_edge hw) h.edges_le
  obtain ⟨edges, hedges, hfind⟩ := Option.bind_eq_some_iff.1 hw
  have hedge := h.edge (Array.getElem?_eq_getElem hu) hedges x
  rw [hfind] at hedge
  cases htarget : g.goto c.sets[u] x with
  | none => simp [EdgeTo, htarget] at hedge
  | some target =>
    rw [htarget] at hedge
    obtain ⟨v, hv, hset⟩ := hedge
    obtain rfl := Option.some.inj hv
    exact (Array.getElem?_eq_some_iff.1 hset).1

/-- **Step**: working off an item set keeps the numbers in order. -/
theorem Collecting.inOrder_workOff {c next : Collection} (hc : g.Collecting c) (h : c.InOrder)
    (hnext : g.workOff c = some next) : next.InOrder := by
  unfold Grammar.workOff at hnext
  split at hnext
  · simp at hnext
  rename_i items hitems
  obtain rfl := Option.some.inj hnext
  have hlt : c.edges.size < c.sets.size := (Array.getElem?_eq_some_iff.1 hitems).1
  have hnone : ∀ x ∈ g.symbols, (IndexMap.empty : IndexMap Nat).find x = none :=
    fun x _ => IndexMap.find_empty x
  have hnew : NewInOrder c.sets g.symbols (g.edgesOn items c.sets .empty g.symbols) :=
    newInOrder_edgesOn items hc.nodup List.pairwise_lt_range hnone
  intro v hpos hv
  by_cases hfound : v < c.sets.size
  · -- It was found before, and so by an edge that was there before.
    obtain ⟨u, x, hedge, huv, hlower⟩ := h v hpos hfound
    have hu := Collection.lt_of_edge hedge
    refine ⟨u, x, by rw [Collection.edge_of_lt hu, hedge], huv, fun u' x' w hbefore hw => ?_⟩
    rw [Collection.edge_of_lt (by omega)] at hw
    exact hlower u' x' w hbefore hw
  · obtain ⟨x, hx, hfind, hlower⟩ := hnew v (Nat.le_of_not_lt hfound) hv
    refine ⟨c.edges.size, x, by rw [Collection.edge_size, hfind], by omega, ?_⟩
    intro u' x' w hbefore hw
    -- Edges of lower sources lead to what was found before.
    rcases hbefore with hu' | ⟨rfl, hx'⟩
    · rw [Collection.edge_of_lt hu'] at hw
      have := hc.lt_of_edge hw
      omega
    · rw [Collection.edge_size] at hw
      refine hlower x' ?_ hx' w hw
      have hx : x < g.symbolCount := List.mem_range.1 hx
      exact List.mem_range.2 (Nat.lt_trans hx' hx)

/-- **Run**: the numbers of the collection are in order. -/
theorem Collecting.inOrder_collect (hg : g.SymbolsExist) {rounds : Nat} {c : Collection}
    (hc : g.Collecting c) (h : c.InOrder) : (g.collect rounds c).InOrder := by
  have hboth : g.Collecting (g.collect rounds c) ∧ (g.collect rounds c).InOrder := by
    refine collect_induction (motive := fun c => g.Collecting c ∧ c.InOrder) ⟨hc, h⟩ ?_
    intro c next hkept hnext
    obtain ⟨hc, h⟩ := hkept
    exact ⟨(hc.workOff hg hnext).1, hc.inOrder_workOff h hnext⟩
  exact hboth.2

theorem inOrder_collection (hg : g.SymbolsExist) (hzero : 0 < g.productionCount) :
    g.collection.InOrder := by
  refine (collecting_firstCollection hg hzero).inOrder_collect hg fun v hpos hv => ?_
  simp only [firstCollection, List.size_toArray, List.length_singleton] at hv
  omega

/-! ## Section 3: The automaton -/

variable (g) in
/-- The second item set is a goto of the first one. -/
def GoesTo (items target : ItemSet) : Prop := ∃ x, g.goto items x = some target

variable (g) in
/-- An automaton is the canonical collection of a grammar, its states numbered as
    they are found. -/
structure Collected (a : Automaton) : Prop where
  /-- State 0 comes first; it is the closure of the augmenting item. -/
  start : a.start = 0
  first : ∃ st, a.states[0]? = some st ∧ st.items = g.closure (.singleton (.initial 0))
  /-- No two states hold the same items. -/
  items_inj : ∀ {u v : Nat} {su sv : State}, a.states[u]? = some su → a.states[v]? = some sv →
    su.items = sv.items → u = v
  /-- The states are what goto leads to, over any number of symbols. -/
  isState_iff : ∀ items, (∃ (v : Nat) (st : State), a.states[v]? = some st ∧ st.items = items) ↔
    Relation.ReflTransGen g.GoesTo (g.closure (.singleton (.initial 0))) items
  /-- The edges are the gotos. -/
  edge_iff : ∀ {u x v : Nat} {su : State}, a.states[u]? = some su →
    (su.edges.find x = some v ↔
      ∃ sv, a.states[v]? = some sv ∧ g.goto su.items x = some sv.items)
  edge_eq_none_iff : ∀ {u x : Nat} {su : State}, a.states[u]? = some su →
    (su.edges.find x = none ↔ g.goto su.items x = none)
  /-- Each state but state 0 has a first edge, from a lower state. -/
  found : ∀ v, 0 < v → v < a.size → ∃ u x, a.FirstEdge v u x ∧ u < v
  /-- The first edges are in the order of the states that they lead to. -/
  inOrder : ∀ {v w u x u' x' : Nat}, 0 < v → v < w → a.FirstEdge v u x → a.FirstEdge w u' x' →
    u < u' ∨ u = u' ∧ x < x'

/-- The edges of the automaton are those of the collection. -/
theorem goto_automaton (hg : g.SymbolsExist) (hzero : 0 < g.productionCount) (u x : Nat) :
    g.automaton.goto u x = g.collection.edge u x := by
  have hc : g.Collecting g.collection := (collecting_firstCollection hg hzero).collect hg
  have hsize := hc.size_edges (workOff_collection hg hzero)
  unfold Automaton.goto Collection.edge
  -- States and lists of edges have the same numbers, since nothing is left to be worked off.
  by_cases hu : u < g.collection.edges.size
  · have hedges := Array.getElem?_eq_getElem hu
    have hsets := Array.getElem?_eq_getElem (hsize ▸ hu)
    have hst : g.automaton.states[u]?
        = some ⟨g.collection.sets[u], g.collection.edges[u]⟩ := getElem?_states.2 ⟨hsets, hedges⟩
    rw [hst, hedges]
    rfl
  · have hedges : g.collection.edges[u]? = none := Array.getElem?_eq_none (Nat.le_of_not_lt hu)
    have hst : g.automaton.states[u]? = none := by
      cases hst : g.automaton.states[u]? with
      | none => rfl
      | some st =>
        obtain ⟨-, hsome⟩ := getElem?_states.1 hst
        simp [hedges] at hsome
    rw [hst, hedges]
    rfl

namespace Canonical

variable {a : Automaton} (h : g.Canonical a)
include h

theorem edge_iff {u x v : Nat} {su : State} (hu : a.states[u]? = some su) :
    su.edges.find x = some v ↔ ∃ sv, a.states[v]? = some sv ∧ g.goto su.items x = some sv.items := by
  constructor
  · intro hv
    cases htarget : g.goto su.items x with
    | none => simp [h.edge_none hu htarget] at hv
    | some target =>
      obtain ⟨w, next, hw, hnext, rfl⟩ := h.edge_some hu htarget
      obtain rfl := Option.some.inj (hw.symm.trans hv)
      exact ⟨next, hnext, rfl⟩
  · intro hv
    obtain ⟨sv, hsv, htarget⟩ := hv
    obtain ⟨w, next, hw, hnext, hitems⟩ := h.edge_some hu htarget
    rw [hw, h.items_inj hnext hsv hitems]

theorem edge_eq_none_iff {u x : Nat} {su : State} (hu : a.states[u]? = some su) :
    su.edges.find x = none ↔ g.goto su.items x = none := by
  refine ⟨fun hnone => ?_, h.edge_none hu⟩
  cases htarget : g.goto su.items x with
  | none => rfl
  | some target =>
    obtain ⟨w, next, hw, -, -⟩ := h.edge_some hu htarget
    simp [hnone] at hw

/-- What goto leads to is a state. -/
theorem exists_state {items : ItemSet}
    (hitems : Relation.ReflTransGen g.GoesTo (g.closure (.singleton (.initial 0))) items) :
    ∃ (v : Nat) (st : State), a.states[v]? = some st ∧ st.items = items := by
  induction hitems with
  | refl =>
    obtain ⟨st, hst, hfirst⟩ := h.first
    exact ⟨0, st, hst, hfirst⟩
  | tail _ hgoes ih =>
    obtain ⟨v, st, hst, rfl⟩ := ih
    obtain ⟨x, hx⟩ := hgoes
    obtain ⟨w, next, -, hnext, heq⟩ := h.edge_some hst hx
    exact ⟨w, next, hnext, heq⟩

/-- If each state but the first has an edge from a lower one, goto leads to all
    states. -/
theorem goesTo_items (hlower : ∀ v, 0 < v → v < a.size → ∃ u x, a.goto u x = some v ∧ u < v)
    {v : Nat} {st : State} (hst : a.states[v]? = some st) :
    Relation.ReflTransGen g.GoesTo (g.closure (.singleton (.initial 0))) st.items := by
  induction v using Nat.strongRecOn generalizing st with
  | ind v ih =>
    by_cases hv : v = 0
    · subst hv
      obtain ⟨first, hfirst, hitems⟩ := h.first
      obtain rfl := Option.some.inj (hst.symm.trans hfirst)
      rw [hitems]
    · have hlt : v < a.size := (Array.getElem?_eq_some_iff.1 hst).1
      obtain ⟨u, x, hedge, huv⟩ := hlower v (Nat.pos_of_ne_zero hv) hlt
      obtain ⟨su, hsu, hfind⟩ := Option.bind_eq_some_iff.1 hedge
      obtain ⟨sv, hsv, hgoto⟩ := (h.edge_iff hsu).1 hfind
      obtain rfl := Option.some.inj (hst.symm.trans hsv)
      exact (ih u huv hsu).tail ⟨x, hgoto⟩

end Canonical

/-- **The collection**: the automaton of a grammar over existing symbols is its
    canonical collection, in the order of discovery. -/
theorem collected_automaton (hg : g.SymbolsExist) (hzero : 0 < g.productionCount) :
    g.Collected g.automaton := by
  have hcanonical := canonical_automaton hg hzero
  have hc : g.Collecting g.collection := (collecting_firstCollection hg hzero).collect hg
  have hsize : g.automaton.size = g.collection.sets.size := by
    simp [Automaton.size, automaton, hc.size_edges (workOff_collection hg hzero)]
  have horder := inOrder_collection hg hzero
  simp only [Collection.InOrder, ← hsize, ← goto_automaton hg hzero] at horder
  constructor
  case start => exact hcanonical.start
  case first => exact hcanonical.first
  case items_inj => exact hcanonical.items_inj
  case isState_iff =>
    intro items
    constructor
    · intro hstate
      obtain ⟨v, st, hst, rfl⟩ := hstate
      refine hcanonical.goesTo_items (fun v hpos hv => ?_) hst
      obtain ⟨u, x, hedge, huv, -⟩ := horder v hpos hv
      exact ⟨u, x, hedge, huv⟩
    · exact hcanonical.exists_state
  case edge_iff => exact hcanonical.edge_iff
  case edge_eq_none_iff => exact hcanonical.edge_eq_none_iff
  case found =>
    intro v hpos hv
    obtain ⟨u, x, hedge, huv, hlower⟩ := horder v hpos hv
    refine ⟨u, x, ⟨hedge, fun u' x' hother => ?_⟩, huv⟩
    by_contra hbefore
    exact Nat.lt_irrefl v (hlower u' x' v (by omega) hother)
  case inOrder =>
    intro v w u x u' x' hpos hvw hv hw
    have hwsize : w < g.automaton.size := by
      have hedge := hw.leads
      rw [goto_automaton hg hzero] at hedge
      exact hsize ▸ hc.lt_of_edge hedge
    obtain ⟨r, y, hedge, -, hlower⟩ := horder v hpos (Nat.lt_trans hvw hwsize)
    have hleast := hv.least r y hedge
    by_contra hnot
    -- The first edge to `w` is not after that to `v`, so it leads to a lower number.
    by_cases hsame : u' = r ∧ x' = y
    · obtain ⟨rfl, rfl⟩ := hsame
      have := Option.some.inj (hedge.symm.trans hw.leads)
      omega
    · have := hlower u' x' w (by omega) hw.leads
      omega

/-! ## Section 4: Grammars with added productions -/

/-- Grammars that come from a specification, with any number of productions over
    their symbols added. -/
inductive Built : Grammar → Prop
  | parsed {spec : String} {g : Grammar} : parse spec = .ok g → Built g
  | added {g : Grammar} {q : Production} : Built g → q.left < g.symbolCount →
      (∀ s ∈ q.right, s < g.symbolCount) → Built (g.addProduction q)

theorem Built.symbolsExist (h : g.Built) : g.SymbolsExist ∧ 0 < g.productionCount := by
  induction h with
  | parsed hparse =>
    have hg := wellFormed_of_parse hparse
    exact ⟨hg.symbolsExist, hg.productionCount_pos⟩
  | added _ hleft hright ih =>
    obtain ⟨hsymbols, hzero⟩ := ih
    refine ⟨hsymbols.addProduction hleft hright, ?_⟩
    simp [productionCount, addProduction]

/-- **The canonical collection of a built grammar**: the loop works off all item
    sets, and what it finds is the collection. -/
theorem collected_of_built (h : g.Built) :
    g.workOff g.collection = none ∧ g.Collected g.automaton := by
  obtain ⟨hsymbols, hzero⟩ := h.symbolsExist
  exact ⟨workOff_collection hsymbols hzero, collected_automaton hsymbols hzero⟩

/-- A list to which a production with two lists in its right side is added. -/
theorem collected_of_built_list :
    ∃ g q, parse "%% s : s 'a' | ; %%" = .ok g ∧ q.right = [g.startSymbol, g.startSymbol] ∧
      (g.addProduction q).Built ∧ (g.addProduction q).automaton.size = 4 ∧
      (g.addProduction q).workOff (g.addProduction q).collection = none ∧
      (g.addProduction q).Collected (g.addProduction q).automaton := by
  have hfacts : (parse "%% s : s 'a' | ; %%").map (fun g => decide
      (g.startSymbol < g.symbolCount ∧
        (g.addProduction ⟨g.startSymbol, [g.startSymbol, g.startSymbol], none, none⟩).automaton.size
          = 4)) = .ok true := by
    decide +kernel
  obtain ⟨g, hparse, hstart, hsize⟩ := exists_of_map_decide hfacts
  have hbuilt : (g.addProduction ⟨g.startSymbol, [g.startSymbol, g.startSymbol], none, none⟩).Built :=
    .added (.parsed hparse) hstart (by simpa using hstart)
  obtain ⟨hdone, hcollected⟩ := collected_of_built hbuilt
  exact ⟨g, _, hparse, rfl, hbuilt, hsize, hdone, hcollected⟩

end Grammar

end SlrCompiler
