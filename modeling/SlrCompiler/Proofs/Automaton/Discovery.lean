import SlrCompiler.Journal
import SlrCompiler.Proofs.Automaton.Numbering

/-! # The states as they are discovered

    The journal does not watch the loop that collects the states. It goes through the
    edges of the finished automaton, by source and then by symbol, and takes an edge for
    a discovery if it leads to the next number. That this finds what the loop found
    rests on the numbering: in front of the first edge to a state there are only edges
    to lower ones (`Collected.target_lt`), so no number is met too early, and none is
    missed. Every state but the first is reported, once and in the order of the numbers,
    with the first edge to it (`ofAutomaton_of_built`).
-/

namespace SlrCompiler

open Journal

/-! ## Section 1: Edges in order -/

/-- The first edge comes before the second, by source and then by symbol. -/
def Journal.Edge.Before (e f : Edge) : Prop :=
  e.source < f.source ∨ e.source = f.source ∧ e.symbol < f.symbol

/-- The edges of every state are in the order of their symbols. -/
def Automaton.EdgesAscend (a : Automaton) : Prop :=
  ∀ (u : Nat) (s : State), a.states[u]? = some s → s.edges.Ascending

/-- In front of the edge there are only edges to lower states, so it is the first one to
    its own. -/
def Journal.Edge.Finds (e : Edge) (edges : List Edge) : Prop :=
  ∃ before after, edges = before ++ e :: after ∧ ∀ f ∈ before, f.target < e.target

section Edges

variable {a : Automaton} (ha : a.EdgesAscend)
include ha

/-- The journal goes through the edges of the automaton. -/
theorem mem_edges_iff {e : Edge} :
    e ∈ edges a ↔ a.goto e.source e.symbol = some e.target := by
  obtain ⟨u, x, v⟩ := e
  simp only [edges, List.mem_flatMap, List.mem_map, Automaton.goto, Option.bind_eq_some_iff,
    List.mem_zipIdx_iff_getElem?, Array.getElem?_toList]
  constructor
  · intro h
    obtain ⟨⟨s, source⟩, hs, ⟨symbol, target⟩, hentry, heq⟩ := h
    simp only [Edge.mk.injEq] at heq
    obtain ⟨rfl, rfl, rfl⟩ := heq
    exact ⟨s, hs, (ha source s hs).mem_entries_iff.1 hentry⟩
  · intro h
    obtain ⟨s, hs, hfind⟩ := h
    exact ⟨(s, u), hs, (x, v), (ha u s hs).mem_entries_iff.2 hfind, rfl⟩

theorem pairwise_edges : (edges a).Pairwise Edge.Before := by
  rw [edges, List.pairwise_flatMap]
  constructor
  · rintro ⟨s, source⟩ hs
    rw [List.mem_zipIdx_iff_getElem?, Array.getElem?_toList] at hs
    rw [List.pairwise_map]
    exact (ha source s hs).imp fun h => .inr ⟨rfl, h⟩
  · have hsources : (a.states.toList.zipIdx.map Prod.snd).Pairwise (· < ·) := by
      rw [List.zipIdx_map_snd]
      exact List.pairwise_lt_range' 1
    refine (List.pairwise_map.1 hsources).imp fun {x y} hlt => ?_
    intro e he f hf
    obtain ⟨_, -, rfl⟩ := List.mem_map.1 he
    obtain ⟨_, -, rfl⟩ := List.mem_map.1 hf
    exact .inl hlt

/-- What is found in front of all other edges to a state is the first edge to it. -/
theorem firstEdge_of_finds {e : Edge} (he : e.Finds (edges a)) :
    a.FirstEdge e.target e.source e.symbol := by
  obtain ⟨before, after, hsplit, hbefore⟩ := he
  have hmem : e ∈ edges a := by simp [hsplit]
  refine ⟨(mem_edges_iff ha).1 hmem, fun u x hedge => ?_⟩
  have hother : (⟨u, x, e.target⟩ : Edge) ∈ edges a := (mem_edges_iff ha).2 hedge
  rw [hsplit, List.mem_append, List.mem_cons] at hother
  rcases hother with hother | hother | hother
  · exact absurd (hbefore _ hother) (Nat.lt_irrefl _)
  · rw [← hother]
    exact .inr ⟨rfl, Nat.le_refl x⟩
  · have hpairwise := pairwise_edges ha
    rw [hsplit, List.pairwise_append, List.pairwise_cons] at hpairwise
    rcases hpairwise.2.1.1 _ hother with hlt | ⟨heq, hlt⟩
    · exact .inl hlt
    · exact .inr ⟨heq, Nat.le_of_lt hlt⟩

end Edges

/-! ## Section 2: Going through the edges -/

theorem Journal.Edge.Finds.cons {e f : Edge} {rest : List Edge} (h : e.Finds rest)
    (hf : f.target < e.target) : e.Finds (f :: rest) := by
  obtain ⟨before, after, rfl, hbefore⟩ := h
  refine ⟨f :: before, after, rfl, fun d hd => ?_⟩
  rcases List.mem_cons.1 hd with rfl | hd
  · exact hf
  · exact hbefore d hd

/-- Behind an edge that leads elsewhere the others still find what they find. -/
theorem Journal.Edge.Finds.of_cons {e f : Edge} {rest : List Edge} (h : e.Finds (f :: rest))
    (hne : f ≠ e) : e.Finds rest ∧ f.target < e.target := by
  obtain ⟨before, after, heq, hbefore⟩ := h
  rcases List.cons_eq_append_iff.1 heq with ⟨rfl, heq⟩ | ⟨others, rfl, rfl⟩
  · exact absurd (List.cons.inj heq).1 hne
  · exact ⟨⟨others, after, rfl, fun d hd => hbefore d (List.mem_cons_of_mem f hd)⟩,
      hbefore f List.mem_cons_self⟩

/-- **The discoveries** in a list of edges, if each number from the next one on is found
    in it: one for each of the numbers, in their order. -/
theorem discoveries_spec {edges : List Edge} {next count : Nat}
    (hfound : ∀ v, next ≤ v → v < next + count → ∃ e : Edge, e.target = v ∧ e.Finds edges)
    (hlt : ∀ e ∈ edges, e.target < next + count) :
    (discoveries next edges).map Edge.target = List.range' next count ∧
      ∀ e ∈ discoveries next edges, next ≤ e.target ∧ e.Finds edges := by
  induction edges generalizing next count with
  | nil =>
    obtain rfl : count = 0 := by
      by_contra hcount
      obtain ⟨e, -, before, after, heq, -⟩ := hfound next (Nat.le_refl next) (by omega)
      simp at heq
    simp [discoveries]
  | cons f rest ih =>
    have hf := hlt f List.mem_cons_self
    by_cases hnext : f.target = next
    · -- The first edge is the discovery of the next number; the others are found behind it.
      obtain ⟨count, rfl⟩ : ∃ n, count = n + 1 := ⟨count - 1, by omega⟩
      have hsum : next + (count + 1) = next + 1 + count := by omega
      rw [hsum] at hfound hlt
      have hbehind : ∀ v, next + 1 ≤ v → v < next + 1 + count →
          ∃ e : Edge, e.target = v ∧ e.Finds rest := by
        intro v hle hv
        obtain ⟨e, htarget, he⟩ := hfound v (by omega) hv
        exact ⟨e, htarget, (he.of_cons (by rintro rfl; omega)).1⟩
      obtain ⟨hmap, hall⟩ := ih hbehind fun e he => hlt e (List.mem_cons_of_mem f he)
      rw [discoveries, if_pos hnext, List.map_cons, hmap, hnext, List.range'_succ]
      refine ⟨rfl, fun e he => ?_⟩
      rcases List.mem_cons.1 he with rfl | he
      · exact ⟨Nat.le_of_eq hnext.symm, [], rest, rfl, by simp⟩
      · obtain ⟨hle, hfinds⟩ := hall e he
        exact ⟨by omega, hfinds.cons (by omega)⟩
    · -- The next number is found behind the first edge, which leads to a lower one.
      have hlower : f.target < next := by
        by_contra hle
        obtain ⟨e, htarget, he⟩ := hfound next (Nat.le_refl next) (by omega)
        have := (he.of_cons (by rintro rfl; exact hnext htarget)).2
        omega
      have hbehind : ∀ v, next ≤ v → v < next + count →
          ∃ e : Edge, e.target = v ∧ e.Finds rest := by
        intro v hle hv
        obtain ⟨e, htarget, he⟩ := hfound v hle hv
        exact ⟨e, htarget, (he.of_cons (by rintro rfl; omega)).1⟩
      obtain ⟨hmap, hall⟩ := ih hbehind fun e he => hlt e (List.mem_cons_of_mem f he)
      rw [discoveries, if_neg hnext]
      refine ⟨hmap, fun e he => ?_⟩
      obtain ⟨hle, hfinds⟩ := hall e he
      exact ⟨hle, hfinds.cons (by omega)⟩

/-! ## Section 3: The automaton -/

namespace Grammar

variable {g : Grammar}

theorem ascending_edgesOn (items : ItemSet) {sets : Array ItemSet} {edges : IndexMap Nat}
    {symbols : List Nat} (h : edges.Ascending) :
    (g.edgesOn items sets edges symbols).2.Ascending := by
  induction symbols generalizing sets edges with
  | nil => exact h
  | cons x rest ih =>
    unfold edgesOn
    split
    · exact ih h
    · exact ih (h.set x _)

/-- The edges of a state are put in one by one, so they are in order. -/
theorem edgesAscend_automaton (g : Grammar) : g.automaton.EdgesAscend := by
  have hcollection : ∀ edges ∈ g.collection.edges, edges.Ascending := by
    refine collect_induction (motive := fun c => ∀ edges ∈ c.edges, edges.Ascending) ?_ ?_
    · simp [firstCollection]
    · intro c next hc hnext
      unfold workOff at hnext
      split at hnext
      · simp at hnext
      obtain rfl := Option.some.inj hnext
      intro edges hedges
      rcases Array.mem_push.1 hedges with hedges | rfl
      · exact hc edges hedges
      · exact ascending_edgesOn _ IndexMap.ascending_empty
  intro u s hs
  exact hcollection s.edges (Array.mem_of_getElem? (getElem?_states.1 hs).2)

section Collected

variable {a : Automaton} (h : g.Collected a) (ha : a.EdgesAscend)
include h

/-- An edge leads to a state. -/
theorem Collected.target_lt_size {u x v : Nat} (hedge : a.goto u x = some v) : v < a.size := by
  obtain ⟨su, hsu, hfind⟩ := Option.bind_eq_some_iff.1 hedge
  obtain ⟨sv, hsv, -⟩ := (h.edge_iff hsu).1 hfind
  exact (Array.getElem?_eq_some_iff.1 hsv).1

/-- In front of the first edge to a state there are only edges to lower ones. -/
theorem Collected.target_lt {u x v u' x' w : Nat} (hpos : 0 < v) (hfirst : a.FirstEdge v u x)
    (hbefore : u' < u ∨ u' = u ∧ x' < x) (hedge : a.goto u' x' = some w) : w < v := by
  by_contra hle
  have hne : w ≠ v := by
    rintro rfl
    have := hfirst.least u' x' hedge
    omega
  -- The first edge to a higher state would come after that to `v`.
  obtain ⟨r, y, hw, -⟩ := h.found w (by omega) (h.target_lt_size hedge)
  have hleast := hw.least u' x' hedge
  have horder := h.inOrder hpos (by omega) hfirst hw
  omega

include ha

theorem Collected.finds_edges {u x v : Nat} (hpos : 0 < v) (hfirst : a.FirstEdge v u x) :
    Edge.Finds ⟨u, x, v⟩ (edges a) := by
  have hmem : (⟨u, x, v⟩ : Edge) ∈ edges a := (mem_edges_iff ha).2 hfirst.leads
  obtain ⟨before, after, hsplit⟩ := List.append_of_mem hmem
  refine ⟨before, after, hsplit, fun e he => ?_⟩
  have hedge : e ∈ edges a := by
    rw [hsplit]
    exact List.mem_append_left _ he
  have hbefore : e.Before ⟨u, x, v⟩ := by
    have hpairwise := pairwise_edges ha
    rw [hsplit, List.pairwise_append] at hpairwise
    exact hpairwise.2.2 e he _ List.mem_cons_self
  exact h.target_lt hpos hfirst hbefore ((mem_edges_iff ha).1 hedge)

end Collected

/-- **The journal of an automaton** reports every state but the first, once and in the
    order of the numbers, with the first edge to it. -/
theorem ofAutomaton_of_built (hg : g.Built) :
    ∃ found : List Edge, ofAutomaton g g.automaton
        = found.map (discovered g g.automaton)
          ++ [⟨.debug, s!"automaton: {g.automaton.size} states"⟩] ∧
      found.map Edge.target = List.range' 1 (g.automaton.size - 1) ∧
      ∀ e ∈ found, g.automaton.FirstEdge e.target e.source e.symbol := by
  have hcollected := (collected_of_built hg).2
  have hascend := edgesAscend_automaton g
  obtain ⟨first, hfirst, -⟩ := hcollected.first
  have hsize : 0 < g.automaton.size := (Array.getElem?_eq_some_iff.1 hfirst).1
  have hsum : 1 + (g.automaton.size - 1) = g.automaton.size := by omega
  have hfound : ∀ v, 1 ≤ v → v < 1 + (g.automaton.size - 1) →
      ∃ e : Edge, e.target = v ∧ e.Finds (edges g.automaton) := by
    intro v hpos hv
    obtain ⟨u, x, hedge, -⟩ := hcollected.found v hpos (hsum ▸ hv)
    exact ⟨⟨u, x, v⟩, rfl, hcollected.finds_edges hascend hpos hedge⟩
  have hlt : ∀ e ∈ edges g.automaton, e.target < 1 + (g.automaton.size - 1) := by
    intro e he
    rw [hsum]
    exact hcollected.target_lt_size ((mem_edges_iff hascend).1 he)
  obtain ⟨hmap, hall⟩ := discoveries_spec hfound hlt
  refine ⟨discoveries 1 (edges g.automaton), rfl, hmap, fun e he => ?_⟩
  exact firstEdge_of_finds hascend (hall e he).2

end Grammar

end SlrCompiler
