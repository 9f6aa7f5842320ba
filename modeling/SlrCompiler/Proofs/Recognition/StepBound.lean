import Mathlib.Combinatorics.Pigeonhole
import Mathlib.Data.Fintype.Pi
import Mathlib.Data.Finset.Option
import Mathlib.Tactic.Ring
import SlrCompiler.Proofs.Recognition.Step

/-! # The bound on the steps of a run

    A run is cut off after `stepBound` steps. No run that would end is cut off,
    on any table (`recognize_eq_of_run`).

    Between two shifts a run only reduces, with the same next terminal. What it
    stacks in the meantime depends on nothing below: if one of the states
    stacked leads to itself, the run goes on forever (`ne_none_of_pump`). In a
    run that ends they are therefore all different, and there are only so many
    ways to stack different states on what is left of the old stack. No stack
    comes up twice either, so the reductions between two shifts are bounded
    (`reducedBy_eq_none`), and the shifts are bounded by the input.
-/

namespace SlrCompiler

namespace ParseTable

variable (t : ParseTable) (x : Nat)

/-! ## Section 1: Reductions of a stack -/

/-- What the reduction of the top state at the terminal makes of a stack; nothing
    if there is no such reduction or it cannot be carried out. -/
def reduced : List Nat → Option (List Nat)
  | [] => none
  | top :: below =>
    match t.actionAt top x with
    | .reduce rule =>
      t.rules[rule]?.bind fun r =>
        match (top :: below).drop r.arity with
        | [] => none
        | s :: rest => (t.gotoCell? s r.left).join.map (· :: s :: rest)
    | _ => none

/-- Exactly `k` reductions, one after the other. -/
def reducedBy : Nat → List Nat → Option (List Nat)
  | 0, stack => some stack
  | k + 1, stack => (t.reduced x stack).bind (reducedBy k)

variable {t x}

theorem reducedBy_add (m n : Nat) (stack : List Nat) :
    t.reducedBy x (m + n) stack = (t.reducedBy x m stack).bind (t.reducedBy x n) := by
  induction m generalizing stack with
  | zero => simp [reducedBy]
  | succ m ih =>
    rw [Nat.add_right_comm]
    simp only [reducedBy]
    cases t.reduced x stack with
    | none => rfl
    | some next => exact ih next

theorem reducedBy_succ (k : Nat) (stack : List Nat) :
    t.reducedBy x (k + 1) stack = (t.reducedBy x k stack).bind (t.reduced x) := by
  rw [reducedBy_add]
  refine congrArg _ (funext fun s => ?_)
  cases h : t.reduced x s <;> simp [reducedBy, h]

theorem reducedBy_of_le {m n : Nat} {stack : List Nat} (h : m ≤ n)
    (hnone : t.reducedBy x m stack = none) : t.reducedBy x n stack = none := by
  obtain ⟨k, rfl⟩ := Nat.exists_eq_add_of_le h
  rw [reducedBy_add, hnone, Option.bind_none]

/-- The top of a stack is the same, whatever is put below the state that is
    uncovered. -/
theorem exists_eq_cons_of_split {top s : Nat} {below off rest : List Nat}
    (h : top :: below = off ++ s :: rest) (other : List Nat) :
    ∃ tail, off ++ s :: other = top :: tail := by
  cases off with
  | nil =>
    obtain ⟨rfl, -⟩ := List.cons.inj h
    exact ⟨other, rfl⟩
  | cons y off =>
    obtain ⟨rfl, -⟩ := List.cons.inj h
    exact ⟨off ++ s :: other, rfl⟩

/-- A reduction takes some states off and puts one on, whatever stands below the
    state that it uncovers. -/
theorem exists_of_reduced {stack next : List Nat} (h : t.reduced x stack = some next) :
    ∃ off s rest target, stack = off ++ s :: rest ∧ next = target :: s :: rest ∧
      ∀ other, t.reduced x (off ++ s :: other) = some (target :: s :: other) := by
  cases stack with
  | nil => simp [reduced] at h
  | cons top below =>
    simp only [reduced] at h
    split at h
    · rename_i rule haction
      obtain ⟨r, hr, h⟩ := Option.bind_eq_some_iff.1 h
      split at h
      · simp at h
      rename_i s rest hdrop
      obtain ⟨target, htarget, rfl⟩ := Option.map_eq_some_iff.1 h
      have hsplit : top :: below = (top :: below).take r.arity ++ s :: rest := by
        rw [← hdrop, List.take_append_drop]
      -- Where a state is left below, as many states are taken off as the rule has symbols.
      have hlength : ((top :: below).take r.arity).length = r.arity := by
        have := congrArg List.length hdrop
        simp only [List.length_drop, List.length_cons] at this
        rw [List.length_take, List.length_cons]
        omega
      refine ⟨(top :: below).take r.arity, s, rest, target, hsplit, rfl, fun other => ?_⟩
      obtain ⟨tail, htail⟩ := exists_eq_cons_of_split hsplit other
      have hother : (top :: tail).drop r.arity = s :: other := by
        rw [← htail]
        exact List.drop_left' hlength
      rw [htail]
      simp only [reduced, haction, hr, Option.bind_some, hother, htarget, Option.map_some]
    · simp at h

/-- Reductions go on unchanged on top of other states. -/
theorem reducedBy_append {k : Nat} {stack next : List Nat}
    (h : t.reducedBy x k stack = some next) (below : List Nat) :
    t.reducedBy x k (stack ++ below) = some (next ++ below) := by
  induction k generalizing stack with
  | zero =>
    obtain rfl := Option.some.inj h
    rfl
  | succ k ih =>
    obtain ⟨first, hfirst, hrest⟩ := Option.bind_eq_some_iff.1 h
    obtain ⟨off, s, rest, target, rfl, rfl, hany⟩ := exists_of_reduced hfirst
    have hstep := hany (rest ++ below)
    rw [List.append_assoc, List.cons_append, reducedBy, hstep, Option.bind_some]
    exact ih hrest

/-- Only existing states reduce. -/
theorem lt_of_reduced {top : Nat} {below next : List Nat}
    (h : t.reduced x (top :: below) = some next) : top < t.stateCount := by
  by_contra hge
  have hrow : t.actions[top]? = none := Array.getElem?_eq_none (by simpa [stateCount] using hge)
  simp [reduced, actionAt, hrow] at h

/-! ## Section 2: Reductions without end -/

theorem ne_none_of_reducedBy {k : Nat} {stack next : List Nat}
    (h : t.reducedBy x k stack = some next) (hnext : ∀ m, t.reducedBy x m next ≠ none) (m : Nat) :
    t.reducedBy x m stack ≠ none := by
  intro hnone
  have hlater := reducedBy_of_le (Nat.le_add_left m k) hnone
  rw [reducedBy_add, h, Option.bind_some] at hlater
  exact hnext m hlater

/-- A stack that leads to itself on top of others reduces forever. -/
theorem ne_none_of_pump {k : Nat} {stack above : List Nat} (hk : 0 < k)
    (h : t.reducedBy x k stack = some (stack ++ above)) (below : List Nat) (m : Nat) :
    t.reducedBy x m (stack ++ below) ≠ none := by
  -- The stack comes back to the top every `k` reductions.
  have hround : ∀ n below, ∃ rest, t.reducedBy x (n * k) (stack ++ below) = some (stack ++ rest) := by
    intro n
    induction n with
    | zero => exact fun below => ⟨below, by simp [reducedBy]⟩
    | succ n ih =>
      intro below
      obtain ⟨rest, hrest⟩ := ih (above ++ below)
      have hfirst := reducedBy_append h below
      refine ⟨rest, ?_⟩
      rw [Nat.succ_mul, Nat.add_comm, reducedBy_add, hfirst, Option.bind_some, List.append_assoc,
        hrest]
  intro hnone
  obtain ⟨rest, hrest⟩ := hround m below
  have := reducedBy_of_le (Nat.le_mul_of_pos_right m hk) hnone
  simp [hrest] at this

/-- A stack that comes up again comes up over and over. -/
theorem ne_none_of_cycle {k : Nat} {stack : List Nat} (hk : 0 < k)
    (h : t.reducedBy x k stack = some stack) (m : Nat) : t.reducedBy x m stack ≠ none := by
  have hpump : t.reducedBy x k stack = some (stack ++ []) := by rw [h, List.append_nil]
  simpa using ne_none_of_pump hk hpump [] m

/-! ## Section 3: What has been stacked since a shift -/

variable (t x) in
/-- Each of the states leads by reductions to all that stands above it. -/
def Raised (states : List Nat) : Prop :=
  ∀ above r below, states = above ++ r :: below →
    ∃ k, t.reducedBy x k [r] = some (above ++ [r])

theorem raised_singleton (r : Nat) : t.Raised x [r] := by
  intro above s below h
  cases above with
  | nil =>
    obtain ⟨rfl, -⟩ := List.cons.inj h
    exact ⟨0, rfl⟩
  | cons y above => simp at h

/-- A reduction that stays within the states keeps them raised. -/
theorem Raised.step {off rest : List Nat} {s target : Nat} (h : t.Raised x (off ++ s :: rest))
    (hany : ∀ other, t.reduced x (off ++ s :: other) = some (target :: s :: other)) :
    t.Raised x (target :: s :: rest) := by
  intro above r below heq
  cases above with
  | nil =>
    obtain ⟨rfl, -⟩ := List.cons.inj heq
    exact ⟨0, rfl⟩
  | cons y above =>
    obtain ⟨rfl, hrest⟩ : target = y ∧ s :: rest = above ++ r :: below := List.cons.inj heq
    obtain ⟨k, hk⟩ := h (off ++ above) r below (by rw [hrest, List.append_assoc])
    refine ⟨k + 1, ?_⟩
    rw [reducedBy_succ, hk, Option.bind_some]
    -- The state that is uncovered is the same one, or it is `r` itself.
    cases above with
    | nil =>
      obtain ⟨rfl, -⟩ := List.cons.inj hrest
      simpa using hany []
    | cons z above =>
      obtain ⟨rfl, -⟩ := List.cons.inj hrest
      simpa using hany (above ++ [r])

variable (t x) in
/-- The stack has grown out of the old one by reductions: different states stand
    on what is left of it. -/
structure Grown (old stack : List Nat) : Prop where
  exists_split : ∃ states left, stack = states ++ left ∧ left <:+ old ∧ t.Raised x states ∧
    states.Nodup ∧ ∀ s ∈ states.tail, s < t.stateCount

theorem Grown.refl (old : List Nat) : t.Grown x old old :=
  ⟨[], old, rfl, List.suffix_rfl, by simp [Raised], List.nodup_nil, by simp⟩

/-- A reduction in a run that ends does not stack a state twice. -/
theorem Grown.step {old stack next : List Nat} (h : t.Grown x old stack)
    (hnext : t.reduced x stack = some next) (hends : ∃ m, t.reducedBy x m next = none) :
    t.Grown x old next := by
  obtain ⟨states, left, rfl, hleft, hraised, hnodup, hlt⟩ := h
  obtain ⟨off, s, rest, target, hsplit, rfl, hany⟩ := exists_of_reduced hnext
  rcases List.append_eq_append_iff.1 hsplit with ⟨gone, rfl, rfl⟩ | ⟨kept, rfl, hkept⟩
  · -- All that was stacked is taken off again.
    refine ⟨[target], s :: rest, rfl, ?_, raised_singleton target, List.nodup_singleton _, by simp⟩
    exact List.IsSuffix.trans ⟨gone, rfl⟩ hleft
  cases kept with
  | nil =>
    obtain rfl : s :: rest = left := by simpa using hkept
    exact ⟨[target], s :: rest, rfl, hleft, raised_singleton target, List.nodup_singleton _,
      by simp⟩
  | cons u kept =>
    obtain ⟨rfl, rfl⟩ := List.cons.inj hkept
    have hgrown := hraised.step hany
    refine ⟨target :: s :: kept, left, rfl, hleft, hgrown, ?_, ?_⟩
    · refine List.nodup_cons.2 ⟨fun hmem => ?_, hnodup.sublist (List.sublist_append_right _ _)⟩
      -- A state that is stacked again leads to itself, and the run would not end.
      obtain ⟨above, below, habove⟩ := List.append_of_mem hmem
      obtain ⟨k, hk⟩ := hgrown (target :: above) target below (by rw [habove, List.cons_append])
      have hpositive : 0 < k := by
        apply Nat.pos_of_ne_zero
        intro hzero
        subst hzero
        simp [reducedBy] at hk
      obtain ⟨m, hm⟩ := hends
      exact ne_none_of_pump hpositive hk _ m hm
    · intro r hr
      -- The old top reduces, so it exists as the states below it do.
      cases off with
      | nil =>
        rcases List.mem_cons.1 hr with rfl | hr
        · exact lt_of_reduced hnext
        · exact hlt r hr
      | cons y off => exact hlt r (by simpa using Or.inr hr)

/-- All stacks between two shifts of a run that ends have grown out of the first. -/
theorem grown_of_reducedBy {old stack : List Nat} (hends : ∃ m, t.reducedBy x m old = none)
    {k : Nat} (h : t.reducedBy x k old = some stack) : t.Grown x old stack := by
  induction k generalizing stack with
  | zero =>
    obtain rfl := Option.some.inj h
    exact .refl old
  | succ k ih =>
    rw [reducedBy_succ] at h
    obtain ⟨before, hbefore, hstep⟩ := Option.bind_eq_some_iff.1 h
    apply (ih hbefore).step hstep
    by_contra hforever
    push Not at hforever
    obtain ⟨m, hm⟩ := hends
    have hlast : t.reducedBy x (k + 1) old = some stack := by
      rw [reducedBy_succ, hbefore, Option.bind_some, hstep]
    exact ne_none_of_reducedBy hlast hforever m hm

/-! ## Section 4: Counting stacks -/

theorem length_le_of_nodup_of_lt {n : Nat} {states : List Nat} (hnodup : states.Nodup)
    (hlt : ∀ s ∈ states, s < n) : states.length ≤ n := by
  have hsub : states ⊆ List.range n := fun s hs => List.mem_range.2 (hlt s hs)
  simpa using (hnodup.subperm hsub).length_le

/-- A stack is given by the length of what is left of the old one and by the
    states on top of it, place by place. -/
theorem eq_of_places {n : Nat} {old left left' states states' : List Nat}
    (hleft : left <:+ old) (hleft' : left' <:+ old) (hlength : left.length = left'.length)
    (hstates : states.length ≤ n) (hstates' : states'.length ≤ n)
    (hplaces : ∀ i < n, states[i]? = states'[i]?) : states ++ left = states' ++ left' := by
  have hsame : left = left' :=
    (List.suffix_of_suffix_length_le hleft hleft' (Nat.le_of_eq hlength)).eq_of_length hlength
  have hboth : states = states' := by
    refine List.ext_getElem? fun i => ?_
    by_cases hi : i < n
    · exact hplaces i hi
    · rw [List.getElem?_eq_none (by omega), List.getElem?_eq_none (by omega)]
  rw [hsame, hboth]

/-- A stack that reduces has grown by no more states than the table has. -/
theorem Grown.exists_short_split {old stack : List Nat} (h : t.Grown x old stack)
    (hreduces : t.reduced x stack ≠ none) :
    ∃ states left, stack = states ++ left ∧ left <:+ old ∧ states.length ≤ t.stateCount ∧
      ∀ s ∈ states, s < t.stateCount := by
  obtain ⟨states, left, heq, hleft, -, hnodup, hlt⟩ := h
  have hall : ∀ s ∈ states, s < t.stateCount := by
    cases states with
    | nil => simp
    | cons top others =>
      intro s hs
      rcases List.mem_cons.1 hs with rfl | hs
      · obtain ⟨next, hnext⟩ := Option.ne_none_iff_exists'.1 hreduces
        rw [heq, List.cons_append] at hnext
        exact lt_of_reduced hnext
      · exact hlt s hs
  exact ⟨states, left, heq, hleft, length_le_of_nodup_of_lt hnodup hall, hall⟩

/-- More stacks that reduce and have grown out of the same old one cannot be
    different: two of them are equal. -/
theorem exists_lt_of_grown {old : List Nat} {count : Nat}
    (hcount : (old.length + 1) * (t.stateCount + 1) ^ t.stateCount < count)
    (stack : Fin count → List Nat) (hgrown : ∀ i, t.Grown x old (stack i))
    (hreduces : ∀ i, t.reduced x (stack i) ≠ none) :
    ∃ i j : Fin count, i < j ∧ stack i = stack j := by
  have hsplit := fun i => (hgrown i).exists_short_split (hreduces i)
  choose states left heq hleft hlength hlt using hsplit
  -- A stack is coded by how much is left and by the states on top, place by place.
  let codes : Finset (Nat × (Fin t.stateCount → Option Nat)) :=
    Finset.range (old.length + 1) ×ˢ
      Fintype.piFinset fun _ => Finset.insertNone (Finset.range t.stateCount)
  have hcard : codes.card < (Finset.univ : Finset (Fin count)).card := by
    simpa [codes, Fintype.card_piFinset] using hcount
  have hmem : ∀ i ∈ (Finset.univ : Finset (Fin count)),
      ((left i).length, fun place : Fin t.stateCount => (states i)[place.val]?) ∈ codes := by
    intro i _
    refine Finset.mem_product.2 ⟨?_, Fintype.mem_piFinset.2 fun place => ?_⟩
    · have := (hleft i).length_le
      exact Finset.mem_range.2 (by omega)
    · apply Finset.mem_insertNone.2
      intro s hs
      exact Finset.mem_range.2 (hlt i s (List.mem_of_getElem? hs))
  obtain ⟨i, -, j, -, hne, hcode⟩ := Finset.exists_ne_map_eq_of_card_lt_of_maps_to hcard hmem
  obtain ⟨hsize, hplaces⟩ := Prod.mk.inj hcode
  have hsame : stack i = stack j := by
    rw [heq i, heq j]
    exact eq_of_places (hleft i) (hleft j) hsize (hlength i) (hlength j)
      fun place hplace => congrFun hplaces ⟨place, hplace⟩
  rcases lt_or_gt_of_ne hne with hlt | hlt
  · exact ⟨i, j, hlt, hsame⟩
  · exact ⟨j, i, hlt, hsame.symm⟩

/-- **Between two shifts** a run that ends makes no more reductions than there
    are stacks for it. -/
theorem reducedBy_eq_none {old : List Nat} (hends : ∃ m, t.reducedBy x m old = none) :
    t.reducedBy x ((old.length + 1) * (t.stateCount + 1) ^ t.stateCount + 1) old = none := by
  by_contra hsome
  have hstacks : ∀ i : Fin ((old.length + 1) * (t.stateCount + 1) ^ t.stateCount + 1),
      ∃ stack, t.reducedBy x i old = some stack ∧ t.reduced x stack ≠ none := by
    intro i
    have hlater : t.reducedBy x (i + 1) old ≠ none := fun hnone =>
      hsome (reducedBy_of_le i.isLt hnone)
    rw [reducedBy_succ] at hlater
    cases hstack : t.reducedBy x i old with
    | none => simp [hstack] at hlater
    | some stack => exact ⟨stack, rfl, by simpa [hstack] using hlater⟩
  choose stack hstack hreduces using hstacks
  obtain ⟨i, j, hlt, hsame⟩ := exists_lt_of_grown (Nat.lt_succ_self _) stack
    (fun i => grown_of_reducedBy hends (hstack i)) hreduces
  -- The same stack twice is a cycle.
  have hcycle : t.reducedBy x (j - i) (stack i) = some (stack i) := by
    have hj := hstack j
    rw [show (j : Nat) = i + (j - i) by have : (i : Nat) < j := hlt; omega, reducedBy_add,
      hstack i, Option.bind_some, ← hsame] at hj
    exact hj
  have hpositive : 0 < (j : Nat) - i := by
    have : (i : Nat) < j := hlt
    omega
  obtain ⟨m, hm⟩ := hends
  exact ne_none_of_reducedBy (hstack i) (ne_none_of_cycle hpositive hcycle) m hm

/-! ## Section 5: Runs -/

variable {input : Array Nat}

/-- A step shifts the next terminal or reduces the stack. -/
theorem shift_or_reduced {c d : Configuration} (h : c.step t input = .next d) :
    ∃ x, input[c.position]? = some x ∧
      ((d.below = c.top :: c.below ∧ d.position = c.position + 1) ∨
        (t.reduced x (c.top :: c.below) = some (d.top :: d.below) ∧ d.position = c.position)) := by
  unfold Configuration.step Configuration.action at h
  cases hx : input[c.position]? with
  | none => simp [hx] at h
  | some x =>
    refine ⟨x, rfl, ?_⟩
    simp only [hx, Option.map_some] at h
    cases haction : t.actionAt c.top x with
    | shift target =>
      simp only [haction, Outcome.next.injEq] at h
      subst h
      exact .inl ⟨rfl, rfl⟩
    | reduce rule =>
      right
      simp only [haction] at h
      simp only [reduced, haction]
      cases hrule : t.rules[rule]? with
      | none => simp [hrule] at h
      | some r =>
        simp only [hrule, Configuration.reduce, Configuration.refuseGoto] at h
        simp only [Option.bind_some]
        grind
    | accept => simp [haction] at h
    | error => simp [haction] at h

theorem step_of_reduced {c : Configuration} {x top : Nat} {below : List Nat}
    (hx : input[c.position]? = some x)
    (h : t.reduced x (c.top :: c.below) = some (top :: below)) :
    c.step t input = .next ⟨top, below, c.position⟩ := by
  unfold reduced at h
  cases haction : t.actionAt c.top x with
  | reduce rule =>
    simp only [haction] at h
    obtain ⟨r, hr, h⟩ := Option.bind_eq_some_iff.1 h
    cases hdrop : (c.top :: c.below).drop r.arity with
    | nil => simp [hdrop] at h
    | cons s rest =>
      simp only [hdrop] at h
      obtain ⟨target, htarget, heq⟩ := Option.map_eq_some_iff.1 h
      obtain ⟨rfl, rfl⟩ := List.cons.inj heq
      rw [Option.join_eq_some_iff] at htarget
      exact Configuration.step_of_reduce hx haction hr hdrop htarget
  | shift target => simp [haction] at h
  | accept => simp [haction] at h
  | error => simp [haction] at h

theorem exists_cons_of_reducedBy {k top : Nat} {below stack : List Nat}
    (h : t.reducedBy x k (top :: below) = some stack) : ∃ s rest, stack = s :: rest := by
  cases k with
  | zero =>
    obtain rfl := Option.some.inj h
    exact ⟨top, below, rfl⟩
  | succ k =>
    rw [reducedBy_succ] at h
    obtain ⟨before, -, hlast⟩ := Option.bind_eq_some_iff.1 h
    obtain ⟨off, s, rest, target, -, rfl, -⟩ := exists_of_reduced hlast
    exact ⟨target, s :: rest, rfl⟩

/-- A run makes the reductions of its stack first. -/
theorem run_of_reducedBy {c : Configuration} {x k top : Nat} {below : List Nat}
    (hx : input[c.position]? = some x)
    (h : t.reducedBy x k (c.top :: c.below) = some (top :: below)) (m : Nat) :
    t.run input (k + m) c = t.run input m ⟨top, below, c.position⟩ := by
  induction k generalizing c with
  | zero =>
    obtain ⟨rfl, rfl⟩ := List.cons.inj (Option.some.inj h)
    rw [Nat.zero_add]
  | succ k ih =>
    obtain ⟨first, hfirst, hrest⟩ := Option.bind_eq_some_iff.1 h
    obtain ⟨-, s, rest, target, -, rfl, -⟩ := exists_of_reduced hfirst
    rw [Nat.add_right_comm]
    rw [run_succ_of_next (step_of_reduced hx hfirst)]
    exact ih (c := ⟨target, s :: rest, c.position⟩) hx hrest

/-- A stack that reduces forever keeps a run from ending. -/
theorem run_eq_endless {c : Configuration} {x : Nat} (hx : input[c.position]? = some x)
    (hforever : ∀ m, t.reducedBy x m (c.top :: c.below) ≠ none) (m : Nat) :
    t.run input m c = .endless := by
  obtain ⟨stack, hstack⟩ := Option.ne_none_iff_exists'.1 (hforever m)
  obtain ⟨top, below, rfl⟩ := exists_cons_of_reducedBy hstack
  exact run_of_reducedBy hx hstack 0

theorem exists_last_reduction {count : Nat} {stack : List Nat}
    (h : t.reducedBy x count stack = none) :
    ∃ k last, k < count ∧ t.reducedBy x k stack = some last ∧ t.reduced x last = none := by
  induction count with
  | zero => simp [reducedBy] at h
  | succ count ih =>
    cases hbefore : t.reducedBy x count stack with
    | none =>
      obtain ⟨k, last, hk, hlast⟩ := ih hbefore
      exact ⟨k, last, by omega, hlast⟩
    | some last =>
      rw [reducedBy_succ, hbefore, Option.bind_some] at h
      exact ⟨count, last, by omega, hbefore, h⟩

/-- The reductions up to the next shift: what the stack has become, how many
    there are, and how high it is. -/
theorem exists_reducedBy {c : Configuration} {x : Nat} (hx : input[c.position]? = some x)
    (hends : ∃ m, t.run input m c ≠ .endless) :
    ∃ k top below,
      k ≤ (c.below.length + 2) * (t.stateCount + 1) ^ t.stateCount ∧
      t.reducedBy x k (c.top :: c.below) = some (top :: below) ∧
      t.reduced x (top :: below) = none ∧ below.length ≤ c.below.length + t.stateCount + 1 := by
  have hstops : ∃ m, t.reducedBy x m (c.top :: c.below) = none := by
    by_contra hforever
    push Not at hforever
    obtain ⟨m, hm⟩ := hends
    exact hm (run_eq_endless hx hforever m)
  obtain ⟨k, stack, hk, hstack, hlast⟩ := exists_last_reduction (reducedBy_eq_none hstops)
  obtain ⟨states, left, hsplit, hleft, -, hnodup, hlt⟩ := grown_of_reducedBy hstops hstack
  obtain ⟨top, below, rfl⟩ := exists_cons_of_reducedBy hstack
  refine ⟨k, top, below, Nat.le_of_lt_succ hk, hstack, hlast, ?_⟩
  have htail := length_le_of_nodup_of_lt (hnodup.sublist (List.tail_sublist states)) hlt
  have hlength := congrArg List.length hsplit
  have hbase := hleft.length_le
  simp only [List.length_cons, List.length_append, List.length_tail] at hlength htail hbase
  omega

/-- Steps enough for the rest of an input of the given size, on a stack with the
    given number of states below its top. -/
def stepsFrom (t : ParseTable) (below rest : Nat) : Nat :=
  rest * ((below + 2 + rest * (t.stateCount + 2)) * (t.stateCount + 1) ^ t.stateCount + 1) + 1

/-- The steps up to a shift and those after it. -/
theorem stepsFrom_succ (below rest : Nat) :
    (below + 2) * (t.stateCount + 1) ^ t.stateCount + 1
        + t.stepsFrom (below + t.stateCount + 2) rest
      ≤ t.stepsFrom below (rest + 1) := by
  unfold stepsFrom
  generalize (t.stateCount + 1) ^ t.stateCount = ways
  have hheight : below + t.stateCount + 2 + 2 + rest * (t.stateCount + 2)
      = below + 2 + (rest + 1) * (t.stateCount + 2) := by ring
  have hmore : (below + 2) * ways ≤ (below + 2 + (rest + 1) * (t.stateCount + 2)) * ways :=
    Nat.mul_le_mul_right ways (Nat.le_add_right _ _)
  rw [hheight, Nat.succ_mul rest (_ * ways + 1)]
  omega

theorem stepsFrom_mono {below below' : Nat} (h : below ≤ below') (rest : Nat) :
    t.stepsFrom below rest ≤ t.stepsFrom below' rest := by
  unfold stepsFrom
  gcongr

/-- A run that ends does so within the steps for what is left of its input. -/
theorem run_stepsFrom_ne_endless {rest : Nat} {c : Configuration}
    (hrest : c.position + rest = input.size) (hends : ∃ m, t.run input m c ≠ .endless) :
    t.run input (t.stepsFrom c.below.length rest) c ≠ .endless := by
  -- The induction is on what is left of the input. Between two shifts there are only so many
  -- reductions, and the stack grows only so high by them.
  induction rest generalizing c with
  | zero =>
    have hnone : input[c.position]? = none := Array.getElem?_eq_none (by omega)
    simp [stepsFrom, run, Configuration.step, Configuration.action, hnone]
  | succ rest ih =>
    have hx : input[c.position]? = some input[c.position] :=
      Array.getElem?_eq_getElem (by omega)
    -- First all reductions before the next terminal are carried out.
    obtain ⟨k, top, below, hk, hstack, hlast, hheight⟩ := exists_reducedBy hx hends
    have hbound := t.stepsFrom_succ c.below.length rest
    have hrun := fun m => run_of_reducedBy hx hstack m
    suffices hsteps : ∃ m, k + m ≤ t.stepsFrom c.below.length (rest + 1) ∧
        t.run input m ⟨top, below, c.position⟩ ≠ .endless by
      obtain ⟨m, hm, hne⟩ := hsteps
      rw [← hrun m] at hne
      rwa [t.run_of_le hm hne]
    cases hstep : (Configuration.mk top below c.position).step t input with
    | next d =>
      obtain ⟨y, hy, ⟨hbelow, hposition⟩ | ⟨hreduced, -⟩⟩ := shift_or_reduced hstep
      · -- The next step is a shift, and the rest of the input is shorter.
        have hafter := run_succ_of_next hstep
        have hdends : ∃ m, t.run input m d ≠ .endless := by
          obtain ⟨m, hm⟩ := hends
          refine ⟨m, ?_⟩
          rw [← hafter, ← hrun, t.run_of_le (by omega) hm]
          exact hm
        simp only at hposition
        have hih := ih (by omega) hdends
        have hless : t.stepsFrom d.below.length rest
            ≤ t.stepsFrom (c.below.length + t.stateCount + 2) rest := by
          refine stepsFrom_mono ?_ rest
          rw [hbelow]
          show below.length + 1 ≤ c.below.length + t.stateCount + 2
          omega
        exact ⟨t.stepsFrom d.below.length rest + 1, by omega, by rwa [hafter]⟩
      · obtain rfl := Option.some.inj (hx.symm.trans hy)
        simp [hlast] at hreduced
    | accepted => exact ⟨1, by omega, by simp [run, hstep]⟩
    | rejected e => exact ⟨1, by omega, by simp [run, hstep]⟩
    | broken b => exact ⟨1, by omega, by simp [run, hstep]⟩

theorem stepsFrom_le_stepBound (size : Nat) : t.stepsFrom 0 size ≤ t.stepBound size := by
  unfold stepsFrom stepBound
  rw [Nat.pow_eq, pow_add]
  generalize hbase : t.stateCount + 2 = base
  -- The powers of the base take up what the smaller terms add.
  have hways : (t.stateCount + 1) ^ t.stateCount ≤ base ^ t.stateCount :=
    Nat.pow_le_pow_left (by omega) _
  have hpositive : 1 ≤ base ^ t.stateCount := Nat.one_le_pow _ _ (by omega)
  have hfour : base ^ 4 = base * base ^ 3 := by ring
  have hcube : 2 ≤ base ^ 3 := by
    calc 2 ≤ 2 ^ 3 := by decide
      _ ≤ base ^ 3 := Nat.pow_le_pow_left (by omega) 3
  have hlarge : base * 2 ≤ base ^ 4 := hfour ▸ Nat.mul_le_mul_left base hcube
  have hsquare : size * size * base ≤ size * size * base ^ 4 :=
    Nat.mul_le_mul_left _ (by omega)
  have hlinear : size * 4 ≤ size * base ^ 4 := Nat.mul_le_mul_left _ (by omega)
  calc size * ((0 + 2 + size * base) * (t.stateCount + 1) ^ t.stateCount + 1) + 1
      ≤ size * ((0 + 2 + size * base) * base ^ t.stateCount + base ^ t.stateCount)
          + base ^ t.stateCount := by gcongr
    _ = (size * size * base + 3 * size + 1) * base ^ t.stateCount := by ring
    _ ≤ ((size + 1) * (size + 1) * base ^ 4) * base ^ t.stateCount := by
        apply Nat.mul_le_mul_right _
        have hexpand : (size + 1) * (size + 1) * base ^ 4
            = size * size * base ^ 4 + 2 * (size * base ^ 4) + base ^ 4 := by ring
        omega
    _ = (size + 1) * (size + 1) * (base ^ t.stateCount * base ^ 4) := by ring

/-- **The bound is high enough**: whatever verdict a run comes to in any number
    of steps, it is the verdict of recognition. -/
theorem recognize_eq_of_run (t : ParseTable) {names : List String} {w : List Nat}
    (hw : t.terminalIndices names = .ok w) {steps : Nat}
    (hends : t.run (t.input w) steps t.begin ≠ .endless) :
    t.recognize names = t.run (t.input w) steps t.begin := by
  have hbegin := run_stepsFrom_ne_endless (c := t.begin) (Nat.zero_add _) ⟨steps, hends⟩
  have hbound := t.run_of_le (t.stepsFrom_le_stepBound (t.input w).size) hbegin
  have hrecognize : t.recognize names
      = t.run (t.input w) (t.stepBound (t.input w).size) t.begin := by
    simp [recognize, hw]
  rw [hrecognize]
  rcases Nat.le_total steps (t.stepBound (t.input w).size) with hle | hle
  · exact t.run_of_le hle hends
  · refine (t.run_of_le hle ?_).symm
    rw [hbound]
    exact hbegin

end ParseTable

end SlrCompiler
