import Mathlib.Data.Finset.Card
import Mathlib.Data.Finset.Range
import SlrCompiler.Proofs.Recognition.Soundness
import SlrCompiler.Proofs.Recognition.StepBound

/-! # Runs that end

    The loop over an input `Ends` if some number of steps is enough for it; then,
    and only then, the bounded loop is not cut off (`ends_iff`). Without empty
    rules and without cycles of rules for a single nonterminal it always ends
    (`ends_of_acyclic`), whatever conflicts there are and however they were
    settled.

    The steps that are left are bounded by three things. A shift leaves less
    input to be read; a reduction of two symbols or more leaves a shorter stack;
    and a reduction of one symbol keeps both, but the symbol on top is then one
    that fewer nonterminals derive by such reductions (`unitRank`). The measure
    `toDo` puts them together, so the number of steps is linear in the input.
-/

namespace SlrCompiler

variable {g : Grammar} {t : ParseTable} {ts : List Nat}

/-! ## Section 1: The loop over an input -/

namespace ParseTable

/-- The loop over the names, if all of them are known, ends. -/
def Ends (t : ParseTable) (names : List String) : Prop :=
  ∀ w, t.terminalIndices names = .ok w → ∃ n, t.run (t.input w) n t.begin ≠ .endless

/-- The loop ends exactly if it is not cut off. -/
theorem ends_iff {names : List String} : t.Ends names ↔ t.recognize names ≠ .endless := by
  cases hw : t.terminalIndices names with
  | error e => simp [Ends, recognize, hw]
  | ok w =>
    constructor
    · intro hends
      obtain ⟨n, hn⟩ := hends w hw
      rwa [t.recognize_eq_of_run hw hn]
    · intro h v hv
      obtain rfl := Except.ok.inj (hw.symm.trans hv)
      exact ⟨t.stepBound (t.input w).size, by simpa [recognize, hw] using h⟩

/-- The configuration after the given number of steps; nothing if there are not so
    many. -/
def after (t : ParseTable) (input : Array Nat) : Nat → Configuration → Option Configuration
  | 0, c => some c
  | n + 1, c =>
    match c.step t input with
    | .next d => after t input n d
    | _ => none

/-- A run goes on from any configuration that it comes by. -/
theorem run_of_after {input : Array Nat} {n : Nat} {c d : Configuration}
    (h : t.after input n c = some d) (m : Nat) : t.run input (n + m) c = t.run input m d := by
  induction n generalizing c with
  | zero =>
    obtain rfl := Option.some.inj h
    rw [Nat.zero_add]
  | succ n ih =>
    unfold after at h
    split at h
    · rename_i next hnext
      rw [Nat.add_right_comm, run_succ_of_next hnext]
      exact ih h
    · simp at h

/-- A loop does not end if it comes by a stack whose upper part leads to itself by
    reductions, on top of others or not. -/
theorem not_ends_of_pump {names : List String} {w : List Nat} {n k x : Nat} {c : Configuration}
    {stack above below : List Nat} (hw : t.terminalIndices names = .ok w)
    (hafter : t.after (t.input w) n t.begin = some c) (hx : (t.input w)[c.position]? = some x)
    (hstack : c.top :: c.below = stack ++ below) (hk : 0 < k)
    (hpump : t.reducedBy x k stack = some (stack ++ above)) : ¬ t.Ends names := by
  intro hends
  obtain ⟨m, hm⟩ := hends w hw
  apply hm
  rw [← t.run_of_le (Nat.le_add_left m n) hm, run_of_after hafter]
  exact run_eq_endless hx (fun j => hstack ▸ ne_none_of_pump hk hpump below j) m

end ParseTable

/-! ## Section 2: Rules for a single nonterminal -/

namespace Grammar

variable (g) in
/-- A nonterminal has a rule whose right side is nothing but another one. -/
def UnitRule (a b : Nat) : Prop :=
  g.isTerminal b = false ∧
    ∃ (i : Nat) (p : Production), g.productions[i]? = some p ∧ p.left = a ∧ p.right = [b]

variable (g) in
open scoped Classical in
/-- The nonterminals that derive a symbol by such rules. -/
noncomputable def unitAncestors (s : Nat) : Finset Nat :=
  (Finset.range g.symbolCount).filter fun a => Relation.TransGen g.UnitRule a s

variable (g) in
/-- The number of nonterminals that derive a nonterminal by such rules; a terminal
    ranks higher than all of them. -/
noncomputable def unitRank (s : Nat) : Nat :=
  if g.isTerminal s then g.symbolCount + 1 else (g.unitAncestors s).card

theorem mem_unitAncestors {a s : Nat} :
    a ∈ g.unitAncestors s ↔ a < g.symbolCount ∧ Relation.TransGen g.UnitRule a s := by
  simp only [unitAncestors, Finset.mem_filter, Finset.mem_range]

theorem card_unitAncestors_le (s : Nat) : (g.unitAncestors s).card ≤ g.symbolCount := by
  have hsub : g.unitAncestors s ⊆ Finset.range g.symbolCount :=
    fun a ha => Finset.mem_range.2 (mem_unitAncestors.1 ha).1
  simpa using Finset.card_le_card hsub

theorem unitRank_le (s : Nat) : g.unitRank s ≤ g.symbolCount + 1 := by
  unfold unitRank
  split
  · exact Nat.le_refl _
  · exact Nat.le_succ_of_le (card_unitAncestors_le s)

/-- Without cycles the left side of a rule ranks lower than the only symbol of its
    right side. -/
theorem unitRank_lt (hg : g.WellFormed) (hacyclic : ∀ s, ¬ Relation.TransGen g.UnitRule s s)
    {i b : Nat} {p : Production} (hp : g.productions[i]? = some p) (hright : p.right = [b]) :
    g.unitRank p.left < g.unitRank b := by
  have hleft : g.isTerminal p.left = false := hg.left_nonterminal hp
  cases hb : g.isTerminal b with
  | true =>
    have hle := g.card_unitAncestors_le p.left
    simp only [unitRank, hleft, hb, if_true, Bool.false_eq_true, if_false]
    omega
  | false =>
    have hunit : g.UnitRule p.left b := ⟨hb, i, p, hp, rfl, hright⟩
    simp only [unitRank, hleft, hb, Bool.false_eq_true, if_false]
    -- What derives the left side derives the symbol, and so does the left side itself.
    have hsub : g.unitAncestors p.left ⊆ g.unitAncestors b := by
      intro a ha
      obtain ⟨hlt, hderives⟩ := mem_unitAncestors.1 ha
      exact mem_unitAncestors.2 ⟨hlt, hderives.tail hunit⟩
    refine Finset.card_lt_card ((Finset.ssubset_iff_of_subset hsub).2 ⟨p.left, ?_, ?_⟩)
    · exact mem_unitAncestors.2 ⟨(hg.symbolsExist i p hp).1, .single hunit⟩
    · exact fun hmem => hacyclic p.left (mem_unitAncestors.1 hmem).2

end Grammar

/-! ## Section 3: The steps to do -/

namespace Configuration

/-- The rank of the symbol on top; nothing is on top in the beginning. -/
noncomputable def topRank (g : Grammar) : List Nat → Nat
  | [] => 0
  | s :: _ => g.unitRank s

/-- A bound on the steps to do, by what is left to be read, the height of the stack
    and the symbol on its top. A terminal counts twice while it is unread. -/
noncomputable def toDo (g : Grammar) (ts γ : List Nat) (position : Nat) : Nat :=
  (2 * (ts.length - position) + γ.length) * (g.symbolCount + 2) + topRank g γ

theorem topRank_lt (g : Grammar) (γ : List Nat) : topRank g γ < g.symbolCount + 2 := by
  cases γ with
  | nil => exact Nat.succ_pos _
  | cons s γ => exact Nat.lt_succ_of_le (Grammar.unitRank_le s)

/-- What makes the first part of the measure smaller makes it smaller. -/
theorem toDo_lt {γ δ : List Nat} {p q : Nat}
    (h : 2 * (ts.length - q) + δ.length < 2 * (ts.length - p) + γ.length) :
    toDo g ts δ q < toDo g ts γ p := by
  calc toDo g ts δ q
      < (2 * (ts.length - q) + δ.length) * (g.symbolCount + 2) + (g.symbolCount + 2) :=
        Nat.add_lt_add_left (topRank_lt g δ) _
    _ = (2 * (ts.length - q) + δ.length + 1) * (g.symbolCount + 2) := (Nat.succ_mul _ _).symm
    _ ≤ (2 * (ts.length - p) + γ.length) * (g.symbolCount + 2) := Nat.mul_le_mul_right _ h
    _ ≤ toDo g ts γ p := Nat.le_add_right _ _

variable (hright : ∀ (i : Nat) (p : Production), g.productions[i]? = some p → p.right ≠ [])
  (hacyclic : ∀ s, ¬ Relation.TransGen g.UnitRule s s)
include hright hacyclic

/-- A reduction leaves less to do. -/
theorem toDo_lt_of_reduce (hg : g.WellFormed) {i position : Nat} {p : Production}
    (hp : g.productions[i]? = some p) (δ : List Nat) :
    toDo g ts (p.left :: δ) position < toDo g ts (p.right.reverse ++ δ) position := by
  cases hsymbols : p.right with
  | nil => exact absurd hsymbols (hright i p hp)
  | cons b rest =>
    cases rest with
    | nil =>
      -- The stack keeps its height, and the symbol on top ranks lower.
      have hrank := Grammar.unitRank_lt hg hacyclic hp hsymbols
      simp only [toDo, topRank, List.reverse_singleton, List.singleton_append, List.length_cons]
      omega
    | cons c rest =>
      -- The stack gets shorter, whatever is on top then.
      apply toDo_lt
      simp only [List.length_cons, List.length_append, List.length_reverse]
      omega

/-- **One step** leaves less to do. -/
theorem Follows.toDo_lt {c d : Configuration} {γ : List Nat} (h : c.Follows g ts γ)
    (hg : g.WellFormed) (ht : g.Tabulates t) (hts : g.AllTerminal ts) (hend : g.endMark ∈ ts)
    (hstep : c.step t ts.toArray = .next d) :
    ∃ δ, d.Follows g ts δ ∧ toDo g ts δ d.position < toDo g ts γ c.position := by
  rcases h.shift_or_reduce hg ht hts hend hstep with
    ⟨x, -, hposition, hd⟩ | ⟨rule, q, δ, hq, -, rfl, hposition, hd⟩
  · have hlt := h.position_lt hend
    refine ⟨x :: γ, hd, Configuration.toDo_lt ?_⟩
    rw [hposition, List.length_cons]
    omega
  · refine ⟨q.left :: δ, hd, ?_⟩
    rw [hposition]
    exact toDo_lt_of_reduce hright hacyclic hg hq δ

end Configuration

/-! ## Section 4: Termination -/

/-- A run over terminals takes no more steps than there are to do in the
    beginning. -/
theorem run_toDo_ne_endless (hg : g.WellFormed) (ht : g.Tabulates t) (hts : g.AllTerminal ts)
    (hend : g.endMark ∈ ts)
    (hright : ∀ (i : Nat) (p : Production), g.productions[i]? = some p → p.right ≠ [])
    (hacyclic : ∀ s, ¬ Relation.TransGen g.UnitRule s s) :
    t.run ts.toArray (2 * ts.length * (g.symbolCount + 2) + 1) t.begin ≠ .endless := by
  refine ParseTable.run_ne_endless_of_decreasing
    (fun n c => ∃ γ, c.Follows g ts γ ∧ Configuration.toDo g ts γ c.position = n)
    ?_ ⟨[], Configuration.follows_begin ht, rfl⟩
  intro n c d h hstep
  obtain ⟨γ, hγ, rfl⟩ := h
  obtain ⟨δ, hδ, hlt⟩ := hγ.toDo_lt hright hacyclic hg ht hts hend hstep
  exact ⟨_, hlt, δ, hδ, rfl⟩

/-- **Termination** without empty rules and without cycles of rules for a single
    nonterminal: the loop over any input ends, and is never cut off. -/
theorem ends_of_acyclic {spec : String} (hcompile : compile spec = .ok t)
    (hparse : Grammar.parse spec = .ok g)
    (hright : ∀ (i : Nat) (p : Production), g.productions[i]? = some p → p.right ≠ [])
    (hacyclic : ∀ s, ¬ Relation.TransGen g.UnitRule s s) (names : List String) :
    t.Ends names ∧ t.recognize names ≠ .endless := by
  obtain ⟨g', hparse', hg, ht⟩ := Grammar.exists_tabulates_of_compile hcompile
  obtain rfl := Except.ok.inj (hparse.symm.trans hparse')
  have hends : t.Ends names := by
    intro w hw
    obtain ⟨hts, hinput⟩ := allTerminal_input hg ht hw
    rw [hinput]
    exact ⟨_, run_toDo_ne_endless hg ht hts (by simp) hright hacyclic⟩
  exact ⟨hends, ParseTable.ends_iff.1 hends⟩

/-- Rules for a single nonterminal without a cycle, and conflicts between operators
    that precedence settles in part. -/
theorem ends_of_acyclic_ambiguous :
    ∃ t g, compile "%left '+'\n%% e : e '+' e | e 'x' e | t ; t : 'a' | '(' e ')' ; %%" = .ok t ∧
      Grammar.parse "%left '+'\n%% e : e '+' e | e 'x' e | t ; t : 'a' | '(' e ')' ; %%"
        = .ok g ∧
      (∀ (i : Nat) (p : Production), g.productions[i]? = some p → p.right ≠ []) ∧
      (∀ s, ¬ Relation.TransGen g.UnitRule s s) ∧ t.conflicts ≠ [] ∧
      t.Ends ["'('", "'a'", "'x'", "'a'", "')'", "')'"] := by
  have htable : (compile "%left '+'\n%% e : e '+' e | e 'x' e | t ; t : 'a' | '(' e ')' ; %%").map
      (fun t => decide (t.conflicts ≠ [])) = .ok true := by
    decide +kernel
  have hgrammar : (Grammar.parse
      "%left '+'\n%% e : e '+' e | e 'x' e | t ; t : 'a' | '(' e ')' ; %%").map
      (fun g => decide (∀ p ∈ g.productions.toList, p.right ≠ [] ∧
        ∀ b ∈ p.right, p.right = [b] → g.isTerminal b = false → p.left < b)) = .ok true := by
    decide +kernel
  obtain ⟨t, hcompile, hconflicts⟩ := exists_of_map_decide htable
  obtain ⟨g, hparse, hg⟩ := exists_of_map_decide hgrammar
  have hproductions : ∀ (i : Nat) (p : Production), g.productions[i]? = some p → p.right ≠ [] ∧
      ∀ b ∈ p.right, p.right = [b] → g.isTerminal b = false → p.left < b :=
    fun i p hp => hg p (Array.mem_toList_iff.2 (Array.mem_of_getElem? hp))
  have hright : ∀ (i : Nat) (p : Production), g.productions[i]? = some p → p.right ≠ [] :=
    fun i p hp => (hproductions i p hp).1
  have hacyclic : ∀ s, ¬ Relation.TransGen g.UnitRule s s := by
    intro s hs
    -- The rules lead to symbols with higher numbers.
    have hmono : ∀ a b, g.UnitRule a b → a < b := by
      intro a b h
      obtain ⟨hb, i, p, hp, rfl, hsymbols⟩ := h
      exact (hproductions i p hp).2 b (by simp [hsymbols]) hsymbols hb
    have hlt : Relation.TransGen (· < ·) s s := Relation.TransGen.mono hmono s s hs
    rw [Relation.transGen_eq_self] at hlt
    exact Nat.lt_irrefl s hlt
  have hends := (ends_of_acyclic hcompile hparse hright hacyclic
    ["'('", "'a'", "'x'", "'a'", "')'", "')'"]).1
  exact ⟨t, g, hcompile, hparse, hright, hacyclic, hconflicts, hends⟩

end SlrCompiler
