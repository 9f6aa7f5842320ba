import Mathlib.Order.Bounds.Basic
import SlrCompiler.Proofs.Finite.Passes
import SlrCompiler.Proofs.Grammar.Lookahead

/-! # FIRST, the empty marker and FOLLOW as least sets

    What FIRST, the empty marker and FOLLOW are, without saying how they are found:
    the least sets that are closed under the productions (`FirstClosed`,
    `FollowClosed`). The three are found one after the other, by saturation and by
    reachability, so leastness is shown for each in turn, by induction on what has
    put an element in (`firsts_le`, `follow_le`).

    The conditions speak of the productions one by one, so their order cannot matter
    (`lookahead_eq_of_perm`). And for the empty marker alone they collapse: of a
    right side only the first symbol counts (`nullable_iff_begins_empty`).
-/

namespace SlrCompiler

/-! ## Section 1: Closed sets -/

/-- A FIRST set for each symbol, and the symbols that carry the empty marker. -/
structure Firsts where
  first : Nat → SortedSet Nat
  nullable : SortedSet Nat

namespace Firsts

/-- One is within the other if each of its sets is. -/
instance : PartialOrder Firsts where
  le m n := m.first ≤ n.first ∧ m.nullable ≤ n.nullable
  le_refl _ := ⟨le_rfl, le_rfl⟩
  le_trans _ _ _ hmn hno := ⟨hmn.1.trans hno.1, hmn.2.trans hno.2⟩
  le_antisymm m n hmn hnm := by
    cases m
    cases n
    exact (Firsts.mk.injEq ..).mpr ⟨le_antisymm hmn.1 hnm.1, le_antisymm hmn.2 hnm.2⟩

/-- The terminals with which a sequence can begin, and whether all its symbols carry
    the empty marker. -/
def ofSequence (m : Firsts) (symbols : List Nat) : SortedSet Nat × Bool :=
  firstOfSequence m.first (· ∈ m.nullable) symbols

/-- Larger sets make the terminals of a sequence more, and more sequences empty. -/
theorem ofSequence_mono {m n : Firsts} (h : m ≤ n) (symbols : List Nat) :
    (m.ofSequence symbols).1 ≤ (n.ofSequence symbols).1 ∧
      ((m.ofSequence symbols).2 = true → (n.ofSequence symbols).2 = true) := by
  induction symbols with
  | nil => exact ⟨le_rfl, id⟩
  | cons s rest ih =>
    unfold ofSequence at ih ⊢
    simp only [firstOfSequence, decide_eq_true_eq]
    by_cases hm : s ∈ m.nullable
    · rw [if_pos hm, if_pos (h.2 s hm)]
      refine ⟨SortedSet.union_le ?_ ?_, ih.2⟩
      · exact (h.1 s).trans (SortedSet.le_union_left _ _)
      · exact ih.1.trans (SortedSet.le_union_right _ _)
    · rw [if_neg hm]
      refine ⟨?_, fun hempty => absurd hempty (by simp)⟩
      split
      · exact (h.1 s).trans (SortedSet.le_union_left _ _)
      · exact h.1 s

end Firsts

/-- FIRST sets and empty marker of a lookahead. -/
def Lookahead.firsts (l : Lookahead) : Firsts := ⟨l.first, l.nullableSymbols⟩

namespace Grammar

variable (g : Grammar)

/-- The walk along a right side goes on behind a symbol: behind the left side if that
    has an empty rule, and behind another symbol if it carries the marker. -/
def StepsOver (marked : SortedSet Nat) (left x : Nat) : Prop :=
  (x = left ∧ left ∈ g.epsilon) ∨ (x ≠ left ∧ x ∈ marked)

/-- The walk along the right side of a production comes to a symbol, not the left side
    itself, for it goes on behind each symbol before. -/
def WalkReaches (marked : SortedSet Nat) (p : Production) (y : Nat) : Prop :=
  ∃ before after, p.right = before ++ y :: after ∧ y ≠ p.left ∧
    ∀ x ∈ before, g.StepsOver marked p.left x

/-- FIRST sets and an empty marker to which no production adds anything. -/
structure FirstClosed (m : Firsts) : Prop where
  /-- A terminal is in its own FIRST. -/
  terminal : ∀ t, g.isTerminal t = true → t ∈ m.first t
  /-- What has an empty rule carries the marker. -/
  epsilon : ∀ s ∈ g.epsilon, s ∈ m.nullable
  /-- FIRST of a left side takes in FIRST of every symbol that its walk reaches. -/
  first : ∀ p ∈ g.productions, ∀ y, g.WalkReaches m.nullable p y → m.first y ≤ m.first p.left
  /-- A left side whose walk reaches a symbol with the marker carries it too. -/
  nullable : ∀ p ∈ g.productions, ∀ y, g.WalkReaches m.nullable p y → y ∈ m.nullable →
    p.left ∈ m.nullable

/-- FOLLOW sets to which no occurrence of a nonterminal adds anything. -/
structure FollowClosed (m : Firsts) (w : Nat → SortedSet Nat) : Prop where
  /-- The end mark follows the start symbol. -/
  endMark : g.startSymbol < g.symbolCount → g.endMark ∈ w g.startSymbol
  /-- FOLLOW of an occurrence takes in FIRST of what stands after it. -/
  after : ∀ p ∈ g.productions, ∀ α y β, p.right = α ++ y :: β → g.isTerminal y = false →
    (m.ofSequence β).1 ≤ w y
  /-- Where all that stands after it carries the marker, FOLLOW of the left side too. -/
  atEnd : ∀ p ∈ g.productions, ∀ α y β, p.right = α ++ y :: β → g.isTerminal y = false →
    (m.ofSequence β).2 = true → w p.left ≤ w y

variable {g}

theorem mem_shown_cons {marked : SortedSet Nat} {left s y : Nat} {rest : List Nat} :
    y ∈ g.shown (· ∈ marked) left (s :: rest) ↔
      (y = s ∧ y ≠ left) ∨ (g.StepsOver marked left s ∧ y ∈ g.shown (· ∈ marked) left rest) := by
  unfold StepsOver
  rw [shown]
  by_cases hs : s = left
  · by_cases hepsilon : left ∈ g.epsilon
    · simp +contextual [hs, hepsilon]
    · simp +contextual [hs, hepsilon]
  · have hfound : (y = s ∧ y ≠ left) ↔ y = s := and_iff_left_of_imp fun heq => heq ▸ hs
    rw [hfound]
    by_cases hmarked : s ∈ marked
    · simp [hs, hmarked]
    · simp [hs, hmarked]

/-- The symbols that a right side shows are those that the walk reaches. -/
theorem mem_shown_iff {marked : SortedSet Nat} {p : Production} {y : Nat} :
    y ∈ g.shown (· ∈ marked) p.left p.right ↔ g.WalkReaches marked p y := by
  unfold WalkReaches
  constructor
  · intro h
    -- The walk goes along the right side, and the left side stays the same.
    generalize p.right = right at h ⊢
    induction right with
    | nil => simp [shown] at h
    | cons s rest ih =>
      rcases mem_shown_cons.1 h with ⟨rfl, hy⟩ | ⟨hs, hrest⟩
      · exact ⟨[], rest, rfl, hy, by simp⟩
      · obtain ⟨before, after, rfl, hy, hbefore⟩ := ih hrest
        exact ⟨s :: before, after, rfl, hy, List.forall_mem_cons.2 ⟨hs, hbefore⟩⟩
  · intro h
    obtain ⟨before, after, hright, hy, hbefore⟩ := h
    rw [hright]
    clear hright
    induction before with
    | nil => exact mem_shown_cons.2 (.inl ⟨rfl, hy⟩)
    | cons s before ih =>
      obtain ⟨hs, hbefore⟩ := List.forall_mem_cons.1 hbefore
      exact mem_shown_cons.2 (.inr ⟨hs, ih hbefore⟩)

theorem StepsOver.mono {marked more : SortedSet Nat} (h : marked ≤ more) {left x : Nat}
    (hx : g.StepsOver marked left x) : g.StepsOver more left x :=
  hx.imp_right fun hx => ⟨hx.1, h x hx.2⟩

theorem WalkReaches.mono {marked more : SortedSet Nat} (h : marked ≤ more) {p : Production}
    {y : Nat} (hy : g.WalkReaches marked p y) : g.WalkReaches more p y := by
  obtain ⟨before, after, heq, hne, hbefore⟩ := hy
  refine ⟨before, after, heq, hne, ?_⟩
  intro x hx
  exact (hbefore x hx).mono h

/-! ## Section 2: FIRST and the empty marker -/

theorem firstClosed_lookahead (hg : g.SymbolsExist) (hepsilon : g.EpsilonExists) :
    g.FirstClosed g.lookahead.firsts where
  terminal := by
    intro t ht
    exact mem_first_self hg ht
  epsilon := by
    intro s hs
    exact mem_nullableSymbols_of_mem_epsilon hs
  first := by
    intro p hp y hy t ht
    obtain ⟨i, hi⟩ := Array.mem_iff_getElem?.1 hp
    exact mem_first_of_shown hg hi (mem_shown_iff.2 hy) ht
  nullable := by
    intro p hp y hy hmarked
    obtain ⟨i, hi⟩ := Array.mem_iff_getElem?.1 hp
    exact mem_nullableSymbols_of_shown hg hepsilon hi (mem_shown_iff.2 hy) hmarked

theorem getD_map_symbols_of_le {α : Type} (f : Nat → α) (d : α) {s : Nat}
    (hs : g.symbolCount ≤ s) : ((g.symbols.map f).toArray).getD s d = d := by
  simp [symbols, Nat.not_lt.2 hs]

/-- What is no symbol has no FIRST. -/
theorem first_of_le {s : Nat} (hs : g.symbolCount ≤ s) : g.lookahead.first s = .empty :=
  getD_map_symbols_of_le _ _ hs

/-- Induction on the empty marker: what puts a symbol in is an empty rule, or a
    production whose walk reaches a symbol that is in already. -/
theorem nullableSymbols_induction {P : Nat → Prop} (hepsilon : ∀ s ∈ g.epsilon, P s)
    (hwalk : ∀ marked : SortedSet Nat, (∀ x ∈ marked, P x) → ∀ p ∈ g.productions, ∀ y ∈ marked,
      g.WalkReaches marked p y → P p.left) : ∀ x ∈ g.nullableSymbols, P x := by
  apply saturate_induction
  · intro marked hmarked x hx
    obtain ⟨i, p, hp, rfl, y, hy, hmem⟩ := mem_showing.1 hx
    exact hwalk marked hmarked p (Array.mem_of_getElem? hp) y hmem (mem_shown_iff.1 hy)
  · intro x hx
    exact hepsilon x (SortedSet.mem_ofList.1 hx)

theorem nullableSymbols_le {m : Firsts} (h : g.FirstClosed m) :
    g.nullableSymbols ≤ m.nullable := by
  apply nullableSymbols_induction h.epsilon
  intro marked hmarked p hp y hy hreaches
  exact h.nullable p hp y (hreaches.mono hmarked) (hmarked y hy)

/-- **FIRST and the empty marker are least**: a terminal of FIRST is traced along the
    symbols that are shown, from itself to the symbol at their beginning. -/
theorem firsts_le (hg : g.SymbolsExist) {m : Firsts} (h : g.FirstClosed m) :
    g.lookahead.firsts ≤ m := by
  refine ⟨?_, nullableSymbols_le h⟩
  intro s t ht
  by_cases hs : s < g.symbolCount
  · obtain ⟨hterminal, hpath⟩ := (mem_first hg hs).1 ht
    clear ht hs
    induction hpath using Relation.ReflTransGen.head_induction_on with
    | refl => exact h.terminal t hterminal
    | head hedge _ ih =>
      obtain ⟨i, p, hp, rfl, hy⟩ := mem_showEdges.1 hedge
      have hreaches := (mem_shown_iff.1 hy).mono (nullableSymbols_le h)
      exact h.first p (Array.mem_of_getElem? hp) _ hreaches t ih
  · have hempty : g.lookahead.firsts.first s = .empty := first_of_le (Nat.le_of_not_lt hs)
    rw [hempty] at ht
    exact absurd ht (SortedSet.not_mem_empty t)

/-! ## Section 3: FOLLOW -/

theorem followClosed_lookahead (hg : g.SymbolsExist) :
    g.FollowClosed g.lookahead.firsts g.lookahead.follow where
  endMark := by
    intro hstart
    exact (mem_follow hg hstart).2 ⟨_, .refl, mem_followDirectly.2 (.inl ⟨rfl, rfl⟩)⟩
  after := by
    intro p hp α y β hright hy t ht
    obtain ⟨i, hi⟩ := Array.mem_iff_getElem?.1 hp
    exact mem_follow_of_mem_afterwards hg hi hright hy ht
  atEnd := by
    intro p hp α y β hright hy hβ t ht
    obtain ⟨i, hi⟩ := Array.mem_iff_getElem?.1 hp
    exact mem_follow_of_mem_follow_left hg hi hright hy hβ ht

/-- What is no symbol has no FOLLOW. -/
theorem follow_of_le {s : Nat} (hs : g.symbolCount ≤ s) : g.lookahead.follow s = .empty :=
  getD_map_symbols_of_le _ _ hs

/-- **FOLLOW is least**: a terminal of FOLLOW is traced from the symbol that it comes
    after directly, along the ends of right sides. -/
theorem follow_le (hg : g.SymbolsExist) {m : Firsts} (hm : g.FirstClosed m)
    {w : Nat → SortedSet Nat} (h : g.FollowClosed m w) : g.lookahead.follow ≤ w := by
  intro s t ht
  by_cases hs : s < g.symbolCount
  · obtain ⟨y, hpath, hdirect⟩ := (mem_follow hg hs).1 ht
    -- The induction is on the path: what comes after its last symbol is handed on to the symbol
    -- before, whose right side ends with it.
    induction hpath using Relation.ReflTransGen.head_induction_on with
    | refl =>
      rcases mem_followDirectly.1 hdirect with ⟨rfl, rfl⟩ | ⟨o, ho, rfl, hafter⟩
      · exact h.endMark hs
      · obtain ⟨i, p, hp, -, hnonterminal, α, hright⟩ := mem_occurrences.1 ho
        have hmono := (Firsts.ofSequence_mono (firsts_le hg hm) o.after).1
        exact h.after p (Array.mem_of_getElem? hp) α _ _ hright hnonterminal t (hmono t hafter)
    | head hedge hrest ih =>
      obtain ⟨o, ho, rfl, rfl, -, hempty⟩ := endsIn_iff.1 hedge
      obtain ⟨i, p, hp, hleft, hnonterminal, α, hright⟩ := mem_occurrences.1 ho
      have hlt : o.left < g.symbolCount := hleft ▸ (hg i p hp).1
      have hmono := (Firsts.ofSequence_mono (firsts_le hg hm) o.after).2
      have hin := ih ((mem_follow hg hlt).2 ⟨y, hrest, hdirect⟩) hlt
      rw [hleft] at hin
      exact h.atEnd p (Array.mem_of_getElem? hp) α _ _ hright hnonterminal (hmono hempty) t hin
  · rw [follow_of_le (Nat.le_of_not_lt hs)] at ht
    exact absurd ht (SortedSet.not_mem_empty t)

/-! ## Section 4: The order of the productions -/

theorem FirstClosed.of_perm {ps : Array Production} (hperm : ps.Perm g.productions) {m : Firsts}
    (h : g.FirstClosed m) : FirstClosed { g with productions := ps } m where
  terminal := h.terminal
  epsilon := h.epsilon
  first := by
    intro p hp
    exact h.first p (hperm.mem_iff.1 hp)
  nullable := by
    intro p hp
    exact h.nullable p (hperm.mem_iff.1 hp)

theorem FollowClosed.of_perm {ps : Array Production} (hperm : ps.Perm g.productions) {m : Firsts}
    {w : Nat → SortedSet Nat} (h : g.FollowClosed m w) :
    FollowClosed { g with productions := ps } m w where
  endMark := h.endMark
  after := by
    intro p hp
    exact h.after p (hperm.mem_iff.1 hp)
  atEnd := by
    intro p hp
    exact h.atEnd p (hperm.mem_iff.1 hp)

theorem SymbolsExist.of_perm (hg : g.SymbolsExist) {ps : Array Production}
    (hperm : ps.Perm g.productions) : SymbolsExist { g with productions := ps } := by
  intro i p hp
  obtain ⟨j, hj⟩ := Array.mem_iff_getElem?.1 (hperm.mem_iff.1 (Array.mem_of_getElem? hp))
  exact hg j p hj

theorem map_lookahead_first :
    (g.symbols.map g.lookahead.first).toArray = g.lookahead.firstSets := by
  have hfirst : g.symbols.map g.lookahead.first
      = g.symbols.map (g.firstAlong (g.showEdges g.lookahead.nullable)) := by
    apply List.map_congr_left
    intro s hs
    exact first_eq (List.mem_range.1 hs)
  rw [hfirst]
  rfl

theorem map_lookahead_follow :
    (g.symbols.map g.lookahead.follow).toArray = g.lookahead.followSets := by
  have hfollow : g.symbols.map g.lookahead.follow
      = g.symbols.map (g.followAlong (g.symbols.map (g.followDirectly g.afterwards)).toArray
          (g.followEdges g.afterwards)) := by
    apply List.map_congr_left
    intro s hs
    exact follow_eq (List.mem_range.1 hs)
  rw [hfollow]
  rfl

/-- **The order of the productions does not matter**: closed sets are closed in every
    order, so the least ones are the same. -/
theorem lookahead_eq_of_perm (hg : g.SymbolsExist) (hepsilon : g.EpsilonExists)
    {ps : Array Production} (hperm : ps.Perm g.productions) :
    lookahead { g with productions := ps } = g.lookahead := by
  have hg' := hg.of_perm hperm
  have hclosed := firstClosed_lookahead hg hepsilon
  have hclosed' : FirstClosed { g with productions := ps } _ := firstClosed_lookahead hg' hepsilon
  have hfirsts : (lookahead { g with productions := ps }).firsts = g.lookahead.firsts := by
    apply le_antisymm
    · exact firsts_le hg' (hclosed.of_perm hperm)
    · exact firsts_le hg (hclosed'.of_perm hperm.symm)
  have hfollow : (lookahead { g with productions := ps }).follow = g.lookahead.follow := by
    apply le_antisymm
    · exact follow_le hg' (hclosed.of_perm hperm) ((followClosed_lookahead hg).of_perm hperm)
    · exact follow_le hg (hclosed'.of_perm hperm.symm)
        ((followClosed_lookahead hg').of_perm hperm.symm)
  obtain ⟨hfirst, hnullable⟩ := (Firsts.mk.injEq ..).mp hfirsts
  -- the sets are kept in arrays with one place for each symbol
  have hfirstSets : (lookahead { g with productions := ps }).firstSets = g.lookahead.firstSets := by
    rw [← map_lookahead_first, ← map_lookahead_first, hfirst]
    rfl
  have hfollowSets :
      (lookahead { g with productions := ps }).followSets = g.lookahead.followSets := by
    rw [← map_lookahead_follow, ← map_lookahead_follow, hfollow]
    rfl
  exact (Lookahead.mk.injEq ..).mpr ⟨hfirstSets, hnullable, hfollowSets⟩

/-! ## Section 5: What the empty marker means -/

variable (g) in
/-- Some right side of the first symbol begins with the second one. -/
def BeginsWith (x y : Nat) : Prop := ∃ p ∈ g.productions, p.left = x ∧ p.right.head? = some y

/-- A walk that reaches a symbol with the marker begins with one, unless the left side
    has an empty rule. -/
theorem WalkReaches.exists_head {marked : SortedSet Nat} {p : Production} {y : Nat}
    (h : g.WalkReaches marked p y) (hy : y ∈ marked) :
    p.left ∈ g.epsilon ∨ ∃ x ∈ marked, p.right.head? = some x := by
  obtain ⟨before, after, hright, -, hbefore⟩ := h
  cases before with
  | nil =>
    right
    exact ⟨y, hy, by simp [hright]⟩
  | cons x before =>
    rcases hbefore x List.mem_cons_self with ⟨-, hepsilon⟩ | ⟨-, hx⟩
    · left
      exact hepsilon
    · right
      exact ⟨x, hx, by simp [hright]⟩

theorem exists_path_of_mem_nullableSymbols :
    ∀ x ∈ g.nullableSymbols, ∃ e ∈ g.epsilon, Relation.ReflTransGen g.BeginsWith x e := by
  apply nullableSymbols_induction
  · intro s hs
    exact ⟨s, hs, .refl⟩
  · intro marked hmarked p hp y hy hreaches
    rcases hreaches.exists_head hy with hleft | ⟨z, hz, hhead⟩
    · exact ⟨p.left, hleft, .refl⟩
    · obtain ⟨e, he, hpath⟩ := hmarked z hz
      exact ⟨e, he, .head ⟨p, hp, rfl, hhead⟩ hpath⟩

/-- The marker goes from the first symbol of a right side to the left side. -/
theorem mem_nullableSymbols_of_begins (hg : g.SymbolsExist) (hepsilon : g.EpsilonExists)
    {x y : Nat} (h : g.BeginsWith x y) (hy : y ∈ g.nullableSymbols) : x ∈ g.nullableSymbols := by
  obtain ⟨p, hp, rfl, hhead⟩ := h
  obtain ⟨rest, hright⟩ := List.head?_eq_some_iff.1 hhead
  -- where the left side itself comes first there is nothing to show
  by_cases hleft : y = p.left
  · exact hleft ▸ hy
  · have hreaches : g.WalkReaches g.nullableSymbols p y := ⟨[], rest, hright, hleft, by simp⟩
    exact (firstClosed_lookahead hg hepsilon).nullable p hp y hreaches hy

/-- **What the empty marker means**: a symbol carries it if and only if first symbols of
    right sides lead from it to a symbol with an empty rule. What stands behind the first
    symbols does not count, so the symbol need not derive the empty string. -/
theorem nullable_iff_begins_empty (hg : g.SymbolsExist) (hepsilon : g.EpsilonExists) (x : Nat) :
    g.lookahead.nullable x = true ↔ ∃ e ∈ g.epsilon, Relation.ReflTransGen g.BeginsWith x e := by
  have hnullable : g.lookahead.nullable x = true ↔ x ∈ g.nullableSymbols := decide_eq_true_iff
  rw [hnullable]
  constructor
  · intro h
    exact exists_path_of_mem_nullableSymbols x h
  · intro h
    obtain ⟨e, he, hpath⟩ := h
    clear hnullable
    induction hpath using Relation.ReflTransGen.head_induction_on with
    | refl => exact mem_nullableSymbols_of_mem_epsilon he
    | head hbegins _ ih => exact mem_nullableSymbols_of_begins hg hepsilon hbegins ih

/-- Rules that call each other, edited afterwards: `b` gets the right side `s 'c'`, and
    only `x` counts as empty. From `b` first symbols lead over `s` to `x`; from the
    terminal `'a'` they lead nowhere. -/
theorem nullable_iff_begins_empty_edited :
    ∃ g h, parse "%% s : x 'd' ; x : y 'c' | 'a' ; y : x 'e' | b ; b : | y ; %%" = .ok g ∧
      [7, 8, 10, 4].map g.symbolName = ["s", "x", "b", "'a'"] ∧
      h = { g.addProduction ⟨10, [7, 3], none, none⟩ with epsilon := [8] } ∧
      h.SymbolsExist ∧ h.EpsilonExists ∧
      (∃ e ∈ h.epsilon, Relation.ReflTransGen h.BeginsWith 10 e) ∧ h.lookahead.nullable 10 = true ∧
      (¬ ∃ e ∈ h.epsilon, Relation.ReflTransGen h.BeginsWith 4 e) ∧
      h.lookahead.nullable 4 = false := by
  have hfacts : (parse "%% s : x 'd' ; x : y 'c' | 'a' ; y : x 'e' | b ; b : | y ; %%").map
      (fun g => decide (g.symbolCount = 11 ∧
        [7, 8, 10, 4].map g.symbolName = ["s", "x", "b", "'a'"] ∧
        (∃ p ∈ g.productions.toList, p.left = 7 ∧ p.right.head? = some 8) ∧
        (lookahead { g.addProduction ⟨10, [7, 3], none, none⟩ with epsilon := [8] }).nullable 4
          = false)) = .ok true := by
    decide +kernel
  obtain ⟨g, hparse, hcount, hnames, ⟨p, hp, hleft, hhead⟩, hterminal⟩ :=
    exists_of_map_decide hfacts
  have hsymbols := (wellFormed_of_parse hparse).symbolsExist.addProduction
    (q := ⟨10, [7, 3], none, none⟩) (by simp [hcount]) (by simp [hcount])
  have hepsilon : EpsilonExists
      { g.addProduction ⟨10, [7, 3], none, none⟩ with epsilon := [8] } := by
    intro s hs
    rw [List.mem_singleton.1 hs]
    show 8 < g.symbolCount
    omega
  have hiff := nullable_iff_begins_empty
    (g := { g.addProduction ⟨10, [7, 3], none, none⟩ with epsilon := [8] }) hsymbols hepsilon
  have hpath : ∃ e ∈ [8], Relation.ReflTransGen
      (BeginsWith { g.addProduction ⟨10, [7, 3], none, none⟩ with epsilon := [8] }) 10 e := by
    have hp := Array.mem_push_of_mem ⟨10, [7, 3], none, none⟩ (Array.mem_toList_iff.1 hp)
    exact ⟨8, by simp, .head ⟨_, Array.mem_push_self, rfl, rfl⟩ (.single ⟨p, hp, hleft, hhead⟩)⟩
  refine ⟨g, _, hparse, hnames, rfl, hsymbols, hepsilon, hpath, (hiff 10).2 hpath, ?_, hterminal⟩
  intro hnone
  exact absurd ((hiff 4).2 hnone) (by simp [hterminal])

end Grammar

end SlrCompiler
