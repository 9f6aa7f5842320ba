import SlrCompiler.Proofs.Grammar.LeastLookahead

/-! # FIRST and FOLLOW without empty rules

    FIRST and FOLLOW miss no terminal that they should have (`mem_first_of_derives`,
    `mem_follow_of_derives`); in general they have too many, because the empty marker
    is given too freely. Where no right side is empty nothing carries the marker
    (`notMem_nullableSymbols`), so a left side shows no more than the first symbol of
    its right side, and FOLLOW looks no further than the next symbol. Then every
    terminal that is put in comes from a derivation (`exists_derives_of_mem_first`,
    `exists_derives_of_mem_follow`), and the sets are exact.

    A terminal gets into FOLLOW because of some right side. That this right side comes
    up in a derivation from the start symbol is the one thing to be asked for: all
    nonterminals must be reachable (`AllReachable`).
-/

namespace SlrCompiler

namespace Grammar

variable (g : Grammar)

/-! ## Section 1: What is asked for -/

/-- No right side is empty. -/
def NoEmptyRule : Prop := ∀ p ∈ g.productions, p.right ≠ []

/-- Every nonterminal but `$accept` occurs in a string that the start symbol derives. -/
def AllReachable : Prop :=
  ∀ s, s < g.symbolCount → g.isTerminal s = false → s ≠ g.acceptSymbol →
    ∃ before after, g.Derives [g.startSymbol] (before ++ s :: after)

variable {g}

/-- A derivation goes on from the left side of a production that it has come to. -/
theorem Derives.expand {φ before after : List Nat} {i : Nat} {p : Production}
    (h : g.Derives φ (before ++ p.left :: after)) (hp : g.productions[i]? = some p) :
    g.Derives φ (before ++ p.right ++ after) :=
  h.tail ⟨i, p, before, after, hp, rfl, rfl⟩

/-- A right side of any production but the augmenting one comes up before the end mark. -/
theorem AllReachable.exists_derives (h : g.AllReachable) (hg : g.WellFormed) {i : Nat}
    {p : Production} (hp : g.productions[i]? = some p) (hleft : p.left ≠ g.acceptSymbol) :
    ∃ before after, g.Derives [g.startSymbol, g.endMark] (before ++ p.right ++ after) := by
  obtain ⟨before, after, hderives⟩ :=
    h p.left (hg.symbolsExist i p hp).1 (hg.left_nonterminal hp) hleft
  have hend : g.Derives [g.startSymbol, g.endMark] (before ++ p.left :: (after ++ [g.endMark])) := by
    simpa using hderives.context [] [g.endMark]
  exact ⟨before, after ++ [g.endMark], hend.expand hp⟩

section NoEmptyRule

variable (hg : g.WellFormed) (hfull : g.NoEmptyRule)
include hg hfull

theorem NoEmptyRule.notMem_epsilon (s : Nat) : s ∉ g.epsilon := by
  intro hs
  obtain ⟨i, p, hp, -, hright⟩ := (hg.mem_epsilon s).1 hs
  exact hfull p (Array.mem_of_getElem? hp) hright

/-- Nothing carries the empty marker: there is no symbol with which it could begin. -/
theorem NoEmptyRule.notMem_nullableSymbols (s : Nat) : s ∉ g.nullableSymbols := by
  intro hs
  apply nullableSymbols_induction (g := g) (P := fun _ => False) ?_ ?_ s hs
  · intro x hx
    exact hfull.notMem_epsilon hg x hx
  · intro marked hmarked p _ y hy _
    exact hmarked y hy

theorem NoEmptyRule.nullable_eq_false (s : Nat) : g.lookahead.nullable s = false :=
  decide_eq_false (hfull.notMem_nullableSymbols hg s)

/-- What derives the empty string has an empty rule, if only because nothing does. -/
theorem NoEmptyRule.emptyByRule : g.EmptyByRule := by
  intro i p _ _ hderives
  have hmarked := mem_nullableSymbols_of_yields hg hderives.yields rfl p.left List.mem_cons_self
  exact absurd hmarked (hfull.notMem_nullableSymbols hg p.left)

/-! ## Section 2: FIRST -/

/-- A left side shows the first symbol of its right side and nothing else. -/
theorem NoEmptyRule.head?_of_shown {left y : Nat} {right : List Nat}
    (hy : y ∈ g.shown g.lookahead.nullable left right) : right.head? = some y := by
  cases right with
  | nil => simp [shown] at hy
  | cons s rest =>
    rw [shown, if_neg (hfull.notMem_epsilon hg left), hfull.nullable_eq_false hg s] at hy
    split at hy
    · simp at hy
    · simp_all

/-- **FIRST has nothing else**: each symbol that is shown on the way to a terminal is
    the first one of a string that has been derived. -/
theorem NoEmptyRule.exists_derives_of_mem_first {s t : Nat} (ht : t ∈ g.lookahead.first s) :
    g.isTerminal t = true ∧ ∃ w, g.Derives [s] (t :: w) := by
  by_cases hs : s < g.symbolCount
  · obtain ⟨hterminal, hpath⟩ := (mem_first hg.symbolsExist hs).1 ht
    refine ⟨hterminal, ?_⟩
    clear ht hs
    induction hpath using Relation.ReflTransGen.head_induction_on with
    | refl => exact ⟨[], .refl⟩
    | head hedge _ ih =>
      obtain ⟨i, p, hp, rfl, hshown⟩ := mem_showEdges.1 hedge
      obtain ⟨rest, hright⟩ := List.head?_eq_some_iff.1 (hfull.head?_of_shown hg hshown)
      obtain ⟨w, hw⟩ := ih
      have hbegin : g.Derives p.right (t :: w ++ rest) := by
        rw [hright]
        exact hw.append (x := rest) .refl
      exact ⟨w ++ rest, (Derives.of_production hp).trans hbegin⟩
  · rw [first_of_le (Nat.le_of_not_lt hs)] at ht
    exact absurd ht (SortedSet.not_mem_empty t)

/-! ## Section 3: FOLLOW -/

/-- What can come after an occurrence is FIRST of the next symbol; only where there is
    none does FOLLOW of the left side count. -/
theorem NoEmptyRule.afterwards_eq (after : List Nat) :
    g.afterwards after = match after with
      | [] => (.empty, true)
      | s :: _ => (g.lookahead.first s, false) := by
  cases after with
  | nil => rfl
  | cons s rest => simp [afterwards, firstOfSequence, hfull.nullable_eq_false hg s]

/-- The terminals that come directly after an occurrence of a symbol do so in a string
    that has been derived. -/
theorem NoEmptyRule.exists_derives_of_mem_followDirectly (hreach : g.AllReachable) {s t : Nat}
    (ht : t ∈ g.followDirectly g.afterwards s) : g.isTerminal t = true ∧
      ∃ before after, g.Derives [g.startSymbol, g.endMark] (before ++ s :: t :: after) := by
  rcases mem_followDirectly.1 ht with ⟨rfl, rfl⟩ | ⟨o, ho, rfl, hafter⟩
  · exact ⟨hg.endMark_terminal, [], [], .refl⟩
  · obtain ⟨i, p, hp, -, -, α, hright⟩ := mem_occurrences.1 ho
    rw [hfull.afterwards_eq hg] at hafter
    cases hrest : o.after with
    | nil => simp [hrest] at hafter
    | cons y rest =>
      rw [hrest] at hafter hright
      obtain ⟨hterminal, w, hw⟩ := hfull.exists_derives_of_mem_first hg hafter
      -- The augmenting production has a single symbol, with none after it.
      have hleft : p.left ≠ g.acceptSymbol := by
        intro haccept
        have hzero := hg.rightSide_zero
        rw [← hg.eq_zero_of_left hp haccept, rightSide_eq hp, hright] at hzero
        simp [List.append_eq_singleton_iff] at hzero
      obtain ⟨before, after, hderives⟩ := hreach.exists_derives hg hp hleft
      have hnext := hw.context (before ++ α ++ [o.symbol]) (rest ++ after)
      refine ⟨hterminal, before ++ α, w ++ rest ++ after, ?_⟩
      rw [hright] at hderives
      exact Derives.trans (by simpa using hderives) (by simpa using hnext)

/-- **FOLLOW has nothing else**: where a symbol stands at the end of a right side, what
    comes after the left side comes after the symbol once the left side is expanded. -/
theorem NoEmptyRule.exists_derives_of_mem_follow (hreach : g.AllReachable) {s t : Nat}
    (ht : t ∈ g.lookahead.follow s) : g.isTerminal t = true ∧
      ∃ before after, g.Derives [g.startSymbol, g.endMark] (before ++ s :: t :: after) := by
  by_cases hs : s < g.symbolCount
  · obtain ⟨y, hpath, hdirect⟩ := (mem_follow hg.symbolsExist hs).1 ht
    clear ht hs
    induction hpath using Relation.ReflTransGen.head_induction_on with
    | refl => exact hfull.exists_derives_of_mem_followDirectly hg hreach hdirect
    | head hedge _ ih =>
      obtain ⟨o, ho, rfl, rfl, -, hempty⟩ := endsIn_iff.1 hedge
      obtain ⟨i, p, hp, hleft, -, α, hright⟩ := mem_occurrences.1 ho
      obtain ⟨hterminal, before, after, hderives⟩ := ih
      have hlast : o.after = [] := by
        rw [hfull.afterwards_eq hg] at hempty
        cases hrest : o.after with
        | nil => rfl
        | cons y rest => simp [hrest] at hempty
      rw [hlast] at hright
      rw [hleft] at hderives
      refine ⟨hterminal, before ++ α, after, ?_⟩
      simpa [hright] using hderives.expand hp
  · rw [follow_of_le (Nat.le_of_not_lt hs)] at ht
    exact absurd ht (SortedSet.not_mem_empty t)

end NoEmptyRule

/-! ## Section 4: The grammar of a specification -/

/-- **FIRST and FOLLOW are exact** in a grammar without empty rules all of whose
    nonterminals are reachable: FIRST of a symbol has the terminals with which the
    strings begin that it derives, and FOLLOW of a nonterminal has the terminals that
    come right after it in the strings that the start symbol and the end mark derive. -/
theorem lookahead_exact_of_parse {spec : String} (hparse : parse spec = .ok g)
    (hfull : g.NoEmptyRule) (hreach : g.AllReachable) :
    (∀ s t, t ∈ g.lookahead.first s ↔ g.isTerminal t = true ∧ ∃ w, g.Derives [s] (t :: w)) ∧
      ∀ s t, g.isTerminal s = false →
        (t ∈ g.lookahead.follow s ↔ g.isTerminal t = true ∧
          ∃ before after, g.Derives [g.startSymbol, g.endMark] (before ++ s :: t :: after)) := by
  have hg := wellFormed_of_parse hparse
  have hempty := hfull.emptyByRule hg
  constructor
  · intro s t
    constructor
    · exact hfull.exists_derives_of_mem_first hg
    · rintro ⟨hterminal, w, hw⟩
      exact mem_first_of_derives hg hempty hterminal hw
  · intro s t hs
    constructor
    · exact hfull.exists_derives_of_mem_follow hg hreach
    · rintro ⟨hterminal, before, after, hderives⟩
      exact mem_follow_of_derives hg hempty hderives rfl hs hterminal (.refl (t :: after))

/-- Left recursion, and two nonterminals with which the other's right sides begin: an
    `s` can come before an `'x'`, because a `c` can and may end in an `s`, but no string
    has an `s` before a `'z'`. -/
theorem lookahead_exact_of_parse_mutual :
    ∃ g s x y z w, parse "%% s : s 'a' b | b ; b : c 'x' | 'y' ; c : b 'z' s | 'w' ; %%" = .ok g ∧
      [s, x, y, z, w].map g.symbolName = ["s", "'x'", "'y'", "'z'", "'w'"] ∧
      g.NoEmptyRule ∧ g.AllReachable ∧
      (∀ t, (g.isTerminal t = true ∧ ∃ after, g.Derives [s] (t :: after)) ↔ t = y ∨ t = w) ∧
      (∃ before after, g.Derives [g.startSymbol, g.endMark] (before ++ s :: x :: after)) ∧
      ¬ ∃ before after, g.Derives [g.startSymbol, g.endMark] (before ++ s :: z :: after) := by
  have hfacts : (parse "%% s : s 'a' b | b ; b : c 'x' | 'y' ; c : b 'z' s | 'w' ; %%").map
      (fun g => decide (g.terminalCount = 7 ∧ g.symbolCount = 11 ∧ g.startSymbol = 8 ∧
        g.acceptSymbol = 7 ∧
        [8, 3, 4, 5, 6].map g.symbolName = ["s", "'x'", "'y'", "'z'", "'w'"] ∧
        (∀ p ∈ g.productions.toList, p.right ≠ []) ∧
        (8, [9]) ∈ g.productions.toList.map (fun p => (p.left, p.right)) ∧
        (9, [10, 3]) ∈ g.productions.toList.map (fun p => (p.left, p.right)) ∧
        (g.lookahead.first 8).toList = [4, 6] ∧ (g.lookahead.follow 8).toList = [1, 2, 3]))
        = .ok true := by
    decide +kernel
  obtain ⟨g, hparse, hterminals, hcount, hstart, haccept, hnames, hright, hruleS, hruleB,
    hfirst, hfollow⟩ := exists_of_map_decide hfacts
  have hfull : g.NoEmptyRule := fun p hp => hright p (Array.mem_toList_iff.2 hp)
  have hb : g.Derives [g.startSymbol] [9] := hstart ▸ .of_mem_sides hruleS
  have hc : g.Derives [g.startSymbol] [10, 3] := hb.trans (.of_mem_sides hruleB)
  have hreach : g.AllReachable := by
    intro s hs hnonterminal hne
    have hle : 7 ≤ s := by simpa [isTerminal, hterminals] using hnonterminal
    obtain rfl | rfl | rfl : s = 8 ∨ s = 9 ∨ s = 10 := by omega
    · exact ⟨[], [], hstart ▸ .refl⟩
    · exact ⟨[], [], hb⟩
    · exact ⟨[], [3], hc⟩
  obtain ⟨hexactFirst, hexactFollow⟩ := lookahead_exact_of_parse hparse hfull hreach
  have hnonterminal : g.isTerminal 8 = false := by simp [isTerminal, hterminals]
  refine ⟨g, 8, 3, 4, 5, 6, hparse, hnames, hfull, hreach, ?_, ?_, ?_⟩
  · intro t
    rw [← hexactFirst, SortedSet.mem_def, hfirst]
    simp
  · have hx : 3 ∈ g.lookahead.follow 8 := by simp [SortedSet.mem_def, hfollow]
    exact ((hexactFollow 8 3 hnonterminal).1 hx).2
  · intro hderives
    have hterminal : g.isTerminal 5 = true := by simp [isTerminal, hterminals]
    have hz := (hexactFollow 8 5 hnonterminal).2 ⟨hterminal, hderives⟩
    simp [SortedSet.mem_def, hfollow] at hz

end Grammar

end SlrCompiler
