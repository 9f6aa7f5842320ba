import SlrCompiler.Grammar.Lookahead
import SlrCompiler.Proofs.Finite.Saturation
import SlrCompiler.Proofs.Grammar.Derivation
import SlrCompiler.Proofs.Grammar.Resolution

/-! # FIRST and FOLLOW cover the true sets

    The three fixed points by their elements, and what they leave out of what a
    grammar derives: nothing that is empty lacks the empty marker
    (`mem_nullableSymbols_of_yields`), and FIRST and FOLLOW miss no terminal
    (`exists_mem_first_of_yields`, `mem_follow_of_derives`), as long as the walk
    along a right side is never ended by its own left side without need. It is
    when the left side derives the empty string but has no empty rule; that is
    what `EmptyByRule` excludes. `lookahead_covers_of_parse` puts them together
    for the grammar of a specification.
-/

namespace SlrCompiler

namespace Grammar

variable (g : Grammar)

/-! ## Section 1: The empty marker -/

/-- The recorded left sides of empty rules are symbols. -/
def EpsilonExists : Prop := ∀ s ∈ g.epsilon, s < g.symbolCount

/-- Where a left side that derives the empty string occurs in its own right side,
    it has an empty rule. -/
def EmptyByRule : Prop :=
  ∀ (i : Nat) (p : Production), g.productions[i]? = some p → p.left ∈ p.right →
    g.Derives [p.left] [] →
    ∃ (j : Nat) (q : Production), g.productions[j]? = some q ∧ q.left = p.left ∧ q.right = []

variable {g}

theorem WellFormed.epsilonExists (h : g.WellFormed) : g.EpsilonExists := by
  intro s hs
  obtain ⟨i, p, hp, rfl, -⟩ := (h.mem_epsilon s).1 hs
  exact (h.symbolsExist i p hp).1

theorem mem_showing {s : SortedSet Nat} {x : Nat} :
    x ∈ g.showing s ↔ ∃ (i : Nat) (p : Production), g.productions[i]? = some p ∧ p.left = x ∧
      ∃ y ∈ g.shown (· ∈ s) p.left p.right, y ∈ s := by
  simp only [showing, List.mem_map, List.mem_filter, Array.mem_toList_iff,
    Array.mem_iff_getElem?, List.any_eq_true, decide_eq_true_eq]
  constructor
  · intro h
    obtain ⟨p, ⟨⟨i, hi⟩, hshown⟩, hleft⟩ := h
    exact ⟨i, p, hi, hleft, hshown⟩
  · intro h
    obtain ⟨i, p, hi, hleft, hshown⟩ := h
    exact ⟨p, ⟨⟨i, hi⟩, hshown⟩, hleft⟩

theorem mem_nullableSymbols_of_mem_epsilon {s : Nat} (h : s ∈ g.epsilon) :
    s ∈ g.nullableSymbols :=
  mem_saturate_of_mem (SortedSet.mem_ofList.2 h)

/-- A left side that shows a symbol with the marker carries it too. -/
theorem mem_nullableSymbols_of_shown (hg : g.SymbolsExist) (hepsilon : g.EpsilonExists)
    {i : Nat} {p : Production} (hp : g.productions[i]? = some p) {y : Nat}
    (hy : y ∈ g.shown (· ∈ g.nullableSymbols) p.left p.right) (hmarked : y ∈ g.nullableSymbols) :
    p.left ∈ g.nullableSymbols := by
  have hderive : ∀ s : SortedSet Nat, (∀ x ∈ s, x ∈ List.range g.symbolCount) →
      ∀ x ∈ g.showing s, x ∈ List.range g.symbolCount := by
    intro s _ x hx
    obtain ⟨j, q, hq, rfl, -⟩ := mem_showing.1 hx
    exact List.mem_range.2 (hg j q hq).1
  have hstart : ∀ x ∈ SortedSet.ofList g.epsilon, x ∈ List.range g.symbolCount := by
    intro x hx
    exact List.mem_range.2 (hepsilon x (SortedSet.mem_ofList.1 hx))
  have hclosed : ∀ x ∈ g.showing g.nullableSymbols, x ∈ g.nullableSymbols :=
    saturate_closed hderive hstart (by simp [rounds]; omega)
  exact hclosed _ (mem_showing.2 ⟨i, p, hp, rfl, y, hy, hmarked⟩)

/-- **The empty marker**: all symbols of a string that derives the empty string
    carry it. -/
theorem mem_nullableSymbols_of_yields (hg : g.WellFormed) {φ w : List Nat}
    (h : g.Yields φ w) (hw : w = []) : ∀ s ∈ φ, s ∈ g.nullableSymbols := by
  induction h with
  | nil => simp
  | keep s _ _ => simp at hw
  | @expand i p φ v w hp _ _ ihright ih =>
    obtain ⟨rfl, rfl⟩ := List.append_eq_nil_iff.1 hw
    intro s hs
    rcases List.mem_cons.1 hs with rfl | hs
    · have hall := ihright rfl
      cases hright : p.right with
      | nil =>
        apply mem_nullableSymbols_of_mem_epsilon
        exact (hg.mem_epsilon _).2 ⟨i, p, hp, rfl, hright⟩
      | cons y rest =>
        have hy : y ∈ g.nullableSymbols := hall y (by simp [hright])
        -- The left side itself at the front carries the marker by induction already.
        by_cases hleft : y = p.left
        · exact hleft ▸ hy
        · refine mem_nullableSymbols_of_shown hg.symbolsExist hg.epsilonExists hp ?_ hy
          simp [hright, shown, hleft, hy]
    · exact ih rfl s hs

theorem nullable_of_yields (hg : g.WellFormed) {φ : List Nat} (h : g.Yields φ []) :
    ∀ s ∈ φ, g.lookahead.nullable s = true := by
  intro s hs
  exact decide_eq_true (mem_nullableSymbols_of_yields hg h rfl s hs)

variable (g) in
/-- What `EmptyByRule` says, for all left sides that carry the marker. -/
def MarkedByRule : Prop :=
  ∀ p ∈ g.productions.toList, p.left ∈ p.right → p.left ∈ g.nullableSymbols → p.left ∈ g.epsilon

instance : Decidable g.MarkedByRule :=
  inferInstanceAs (Decidable (∀ p ∈ g.productions.toList, p.left ∈ p.right →
    p.left ∈ g.nullableSymbols → p.left ∈ g.epsilon))

/-- A left side that does not carry the marker does not derive the empty string. -/
theorem MarkedByRule.emptyByRule (h : g.MarkedByRule) (hg : g.WellFormed) : g.EmptyByRule := by
  intro i p hp hself hderives
  have hmarked : p.left ∈ g.nullableSymbols :=
    mem_nullableSymbols_of_yields hg hderives.yields rfl p.left List.mem_cons_self
  have hmem : p ∈ g.productions.toList := Array.mem_toList_iff.2 (Array.mem_of_getElem? hp)
  exact (hg.mem_epsilon _).1 (h p hmem hself hmarked)

/-! ## Section 2: FIRST -/

theorem getD_map_symbols {α : Type} (f : Nat → α) (d : α) {s : Nat} (hs : s < g.symbolCount) :
    ((g.symbols.map f).toArray).getD s d = f s := by
  simp [symbols, hs]

theorem mem_showEdges {nullable : Nat → Bool} {x y : Nat} :
    (x, y) ∈ g.showEdges nullable ↔ ∃ (i : Nat) (p : Production), g.productions[i]? = some p ∧
      p.left = x ∧ y ∈ g.shown nullable p.left p.right := by
  simp only [showEdges, List.mem_flatMap, Array.mem_toList_iff, Array.mem_iff_getElem?,
    List.mem_map, Prod.mk.injEq]
  constructor
  · intro h
    obtain ⟨p, ⟨i, hi⟩, s, hs, hleft, heq⟩ := h
    exact ⟨i, p, hi, hleft, heq ▸ hs⟩
  · intro h
    obtain ⟨i, p, hi, hleft, hy⟩ := h
    exact ⟨p, ⟨i, hi⟩, y, hy, hleft, rfl⟩

theorem mem_of_mem_shown {nullable : Nat → Bool} {left y : Nat} {right : List Nat}
    (h : y ∈ g.shown nullable left right) : y ∈ right := by
  induction right with
  | nil => simp [shown] at h
  | cons s rest ih =>
    unfold shown at h
    split at h
    · split at h
      · exact List.mem_cons_of_mem s (ih h)
      · simp at h
    · split at h
      · rcases List.mem_cons.1 h with rfl | h
        · exact List.mem_cons_self
        · exact List.mem_cons_of_mem s (ih h)
      · rw [List.mem_singleton.1 h]
        exact List.mem_cons_self

/-- The walk along a right side gets past symbols that it can step over. -/
theorem mem_shown_of_append {nullable : Nat → Bool} {left y : Nat} {α β : List Nat}
    (hα : ∀ s ∈ α, nullable s = true) (hleft : left ∈ α → left ∈ g.epsilon) (hy : y ≠ left) :
    y ∈ g.shown nullable left (α ++ y :: β) := by
  induction α with
  | nil =>
    rw [List.nil_append, shown, if_neg hy]
    split <;> simp
  | cons s α ih =>
    have htail := ih (fun x hx => hα x (List.mem_cons_of_mem s hx))
      (fun hmem => hleft (List.mem_cons_of_mem s hmem))
    rw [List.cons_append, shown]
    by_cases hs : s = left
    · rw [if_pos hs, if_pos (hleft (hs ▸ List.mem_cons_self))]
      exact htail
    · rw [if_neg hs, if_pos (hα s List.mem_cons_self)]
      exact List.mem_cons_of_mem s htail

theorem mem_range_of_mem_singleton {s : Nat} (hs : s < g.symbolCount) :
    ∀ x ∈ SortedSet.singleton s, x ∈ List.range g.symbolCount := by
  intro x hx
  rw [SortedSet.mem_singleton.1 hx]
  exact List.mem_range.2 hs

theorem first_eq {s : Nat} (hs : s < g.symbolCount) :
    g.lookahead.first s = g.firstAlong (g.showEdges g.lookahead.nullable) s :=
  getD_map_symbols _ _ hs

/-- FIRST: the terminals to which the shown symbols lead. -/
theorem mem_first (hg : g.SymbolsExist) {s t : Nat} (hs : s < g.symbolCount) :
    t ∈ g.lookahead.first s ↔ g.isTerminal t = true ∧
      Relation.ReflTransGen (fun x y => (x, y) ∈ g.showEdges g.lookahead.nullable) s t := by
  have hedges : ∀ e ∈ g.showEdges g.lookahead.nullable, e.2 ∈ List.range g.symbolCount := by
    rintro ⟨x, y⟩ he
    obtain ⟨i, p, hp, -, hy⟩ := mem_showEdges.1 he
    exact List.mem_range.2 ((hg i p hp).2 y (mem_of_mem_shown hy))
  rw [first_eq hs, firstAlong, SortedSet.mem_filter,
    mem_reach_iff hedges (mem_range_of_mem_singleton hs) (by simp [rounds]), and_comm]
  simp

/-- A terminal is in its own FIRST. -/
theorem mem_first_self (hg : g.SymbolsExist) {t : Nat} (ht : g.isTerminal t = true) :
    t ∈ g.lookahead.first t := by
  have hlt : t < g.symbolCount := by
    have := isTerminal_iff.1 ht
    simp only [symbolCount]
    omega
  exact (mem_first hg hlt).2 ⟨ht, .refl⟩

/-- FIRST of a symbol that a left side shows is in FIRST of the left side. -/
theorem mem_first_of_shown (hg : g.SymbolsExist) {i : Nat} {p : Production}
    (hp : g.productions[i]? = some p) {y t : Nat}
    (hy : y ∈ g.shown g.lookahead.nullable p.left p.right)
    (ht : t ∈ g.lookahead.first y) : t ∈ g.lookahead.first p.left := by
  obtain ⟨hleft, hright⟩ := hg i p hp
  obtain ⟨hterminal, hpath⟩ := (mem_first hg (hright y (mem_of_mem_shown hy))).1 ht
  exact (mem_first hg hleft).2 ⟨hterminal, .head (mem_showEdges.2 ⟨i, p, hp, rfl, hy⟩) hpath⟩

/-- **FIRST**: the terminal with which a derived string begins comes from FIRST of
    some symbol, and all symbols before that one derive the empty string. -/
theorem exists_mem_first_of_yields (hg : g.WellFormed) (hempty : g.EmptyByRule)
    {t : Nat} (ht : g.isTerminal t = true) {φ x w : List Nat} (h : g.Yields φ x)
    (hx : x = t :: w) :
    ∃ α y β, φ = α ++ y :: β ∧ g.Yields α [] ∧ t ∈ g.lookahead.first y := by
  induction h generalizing w with
  | nil => simp at hx
  | @keep s φ _ _ _ =>
    obtain ⟨rfl, -⟩ := List.cons.inj hx
    exact ⟨[], s, φ, rfl, .nil, mem_first_self hg.symbolsExist ht⟩
  | @expand i p φ v _ hp hright _ ihright ih =>
    cases v with
    | nil =>
      -- The symbol at the front yields nothing; the terminal comes from a later one.
      obtain ⟨α, y, β, rfl, hα, hy⟩ := ih hx
      exact ⟨p.left :: α, y, β, rfl, by simpa using Yields.expand hp hright hα, hy⟩
    | cons u v =>
      obtain ⟨rfl, -⟩ := List.cons.inj hx
      -- The walk along the right side reaches `y`, unless it is ended before.
      obtain ⟨α, y, β, hsplit, hα, hy⟩ := ihright rfl
      refine ⟨[], p.left, φ, rfl, .nil, ?_⟩
      by_cases hyleft : y = p.left
      · exact hyleft ▸ hy
      refine mem_first_of_shown hg.symbolsExist hp ?_ hy
      rw [hsplit]
      refine mem_shown_of_append (nullable_of_yields hg hα) (fun hmem => ?_) hyleft
      · -- The left side is among the symbols that derive the empty string.
        obtain ⟨α₁, α₂, rfl⟩ := List.append_of_mem hmem
        obtain ⟨v₁, v₂, hv, -, hrest⟩ := hα.split
        obtain ⟨-, rfl⟩ := List.append_eq_nil_iff.1 hv.symm
        have hfront : g.Yields ([p.left] ++ α₂) [] := hrest
        obtain ⟨u₁, u₂, hu, hleft, -⟩ := hfront.split
        obtain ⟨rfl, -⟩ := List.append_eq_nil_iff.1 hu.symm
        obtain ⟨j, q, hq, hqleft, hqright⟩ :=
          hempty i p hp (by simp [hsplit]) hleft.derives
        exact (hg.mem_epsilon _).2 ⟨j, q, hq, hqleft, hqright⟩

/-- FIRST of a sequence takes in FIRST of a symbol after nullable ones. -/
theorem mem_firstOfSequence {first : Nat → SortedSet Nat} {nullable : Nat → Bool}
    {α β : List Nat} {y t : Nat} (hα : ∀ s ∈ α, nullable s = true) (ht : t ∈ first y) :
    t ∈ (firstOfSequence first nullable (α ++ y :: β)).1 := by
  induction α with
  | nil =>
    rw [List.nil_append, firstOfSequence]
    split
    · exact SortedSet.mem_union.2 (.inl ht)
    · exact ht
  | cons s α ih =>
    rw [List.cons_append, firstOfSequence, if_pos (hα s List.mem_cons_self)]
    exact SortedSet.mem_union.2 (.inr (ih fun x hx => hα x (List.mem_cons_of_mem s hx)))

theorem firstOfSequence_snd {first : Nat → SortedSet Nat} {nullable : Nat → Bool}
    {α : List Nat} (hα : ∀ s ∈ α, nullable s = true) :
    (firstOfSequence first nullable α).2 = true := by
  induction α with
  | nil => rfl
  | cons s α ih =>
    rw [firstOfSequence, if_pos (hα s List.mem_cons_self)]
    exact ih fun x hx => hα x (List.mem_cons_of_mem s hx)

/-! ## Section 3: FOLLOW -/

theorem mem_occurrencesIn {left : Nat} {right : List Nat} {o : Occurrence} :
    o ∈ g.occurrencesIn left right ↔ o.left = left ∧ g.isTerminal o.symbol = false ∧
      ∃ α, right = α ++ o.symbol :: o.after := by
  obtain ⟨l, symbol, after⟩ := o
  induction right with
  | nil => simp [occurrencesIn]
  | cons s rest ih =>
    -- A symbol stands at the first place of the right side, or behind it.
    have hsplit : (∃ α, s :: rest = α ++ symbol :: after) ↔
        (s = symbol ∧ rest = after) ∨ ∃ α, rest = α ++ symbol :: after := by
      constructor
      · intro h
        obtain ⟨α, hα⟩ := h
        cases α with
        | nil => exact .inl (List.cons.inj hα)
        | cons x α => exact .inr ⟨α, (List.cons.inj hα).2⟩
      · intro h
        rcases h with ⟨rfl, rfl⟩ | ⟨α, rfl⟩
        · exact ⟨[], rfl⟩
        · exact ⟨s :: α, rfl⟩
    simp only at ih hsplit ⊢
    rw [hsplit, occurrencesIn]
    by_cases hs : g.isTerminal s = true
    · rw [if_pos hs, ih]
      grind
    · rw [if_neg hs, List.mem_cons, ih]
      simp only [Occurrence.mk.injEq]
      grind

/-- Every nonterminal in a right side is an occurrence. -/
theorem mem_occurrences {o : Occurrence} :
    o ∈ g.occurrences ↔ ∃ (i : Nat) (p : Production), g.productions[i]? = some p ∧
      o.left = p.left ∧ g.isTerminal o.symbol = false ∧
      ∃ α, p.right = α ++ o.symbol :: o.after := by
  simp only [occurrences, List.mem_flatMap, Array.mem_toList_iff, Array.mem_iff_getElem?,
    mem_occurrencesIn]
  constructor
  · intro h
    obtain ⟨p, ⟨i, hi⟩, h⟩ := h
    exact ⟨i, p, hi, h⟩
  · intro h
    obtain ⟨i, p, hi, h⟩ := h
    exact ⟨p, ⟨i, hi⟩, h⟩

theorem mem_foldl_union {β : Type} (f : β → SortedSet Nat) (items : List β)
    (s : SortedSet Nat) (t : Nat) :
    t ∈ items.foldl (fun s b => s.union (f b)) s ↔ t ∈ s ∨ ∃ b ∈ items, t ∈ f b := by
  induction items generalizing s with
  | nil => simp
  | cons b rest ih =>
    rw [List.foldl_cons, ih, SortedSet.mem_union]
    simp only [List.mem_cons, exists_eq_or_imp]
    exact or_assoc

theorem mem_followDirectly {after : List Nat → SortedSet Nat × Bool} {s t : Nat} :
    t ∈ g.followDirectly after s ↔ (s = g.startSymbol ∧ t = g.endMark) ∨
      ∃ o ∈ g.occurrences, o.symbol = s ∧ t ∈ (after o.after).1 := by
  rw [followDirectly, mem_foldl_union]
  simp only [List.mem_filter, decide_eq_true_eq, and_assoc]
  apply or_congr_left
  by_cases hs : s = g.startSymbol
  · simp [hs]
  · simp [hs]

variable (g) in
/-- FIRST of what stands after an occurrence, and whether all of it carries the
    empty marker. -/
def afterwards (after : List Nat) : SortedSet Nat × Bool :=
  firstOfSequence g.lookahead.first g.lookahead.nullable after

variable (g) in
/-- FOLLOW of the second nonterminal belongs to that of the first: the first one
    can stand at the end of a right side of the second. -/
def EndsIn (x y : Nat) : Prop := (x, y) ∈ g.followEdges g.afterwards

theorem endsIn_iff {x y : Nat} :
    g.EndsIn x y ↔ ∃ o ∈ g.occurrences, o.symbol = x ∧ o.left = y ∧ x ≠ y ∧
      (g.afterwards o.after).2 = true := by
  simp only [EndsIn, followEdges, List.mem_map, List.mem_filter, Bool.and_eq_true, bne_iff_ne,
    Prod.mk.injEq]
  constructor
  · intro h
    obtain ⟨o, ⟨ho, hafter, hne⟩, hsymbol, hleft⟩ := h
    exact ⟨o, ho, hsymbol, hleft, by rw [← hsymbol, ← hleft]; exact hne.symm, hafter⟩
  · intro h
    obtain ⟨o, ho, hsymbol, hleft, hne, hafter⟩ := h
    exact ⟨o, ⟨ho, hafter, by rw [hsymbol, hleft]; exact hne.symm⟩, hsymbol, hleft⟩

theorem follow_eq {s : Nat} (hs : s < g.symbolCount) :
    g.lookahead.follow s = g.followAlong (g.symbols.map (g.followDirectly g.afterwards)).toArray
      (g.followEdges g.afterwards) s :=
  getD_map_symbols _ _ hs

/-- FOLLOW: what comes directly after some symbol at whose end this one can
    stand. -/
theorem mem_follow (hg : g.SymbolsExist) {s t : Nat} (hs : s < g.symbolCount) :
    t ∈ g.lookahead.follow s ↔
      ∃ y, Relation.ReflTransGen g.EndsIn s y ∧ t ∈ g.followDirectly g.afterwards y := by
  have hedges : ∀ e ∈ g.followEdges g.afterwards, e.2 ∈ List.range g.symbolCount := by
    rintro ⟨x, y⟩ he
    obtain ⟨o, ho, -, rfl, -⟩ := endsIn_iff.1 he
    obtain ⟨i, p, hp, hleft, -⟩ := mem_occurrences.1 ho
    exact List.mem_range.2 (hleft ▸ (hg i p hp).1)
  have hstart := mem_range_of_mem_singleton hs
  have hlt : ∀ y ∈ reach (g.followEdges g.afterwards) g.rounds (.singleton s),
      y < g.symbolCount := by
    intro y hy
    obtain ⟨x, hx, hpath⟩ := exists_path_of_mem_reach hy
    cases hpath with
    | refl => exact List.mem_range.1 (hstart _ hx)
    | tail _ hedge => exact List.mem_range.1 (hedges _ hedge)
  rw [follow_eq hs, followAlong, mem_foldl_union]
  simp only [SortedSet.not_mem_empty, false_or, ← SortedSet.mem_def]
  constructor
  · intro h
    obtain ⟨y, hy, ht⟩ := h
    rw [getD_map_symbols _ _ (hlt y hy)] at ht
    obtain ⟨x, hx, hpath⟩ := exists_path_of_mem_reach hy
    obtain rfl := SortedSet.mem_singleton.1 hx
    exact ⟨y, hpath, ht⟩
  · intro h
    obtain ⟨y, hpath, ht⟩ := h
    have hy : y ∈ reach (g.followEdges g.afterwards) g.rounds (.singleton s) :=
      (mem_reach_iff hedges hstart (by simp [rounds])).2 ⟨s, SortedSet.mem_singleton.2 rfl, hpath⟩
    exact ⟨y, hy, by rwa [getD_map_symbols _ _ (hlt y hy)]⟩

/-- FOLLOW of the start symbol has the end mark. -/
theorem endMark_mem_follow (hg : g.WellFormed) :
    g.endMark ∈ g.lookahead.follow g.startSymbol :=
  (mem_follow hg.symbolsExist hg.startSymbol_lt).2
    ⟨_, .refl, mem_followDirectly.2 (.inl ⟨rfl, rfl⟩)⟩

section Occurrences

variable (hg : g.SymbolsExist) {i : Nat} {p : Production} (hp : g.productions[i]? = some p)
  {α β : List Nat} {s t : Nat} (hright : p.right = α ++ s :: β) (hs : g.isTerminal s = false)
include hg hp hright hs

/-- FOLLOW of a symbol has what comes first of the symbols after it. -/
theorem mem_follow_of_mem_afterwards (ht : t ∈ (g.afterwards β).1) :
    t ∈ g.lookahead.follow s := by
  have hlt : s < g.symbolCount := (hg i p hp).2 s (by simp [hright])
  have hoccurs : (⟨p.left, s, β⟩ : Occurrence) ∈ g.occurrences :=
    mem_occurrences.2 ⟨i, p, hp, rfl, hs, α, hright⟩
  exact (mem_follow hg hlt).2 ⟨s, .refl, mem_followDirectly.2 (.inr ⟨_, hoccurs, rfl, ht⟩)⟩

/-- FOLLOW of a symbol has that of the left side, if nothing need come after the
    symbol. -/
theorem mem_follow_of_mem_follow_left (hβ : (g.afterwards β).2 = true)
    (ht : t ∈ g.lookahead.follow p.left) : t ∈ g.lookahead.follow s := by
  have hlt : s < g.symbolCount := (hg i p hp).2 s (by simp [hright])
  have hoccurs : (⟨p.left, s, β⟩ : Occurrence) ∈ g.occurrences :=
    mem_occurrences.2 ⟨i, p, hp, rfl, hs, α, hright⟩
  by_cases hleft : s = p.left
  · exact hleft ▸ ht
  · have hends : g.EndsIn s p.left := endsIn_iff.2 ⟨_, hoccurs, rfl, rfl, hleft, hβ⟩
    obtain ⟨y, hpath, hy⟩ := (mem_follow hg (hg i p hp).1).1 ht
    exact (mem_follow hg hlt).2 ⟨y, hpath.head hends, hy⟩

end Occurrences

/-- The start symbol is the only nonterminal before a derivation begins. -/
theorem WellFormed.eq_of_start_split (hg : g.WellFormed) {α β : List Nat} {s : Nat}
    (hsplit : [g.startSymbol, g.endMark] = α ++ s :: β) (hs : g.isTerminal s = false) :
    s = g.startSymbol ∧ β = [g.endMark] := by
  cases α with
  | nil =>
    obtain ⟨hstart, hend⟩ := List.cons.inj hsplit
    exact ⟨hstart.symm, hend.symm⟩
  | cons x α =>
    obtain ⟨-, hrest⟩ := List.cons.inj hsplit
    have hmem : s ∈ [g.endMark] := by simp [hrest]
    rw [List.mem_singleton.1 hmem, hg.endMark_terminal] at hs
    simp at hs

/-- **FOLLOW**: whatever terminal a nonterminal is followed by in a string that
    the start symbol and the end mark derive is in its FOLLOW set. -/
theorem mem_follow_of_derives (hg : g.WellFormed) (hempty : g.EmptyByRule) {φ : List Nat}
    (hφ : g.Derives [g.startSymbol, g.endMark] φ) {α β w : List Nat} {s t : Nat}
    (hsplit : φ = α ++ s :: β) (hs : g.isTerminal s = false) (ht : g.isTerminal t = true)
    (hβ : g.Yields β (t :: w)) : t ∈ g.lookahead.follow s := by
  -- The symbol is traced back through the derivation to the production that put it in.
  induction hφ generalizing α β w s with
  | refl =>
    obtain ⟨rfl, rfl⟩ := hg.eq_of_start_split hsplit hs
    obtain ⟨rfl, -⟩ := List.cons.inj (hg.eq_of_yields hg.allTerminal_endMark hβ)
    exact endMark_mem_follow hg
  | tail _ hstep ih =>
    obtain ⟨i, p, before, after, hp, rfl, rfl⟩ := hstep
    rcases eq_of_append_eq_append_cons hsplit with
      ⟨x, rfl, rfl⟩ | ⟨γ, η, hright, rfl, rfl⟩ | ⟨x, rfl, rfl⟩
    · -- It stood before the piece already.
      have hundone : g.Yields (x ++ p.left :: after) (t :: w) :=
        .of_rewrites ⟨p, x, after, hp, rfl, rfl⟩ hβ
      have heq : α ++ s :: x ++ p.left :: after = α ++ s :: (x ++ p.left :: after) := by simp
      exact ih heq hs hundone
    · obtain ⟨v, u, hvu, hη, hafter⟩ := hβ.split
      cases v with
      | nil =>
        -- Nothing comes of what stands after the symbol in the right side.
        obtain rfl : t :: w = u := hvu
        have hfollow := ih rfl (hg.left_nonterminal hp) hafter
        exact mem_follow_of_mem_follow_left hg.symbolsExist hp hright hs
          (firstOfSequence_snd (nullable_of_yields hg hη)) hfollow
      | cons z v =>
        obtain ⟨rfl, -⟩ := List.cons.inj hvu
        obtain ⟨η₁, y, η₂, rfl, hη₁, hy⟩ := exists_mem_first_of_yields hg hempty ht hη rfl
        exact mem_follow_of_mem_afterwards hg.symbolsExist hp hright hs
          (mem_firstOfSequence (nullable_of_yields hg hη₁) hy)
    · -- It stood after the piece already.
      have heq : before ++ p.left :: (x ++ s :: β) = before ++ p.left :: x ++ s :: β := by simp
      exact ih heq hs hβ

/-! ## Section 4: The grammar of a specification -/

/-- The terminal with which a string begins that a single symbol derives is in
    FIRST of that symbol. -/
theorem mem_first_of_derives (hg : g.WellFormed) (hempty : g.EmptyByRule) {s t : Nat}
    {w : List Nat} (ht : g.isTerminal t = true) (h : g.Derives [s] (t :: w)) :
    t ∈ g.lookahead.first s := by
  obtain ⟨α, y, β, hsplit, -, hy⟩ := exists_mem_first_of_yields hg hempty ht h.yields rfl
  -- A single symbol leaves no room for others before it.
  cases α with
  | nil =>
    obtain ⟨rfl, -⟩ := List.cons.inj hsplit
    exact hy
  | cons x α => simp at hsplit

/-- **FIRST and FOLLOW cover the true sets**: what derives the empty string is
    nullable. If moreover what is empty and occurs in its own rules is empty by
    rule, then FIRST has every terminal with which a symbol can begin, and FOLLOW
    every terminal that can come right after a nonterminal before the end. -/
theorem lookahead_covers_of_parse {spec : String} (hparse : parse spec = .ok g) :
    (∀ s, g.isTerminal s = false → g.Derives [s] [] → g.lookahead.nullable s = true) ∧
      (g.EmptyByRule →
        (∀ s t w, g.isTerminal t = true → g.Derives [s] (t :: w) → t ∈ g.lookahead.first s) ∧
        ∀ s t before after, g.isTerminal s = false → g.isTerminal t = true →
          g.Derives [g.startSymbol, g.endMark] (before ++ s :: t :: after) →
          t ∈ g.lookahead.follow s) := by
  have hg := wellFormed_of_parse hparse
  constructor
  · intro s _ hderives
    exact nullable_of_yields hg hderives.yields s List.mem_cons_self
  · intro hempty
    constructor
    · intro s t w ht hderives
      exact mem_first_of_derives hg hempty ht hderives
    · intro s t before after hs ht hderives
      exact mem_follow_of_derives hg hempty hderives rfl hs ht (.refl (t :: after))

/-- Elements that can be empty, in a list that is empty by rule: the `'c'` that
    comes after the list can come first, and after a shorter list an `'x'` can. -/
theorem lookahead_covers_of_parse_list :
    ∃ g s l e c x, parse "%% s : l 'c' ; l : l e | ; e : 'x' | ; %%" = .ok g ∧
      [s, l, e, c, x].map g.symbolName = ["s", "l", "e", "'c'", "'x'"] ∧ g.EmptyByRule ∧
      g.Derives [e] [] ∧ g.lookahead.nullable e = true ∧
      g.Derives [s] [c] ∧ c ∈ g.lookahead.first s ∧
      g.Derives [g.startSymbol, g.endMark] [l, x, c, g.endMark] ∧ x ∈ g.lookahead.follow l := by
  have hfacts : (parse "%% s : l 'c' ; l : l e | ; e : 'x' | ; %%").map (fun g => decide
      (g.MarkedByRule ∧ g.terminalCount = 4 ∧ g.startSymbol = 5 ∧ g.endMark = 1 ∧
        [5, 6, 7, 2, 3].map g.symbolName = ["s", "l", "e", "'c'", "'x'"] ∧
        g.productions.toList.map (fun p => (p.left, p.right))
          = [(4, [5]), (5, [6, 2]), (6, [6, 7]), (6, []), (7, [3]), (7, [])])) = .ok true := by
    decide +kernel
  obtain ⟨g, hparse, hmarked, hcount, hstart, hend, hnames, hproductions⟩ :=
    exists_of_map_decide hfacts
  have hrule : ∀ left right,
      (left, right) ∈ g.productions.toList.map (fun p => (p.left, p.right)) →
        g.Derives [left] right :=
    fun _ _ => .of_mem_sides
  rw [hproductions] at hrule
  have hnull : g.Derives [7] [] := hrule 7 [] (by decide)
  have hfirst : g.Derives [5] [2] :=
    (hrule 5 [6, 2] (by decide)).trans ((hrule 6 [] (by decide)).context [] [2])
  have hfollow : g.Derives [g.startSymbol, g.endMark] [6, 3, 2, g.endMark] := by
    rw [hstart, hend]
    have hs : g.Derives [5, 1] [6, 2, 1] := (hrule 5 [6, 2] (by decide)).context [] [1]
    have hl : g.Derives [6, 2, 1] [6, 7, 2, 1] := (hrule 6 [6, 7] (by decide)).context [] [2, 1]
    have he : g.Derives [6, 7, 2, 1] [6, 3, 2, 1] := (hrule 7 [3] (by decide)).context [6] [2, 1]
    exact (hs.trans hl).trans he
  have hterminal : ∀ s, s < 4 → g.isTerminal s = true := fun s hs => isTerminal_iff.2 (hcount ▸ hs)
  have hnonterminal : ∀ s, 4 ≤ s → g.isTerminal s = false := by
    intro s hs
    simpa [isTerminal, hcount] using hs
  have hempty := hmarked.emptyByRule (wellFormed_of_parse hparse)
  obtain ⟨hnullable, hcovers⟩ := lookahead_covers_of_parse hparse
  obtain ⟨hfirsts, hfollows⟩ := hcovers hempty
  exact ⟨g, 5, 6, 7, 2, 3, hparse, hnames, hempty, hnull,
    hnullable 7 (hnonterminal 7 (by omega)) hnull, hfirst,
    hfirsts 5 2 [] (hterminal 2 (by omega)) hfirst, hfollow,
    hfollows 6 3 [] [2, g.endMark] (hnonterminal 6 (by omega)) (hterminal 3 (by omega)) hfollow⟩

end Grammar

end SlrCompiler
