import SlrCompiler.Proofs.Table.ParseTable

/-! # Cells that precedence settles

    Where precedence decides between a shift and a reduction, it decides the same
    way in whichever order the two are proposed, and no conflict is noted
    (`settle_of_favoured`). An action that wins against every other candidate of its
    cell is what the cell holds in the end, also after losers have been taken up
    before it (`Candidate.actionAt_of_wins`). A table has no conflicts if no two
    candidates of a cell are in conflict (`conflicts_eq_nil_of_parseTable`).
-/

namespace SlrCompiler

/-! ## Section 1: Preferences -/

/-- The action on the preferred side. -/
def Preference.action (target rule : Nat) : Preference → Action
  | .shift => .shift target
  | .reduce => .reduce rule

namespace Precedence

variable {terminal rule : Precedence}

theorem favoured_eq_shift_iff : favoured terminal rule = some .shift ↔
    rule.level < terminal.level ∨
      rule.level = terminal.level ∧ terminal.associativity = .right := by
  unfold favoured
  rcases lt_trichotomy rule.level terminal.level with hlt | heq | hgt
  · simp [hlt]
  · cases hassociativity : terminal.associativity <;> simp [heq]
  · simp [hgt, hgt.not_gt, hgt.ne']

theorem favoured_eq_reduce_iff : favoured terminal rule = some .reduce ↔
    terminal.level < rule.level ∨
      rule.level = terminal.level ∧ terminal.associativity = .left := by
  unfold favoured
  rcases lt_trichotomy rule.level terminal.level with hlt | heq | hgt
  · simp [hlt, hlt.not_gt, hlt.ne]
  · cases hassociativity : terminal.associativity <;> simp [heq]
  · simp [hgt, hgt.not_gt]

/-- Something is favoured, but for a tie of a nonassociative terminal. -/
theorem exists_favoured (rule : Precedence) (h : terminal.associativity ≠ .nonassoc) :
    ∃ preference, favoured terminal rule = some preference := by
  unfold favoured
  split
  · exact ⟨_, rfl⟩
  split
  · exact ⟨_, rfl⟩
  cases hassociativity : terminal.associativity with
  | right => exact ⟨_, rfl⟩
  | left => exact ⟨_, rfl⟩
  | nonassoc => exact absurd hassociativity h

end Precedence

namespace Grammar

variable {g : Grammar} {x : Nat} {a : Action}

/-- What precedence favours is chosen, whichever is proposed first, and without a
    conflict. -/
theorem settle_of_favoured (target : Nat) {rule : Nat} {preference : Preference}
    (h : Precedence.favoured? (g.precedenceOf x) (g.productionPrecedence rule)
      = some preference) :
    g.settle x (.shift target) (.reduce rule) = ⟨preference.action target rule, none⟩ ∧
      g.settle x (.reduce rule) (.shift target) = ⟨preference.action target rule, none⟩ := by
  simp only [settle, settleShiftReduce, h]
  cases preference <;> exact ⟨rfl, rfl⟩

/-! ## Section 2: Actions that win -/

/-- An action that wins against all that may be proposed is what the cell holds in
    the end: it stays once it is there, and it displaces what was there before. -/
theorem settleAll_of_wins {proposed : Action → Prop}
    (hwins : ∀ b, proposed b → (g.settle x a b).chosen = a ∧ (g.settle x b a).chosen = a)
    {held : Action} {bs : List Action} (hheld : held = .error ∨ proposed held)
    (hbs : ∀ b ∈ bs, proposed b) (h : held = a ∨ a ∈ bs) : g.settleAll x held bs = a := by
  induction bs generalizing held with
  | nil => exact h.resolve_right List.not_mem_nil
  | cons b rest ih =>
    have hb : proposed b := hbs b List.mem_cons_self
    have hchosen : (g.settle x held b).chosen = .error ∨ proposed (g.settle x held b).chosen :=
      of_chosen_settle (motive := fun a => a = .error ∨ proposed a) hheld (.inr hb)
    refine ih hchosen (fun c hc => hbs c (List.mem_cons_of_mem b hc)) ?_
    rcases h with rfl | h
    · exact .inl (hwins b hb).1
    rcases List.mem_cons.1 h with rfl | h
    · left
      rcases hheld with rfl | hheld
      · rfl
      · exact (hwins held hheld).2
    · exact .inr h

/-! ## Section 3: The table -/

variable {t : ParseTable} {s : Nat} {st : State}

/-- **A candidate that wins** against all others is what its cell holds. -/
theorem Candidate.actionAt_of_wins (h : g.parseTable = .ok t)
    (hst : g.automaton.states[s]? = some st) (hx : x < g.terminalCount)
    (ha : g.Candidate g.lookahead st x a)
    (hwins : ∀ b, g.Candidate g.lookahead st x b →
      (g.settle x a b).chosen = a ∧ (g.settle x b a).chosen = a) : t.actionAt s x = a := by
  obtain ⟨bs, hbs, hcell, -⟩ := exists_settled_of_parseTable h hst hx
  rw [hcell]
  exact settleAll_of_wins hwins (.inl rfl) (fun b hb => (hbs b).1 hb) (.inr ((hbs a).2 ha))

/-- A table has no conflicts if no two candidates are in conflict. -/
theorem conflicts_eq_nil_of_parseTable (h : g.parseTable = .ok t)
    (hnone : ∀ (s x : Nat) (st : State) (a b : Action), g.automaton.states[s]? = some st →
      g.Candidate g.lookahead st x a → g.Candidate g.lookahead st x b →
      (g.settle x a b).conflict = none) : t.conflicts = [] := by
  obtain ⟨actions, hactions, rfl⟩ := exists_assemble h
  show actions.decisions.filterMap Decision.conflict? = []
  rw [List.filterMap_eq_nil_iff]
  intro d hd
  obtain ⟨st, hst, hproposed, hexisting, hsettled⟩ := exists_candidate_of_mem_decisions hactions hd
  rw [Decision.conflict?, hsettled]
  rcases hexisting with hblank | hheld
  · rw [hblank]
    rfl
  · rw [hnone _ _ _ _ _ hst hheld hproposed]
    rfl

end Grammar

end SlrCompiler
