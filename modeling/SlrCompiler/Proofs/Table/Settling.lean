import SlrCompiler.Table.ActionTable

/-! # One cell at a time

    Two actions that meet in a cell are settled. What is chosen is one of them, and
    the cell does not become blank by it. Of two rules `RulesMeet` says once all that
    can come.

    The proposals of a state are taken up for its whole row, but a cell is touched by
    the proposals for its own terminal only. So it can be looked at alone: it ends with
    what its own proposals, settled in their order, lead to (`settleAll`), and the
    decisions about it are the ones made on the way (`cell_decideAll`). What holds of
    every settlement then holds of cells by induction on a list of actions, and no row
    is in sight.
-/

namespace SlrCompiler

namespace Grammar

variable {g : Grammar}

/-! ## Section 1: Two actions -/

variable (g) in
/-- All that can come of two rules that meet: the one of the higher level stays or comes, a rule
    that meets itself stays, and otherwise the one with the greater number is taken by default. -/
inductive RulesMeet (r q : Nat) : Settlement → Prop
  | stays {a b : Precedence} : g.productionPrecedence r = some a →
      g.productionPrecedence q = some b → b.level < a.level → RulesMeet r q ⟨.reduce r, none⟩
  | comes {a b : Precedence} : g.productionPrecedence r = some a →
      g.productionPrecedence q = some b → a.level < b.level → RulesMeet r q ⟨.reduce q, none⟩
  | same : r = q → RulesMeet r q ⟨.reduce q, none⟩
  | byDefault : r ≠ q → (∀ a b, g.productionPrecedence r = some a →
      g.productionPrecedence q = some b → a.level = b.level) →
      RulesMeet r q ⟨.reduce (max r q), some .reduceReduce⟩

theorem rulesMeet_settleReduceReduce (r q : Nat) :
    g.RulesMeet r q (g.settleReduceReduce r q) := by
  unfold settleReduceReduce
  by_cases hsame : r = q
  · rw [if_pos hsame]
    exact .same hsame
  rw [if_neg hsame]
  cases hr : g.productionPrecedence r with
  | none => exact .byDefault hsame (by simp [hr])
  | some a =>
    cases hq : g.productionPrecedence q with
    | none => exact .byDefault hsame (by simp [hq])
    | some b =>
      rcases Nat.lt_trichotomy a.level b.level with hup | hlevel | hdown
      · simpa [hup] using RulesMeet.comes hr hq hup
      · simpa [hlevel] using RulesMeet.byDefault hsame (by simp [hr, hq, hlevel])
      · simpa [hdown, Nat.lt_asymm hdown] using RulesMeet.stays hr hq hdown

/-- An action stays when it meets itself, without a conflict. -/
theorem settle_self {terminal : Nat} {a : Action} : g.settle terminal a a = ⟨a, none⟩ := by
  cases a <;> simp [settle, settleReduceReduce]

/-- One of the two actions is chosen. -/
theorem chosen_settle_eq_or (terminal : Nat) (a b : Action) :
    (g.settle terminal a b).chosen = a ∨ (g.settle terminal a b).chosen = b := by
  have hshift : ∀ target rule,
      (g.settleShiftReduce terminal target rule).chosen = .shift target ∨
        (g.settleShiftReduce terminal target rule).chosen = .reduce rule := by
    intro target rule
    unfold settleShiftReduce
    split <;> simp
  have hreduce : ∀ r s, (g.settleReduceReduce r s).chosen = .reduce r ∨
      (g.settleReduceReduce r s).chosen = .reduce s := by
    intro r s
    have hmeet : g.RulesMeet r s (g.settleReduceReduce r s) := rulesMeet_settleReduceReduce r s
    generalize g.settleReduceReduce r s = settled at hmeet ⊢
    cases hmeet with
    | stays => exact .inl rfl
    | comes => exact .inr rfl
    | same => exact .inr rfl
    | byDefault =>
      have hmax : max r s = r ∨ max r s = s := by omega
      exact hmax.imp (congrArg Action.reduce) (congrArg Action.reduce)
  unfold settle
  -- the cases are those of `settle`, in its order
  split
  · exact .inr rfl
  · exact (hshift _ _).symm
  · exact hshift _ _
  · exact hreduce _ _
  · exact .inl rfl
  · exact .inr rfl
  · exact .inr rfl
  · exact .inl rfl

/-- What holds of both actions holds of the chosen one. -/
theorem of_chosen_settle {motive : Action → Prop} {terminal : Nat} {a b : Action}
    (ha : motive a) (hb : motive b) : motive (g.settle terminal a b).chosen := by
  rcases g.chosen_settle_eq_or terminal a b with heq | heq
  · rwa [heq]
  · rwa [heq]

/-- Settling an action with another one does not blank the cell. -/
theorem chosen_settle_ne_error {terminal : Nat} {a b : Action} (h : a ≠ .error ∨ b ≠ .error) :
    (g.settle terminal a b).chosen ≠ .error := by
  by_cases ha : a = .error
  · subst ha
    simpa [settle] using h
  · by_cases hb : b = .error
    · subst hb
      cases a <;> simp [settle] at ha ⊢
    · -- neither is a blank, so neither is what is chosen
      exact of_chosen_settle (motive := (· ≠ .error)) ha hb

end Grammar

/-! A decision is noted as a conflict exactly if it went by default, and the note is about the
    same cell and the same choice. -/

theorem Decision.conflict?_eq_none_iff {d : Decision} :
    d.conflict? = none ↔ d.settlement.conflict = none := by
  simp [conflict?]

theorem Decision.of_conflict?_eq_some {d : Decision} {c : Conflict} (h : d.conflict? = some c) :
    c.state = d.state ∧ c.terminal = d.terminal ∧ c.chosen = d.settlement.chosen := by
  obtain ⟨kind, -, rfl⟩ := Option.map_eq_some_iff.1 h
  exact ⟨rfl, rfl, rfl⟩

/-! ## Section 2: One cell of a row -/

/-- What is proposed for the cell of a terminal, in order. -/
def Proposal.actionsFor (x : Nat) (ps : List Proposal) : List Action :=
  (ps.filter fun q => q.terminal = x).map Proposal.action

theorem Proposal.mem_actionsFor {x : Nat} {ps : List Proposal} {b : Action} :
    b ∈ actionsFor x ps ↔ ⟨x, b⟩ ∈ ps := by
  simp only [actionsFor, List.mem_map, List.mem_filter, decide_eq_true_eq]
  constructor
  · rintro ⟨q, ⟨hq, rfl⟩, rfl⟩
    exact hq
  · intro hmem
    exact ⟨⟨x, b⟩, ⟨hmem, rfl⟩, rfl⟩

/-- What is read off the row after an action is set. -/
theorem IndexMap.action_set (row : IndexMap Action) (t x : Nat) (a : Action) :
    (row.set t a).action x = if t = x then a else row.action x := by
  unfold IndexMap.action
  rw [IndexMap.find_set]
  split <;> rfl

namespace Grammar

variable (g : Grammar)

/-- What a cell holds once some actions have been proposed for it. -/
def settleAll (x : Nat) (held : Action) : List Action → Action
  | [] => held
  | b :: rest => settleAll x (g.settle x held b).chosen rest

/-- The decisions about a cell for which some actions are proposed. -/
def decisionsFor (state x : Nat) (held : Action) : List Action → List Decision
  | [] => []
  | b :: rest =>
    ⟨state, x, held, b, g.settle x held b⟩ ::
      decisionsFor state x (g.settle x held b).chosen rest

/-- **One cell**: what a row holds for a terminal, and which decisions were made about it. -/
theorem cell_decideAll (state : Nat) (row : IndexMap Action) (ps : List Proposal) (x : Nat) :
    (g.decideAll state row ps).1.action x =
        g.settleAll x (row.action x) (Proposal.actionsFor x ps) ∧
      ((g.decideAll state row ps).2.filter fun d => d.terminal = x) =
        g.decisionsFor state x (row.action x) (Proposal.actionsFor x ps) := by
  induction ps generalizing row with
  | nil => exact ⟨rfl, rfl⟩
  | cons q rest ih =>
    obtain ⟨haction, hdecisions⟩ :=
      ih (row.set q.terminal (g.decision state row q).settlement.chosen)
    rw [IndexMap.action_set] at haction hdecisions
    by_cases hx : q.terminal = x
    · subst hx
      rw [if_pos rfl] at haction hdecisions
      have hfor : Proposal.actionsFor q.terminal (q :: rest) =
          q.action :: Proposal.actionsFor q.terminal rest := by
        simp [Proposal.actionsFor]
      rw [hfor]
      refine ⟨haction, ?_⟩
      rw [decideAll, List.filter_cons_of_pos (by simp [decision]), hdecisions]
      rfl
    · -- the proposal is for another cell, and so is the decision on it
      rw [if_neg hx] at haction hdecisions
      have hfor : Proposal.actionsFor x (q :: rest) = Proposal.actionsFor x rest := by
        simp [Proposal.actionsFor, hx]
      rw [hfor]
      refine ⟨haction, ?_⟩
      rw [decideAll, List.filter_cons_of_neg (by simp [decision, hx]), hdecisions]

variable {g}

/-! ## Section 3: What a cell holds -/

/-- One step leaves what was there or the first of the actions that are proposed. -/
theorem chosen_settle_eq_or_mem (x : Nat) (held b : Action) (rest : List Action) :
    (g.settle x held b).chosen = held ∨ (g.settle x held b).chosen ∈ b :: rest := by
  rcases g.chosen_settle_eq_or x held b with hchosen | hchosen
  · exact .inl hchosen
  · rw [hchosen]
    exact .inr List.mem_cons_self

/-- A cell holds what it held before or something proposed for it. -/
theorem settleAll_eq_or (x : Nat) (held : Action) (bs : List Action) :
    g.settleAll x held bs = held ∨ g.settleAll x held bs ∈ bs := by
  induction bs generalizing held with
  | nil => exact .inl rfl
  | cons b rest ih =>
    unfold settleAll
    rcases ih (g.settle x held b).chosen with heq | hmem
    · rw [heq]
      exact chosen_settle_eq_or_mem x held b rest
    · exact .inr (List.mem_cons_of_mem b hmem)

/-- A cell stays filled, and it is filled once something is proposed for it. -/
theorem settleAll_ne_error {x : Nat} {held : Action} {bs : List Action}
    (h : held ≠ .error ∨ ∃ b ∈ bs, b ≠ .error) : g.settleAll x held bs ≠ .error := by
  induction bs generalizing held with
  | nil => simpa [settleAll] using h
  | cons b rest ih =>
    apply ih
    rcases h with hheld | ⟨c, hc, hproper⟩
    · exact .inl (chosen_settle_ne_error (.inl hheld))
    · rcases List.mem_cons.1 hc with rfl | hc
      · exact .inl (chosen_settle_ne_error (.inr hproper))
      · exact .inr ⟨c, hc, hproper⟩

/-- A decision is about what is proposed and what the cell held: what it held at first, or what
    was proposed before. -/
theorem of_mem_decisionsFor {state x : Nat} {held : Action} {bs : List Action} {d : Decision}
    (hd : d ∈ g.decisionsFor state x held bs) :
    d.state = state ∧ d.terminal = x ∧ d.proposed ∈ bs ∧
      (d.existing = held ∨ d.existing ∈ bs) ∧
      d.settlement = g.settle x d.existing d.proposed := by
  induction bs generalizing held with
  | nil => simp [decisionsFor] at hd
  | cons b rest ih =>
    rcases List.mem_cons.1 hd with rfl | hd
    · exact ⟨rfl, rfl, List.mem_cons_self, .inl rfl, rfl⟩
    · obtain ⟨hstate, hterminal, hproposed, hexisting, hsettled⟩ := ih hd
      refine ⟨hstate, hterminal, List.mem_cons_of_mem b hproposed, ?_, hsettled⟩
      rcases hexisting with hexisting | hexisting
      · -- the cell held what was chosen for the first proposal
        rw [hexisting]
        exact chosen_settle_eq_or_mem x held b rest
      · exact .inr (List.mem_cons_of_mem b hexisting)

section Alone

/- An action of a cell that is in conflict with all others that may be proposed. -/
variable {x : Nat} {a : Action} {proposed : Action → Prop}
  (hconflict : ∀ b, proposed b →
    (g.settle x a b).conflict = none ∨ (g.settle x b a).conflict = none → b = a)
include hconflict

/-- Where it is settled without a conflict, it is settled with itself or with a
    blank. -/
theorem chosen_settle_eq {held b : Action} (hheld : held = .error ∨ proposed held)
    (hb : proposed b) (hnone : (g.settle x held b).conflict = none)
    (h : held = a ∨ b = a ∨ (g.settle x held b).chosen = a) :
    (held = .error ∨ held = a) ∧ b = a ∧ (g.settle x held b).chosen = a := by
  have hof : held = a → b = a := by
    intro heq
    exact hconflict b hb (.inl (heq ▸ hnone))
  -- Whichever way the action comes in, what is proposed is that action.
  have hsame : b = a := by
    rcases h with h | h | h
    · exact hof h
    · exact h
    · rcases g.chosen_settle_eq_or x held b with heq | heq
      · exact hof (heq.symm.trans h)
      · exact heq.symm.trans h
  subst hsame
  have hbefore : held = .error ∨ held = b := by
    rcases hheld with hblank | hheld
    · exact .inl hblank
    · exact .inr (hconflict held hheld (.inr hnone))
  refine ⟨hbefore, rfl, ?_⟩
  rcases hbefore with rfl | rfl
  · rfl
  · exact (g.chosen_settle_eq_or x held held).elim id id

/-- Where a cell is filled without a conflict, the action is alone in it: the cell held nothing
    else, nothing else is proposed, and the cell holds it in the end. -/
theorem settleAll_eq {state : Nat} {held : Action} {bs : List Action}
    (hproper : ∀ b, proposed b → b ≠ .error) (hheld : held = .error ∨ proposed held)
    (hbs : ∀ b ∈ bs, proposed b)
    (hnone : ∀ d ∈ g.decisionsFor state x held bs, d.settlement.conflict = none)
    (h : held = a ∨ a ∈ bs) :
    g.settleAll x held bs = a ∧ (held = .error ∨ held = a) ∧ ∀ b ∈ bs, b = a := by
  induction bs generalizing held with
  | nil =>
    have hheld := h.resolve_right List.not_mem_nil
    exact ⟨hheld, .inr hheld, by simp⟩
  | cons b rest ih =>
    have hb : proposed b := hbs b List.mem_cons_self
    have hfilled : (g.settle x held b).chosen ≠ .error :=
      chosen_settle_ne_error (.inr (hproper b hb))
    have hsettle := chosen_settle_eq hconflict hheld hb (hnone _ List.mem_cons_self)
    have hnext : (g.settle x held b).chosen = a ∨ a ∈ rest := by
      rcases h with h | h
      · exact .inl (hsettle (.inl h)).2.2
      · rcases List.mem_cons.1 h with heq | h
        · exact .inl (hsettle (.inr (.inl heq.symm))).2.2
        · exact .inr h
    have hproposed : proposed (g.settle x held b).chosen := by
      rcases hheld with rfl | hheld
      · exact hb
      · exact of_chosen_settle hheld hb
    -- the rest is settled alike, which says what was chosen here
    obtain ⟨hfinal, hchosen, hothers⟩ := ih (.inr hproposed)
      (fun c hc => hbs c (List.mem_cons_of_mem b hc))
      (fun d hd => hnone d (List.mem_cons_of_mem _ hd)) hnext
    obtain ⟨hbefore, hthis, -⟩ := hsettle (.inr (.inr (hchosen.resolve_left hfilled)))
    exact ⟨hfinal, hbefore, List.forall_mem_cons.2 ⟨hthis, hothers⟩⟩

end Alone

end Grammar

end SlrCompiler
