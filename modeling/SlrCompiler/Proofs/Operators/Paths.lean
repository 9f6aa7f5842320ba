import SlrCompiler.Proofs.Grammar.Lookahead
import SlrCompiler.Proofs.Recognition.Path
import SlrCompiler.Proofs.Table.Precedence

/-! # Operator grammars: the paths of their automata

    The rules of an operator grammar are `e : e op e` for each of its operators and
    `e : n` for its operand. Every path of its automaton is made of pairs of an `e`
    and an operator (`Open`), and at most one symbol more: an `n`, which is a right
    side, or an `e`. Only after `e op e` do a shift and a reduction meet, and there
    precedence decides; so no cell has a conflict (`conflicts_eq_nil`), and what the
    cell after `e op e` holds says what is favoured (`exists_favours_of_operation`).
    Where an operand and operators come in turn, no cell is blank
    (`actionAt_ne_error`).
-/

namespace SlrCompiler

namespace Grammar

variable (g : Grammar)

/-! ## Section 1: Operator grammars -/

/-- Some rule has the symbol between two start symbols. -/
def IsOperator (x : Nat) : Prop :=
  ∃ (i : Nat) (p : Production), g.productions[i]? = some p ∧
    p.right = [g.startSymbol, x, g.startSymbol]

/-- The rules are those of an operator grammar with the given operand. Each operator
    has a precedence, and its rules have the same one. -/
structure OperatorRules (operand : Nat) : Prop where
  wellFormed : g.WellFormed
  operand_terminal : g.isTerminal operand = true
  operator_terminal : ∀ {x : Nat}, g.IsOperator x → g.isTerminal x = true
  operator_ne : ∀ {x : Nat}, g.IsOperator x → x ≠ operand
  production : ∀ {i : Nat} {p : Production}, g.productions[i]? = some p → i ≠ 0 →
    p.left = g.startSymbol ∧
      (p.right = [operand] ∨ ∃ x, p.right = [g.startSymbol, x, g.startSymbol])
  exists_operand : ∃ (i : Nat) (p : Production), i ≠ 0 ∧ g.productions[i]? = some p ∧
    p.right = [operand]
  precedence : ∀ {i x : Nat} {p : Production}, g.productions[i]? = some p →
    p.right = [g.startSymbol, x, g.startSymbol] → p.precedence = g.precedenceOf x ∧
      ∃ precedence, g.precedenceOf x = some precedence ∧ precedence.associativity ≠ .nonassoc

/-- What precedence favours when an operation of the second operator is complete and the
    first operator comes next. -/
def Favours (preference : Preference) (x y : Nat) : Prop :=
  Precedence.favoured? (g.precedenceOf x) (g.precedenceOf y) = some preference

/-- Pairs of a start symbol and an operator, the last operator first. -/
inductive Open : List Nat → Prop
  | nil : Open []
  | cons {x : Nat} {γ : List Nat} : g.IsOperator x → Open γ → Open (x :: g.startSymbol :: γ)

/-- What is proposed for the cell of a terminal at the end of a path: to read the
    operand where one is expected and an operator after a start symbol, and to reduce
    what is complete. -/
inductive Offers (n : Nat) (γ : List Nat) (x : Nat) : Action → Prop
  | shiftOperand {target : Nat} : x = n → g.Open γ → Offers n γ x (.shift target)
  | shiftOperator {target : Nat} {δ : List Nat} : g.IsOperator x → γ = g.startSymbol :: δ →
      g.Open δ → Offers n γ x (.shift target)
  | reduceOperand {rule : Nat} {q : Production} {δ : List Nat} :
      g.productions[rule]? = some q → q.right = [n] → γ = n :: δ → g.Open δ →
      Offers n γ x (.reduce rule)
  | reduceOperation {rule y : Nat} {q : Production} {δ : List Nat} :
      g.productions[rule]? = some q → q.right = [g.startSymbol, y, g.startSymbol] →
      γ = g.startSymbol :: y :: g.startSymbol :: δ → g.Open δ → Offers n γ x (.reduce rule)
  | accept : x = g.endMark → γ = [g.startSymbol] → Offers n γ x .accept

/-- Operands and operators come in turn: the operand where one is expected, and after
    it, or the start symbol, an operator or the end. -/
inductive Continues (n : Nat) : List Nat → Nat → Prop
  | operand {γ : List Nat} : g.Open γ → Continues n γ n
  | after {s x : Nat} {γ : List Nat} : s = n ∨ s = g.startSymbol → g.Open γ →
      g.IsOperator x ∨ x = g.endMark → Continues n (s :: γ) x

variable {g}

/-- A reduction takes the operand or an operation off the path, and leaves an open one. -/
theorem Offers.reduce_cases {n x rule : Nat} {γ δ : List Nat} {q : Production}
    (hoffers : g.Offers n γ x (.reduce rule)) (hq : g.productions[rule]? = some q)
    (hγ : γ = q.right.reverse ++ δ) :
    g.Open δ ∧ (q.right = [n] ∧ γ = n :: δ ∨
      ∃ y, q.right = [g.startSymbol, y, g.startSymbol] ∧
        γ = g.startSymbol :: y :: g.startSymbol :: δ) := by
  cases hoffers with
  | @reduceOperand _ _ η hq' hright hγ' hη =>
    obtain rfl := Option.some.inj (hq.symm.trans hq')
    obtain rfl : δ = η := by simpa [hright, hγ'] using hγ.symm
    exact ⟨hη, .inl ⟨hright, hγ'⟩⟩
  | @reduceOperation _ y _ η hq' hright hγ' hη =>
    obtain rfl := Option.some.inj (hq.symm.trans hq')
    obtain rfl : δ = η := by simpa [hright, hγ'] using hγ.symm
    exact ⟨hη, .inr ⟨y, hright, hγ'⟩⟩

namespace OperatorRules

variable {n : Nat} (h : g.OperatorRules n)
include h

theorem startSymbol_nonterminal : g.isTerminal g.startSymbol = false := by
  obtain ⟨i, p, hi, hp, -⟩ := h.exists_operand
  rw [← (h.production hp hi).1]
  exact h.wellFormed.left_nonterminal hp

theorem ne_startSymbol {x : Nat} (hx : g.isTerminal x = true) : x ≠ g.startSymbol := by
  intro heq
  rw [heq, h.startSymbol_nonterminal] at hx
  exact Bool.false_ne_true hx

/-- The rule of an operator is not the augmenting one. -/
theorem ne_zero {i x : Nat} {p : Production} (hp : g.productions[i]? = some p)
    (hright : p.right = [g.startSymbol, x, g.startSymbol]) : i ≠ 0 :=
  h.wellFormed.ne_zero_of_length hp (by simp [hright])

/-! ## Section 2: What a path reads -/

/-- What an item can expect, and the end of its path there: the start symbol or the
    operand after an open path, an operator after a start symbol. -/
theorem expected_cases {i k s : Nat} {p : Production} {δ : List Nat}
    (hp : g.productions[i]? = some p) (hδ : g.Open δ) (hk : p.right[k]? = some s) :
    ((s = g.startSymbol ∨ s = n) ∧ g.Open ((p.right.take k).reverse ++ δ)) ∨
      g.IsOperator s ∧ (p.right.take k).reverse ++ δ = g.startSymbol :: δ := by
  have hmem := List.mem_of_getElem? hk
  have hlt := (List.getElem?_eq_some_iff.1 hk).1
  by_cases hi : i = 0
  · have hright := h.wellFormed.rightSide_zero
    rw [← hi, rightSide_eq hp] at hright
    rw [hright] at hmem hlt ⊢
    obtain rfl : k = 0 := by simpa using hlt
    exact .inl ⟨.inl (List.mem_singleton.1 hmem), hδ⟩
  rcases (h.production hp hi).2 with hright | ⟨x, hright⟩
  · rw [hright] at hmem hlt ⊢
    obtain rfl : k = 0 := by simpa using hlt
    exact .inl ⟨.inr (List.mem_singleton.1 hmem), hδ⟩
  · have hx : g.IsOperator x := ⟨i, p, hp, hright⟩
    rw [hright] at hk hlt ⊢
    simp only [List.length_cons, List.length_nil] at hlt
    -- The dot is before the left operand, the operator or the right operand.
    obtain rfl | rfl | rfl : k = 0 ∨ k = 1 ∨ k = 2 := by omega
    · exact .inl ⟨.inl (Option.some.inj hk).symm, hδ⟩
    · exact .inr ⟨Option.some.inj hk ▸ hx, rfl⟩
    · exact .inl ⟨.inl (Option.some.inj hk).symm, .cons hx hδ⟩

/-- Where the start symbol is expected the path is open. -/
theorem open_of_expected {i k : Nat} {p : Production} {δ : List Nat}
    (hp : g.productions[i]? = some p) (hδ : g.Open δ) (hk : p.right[k]? = some g.startSymbol) :
    g.Open ((p.right.take k).reverse ++ δ) := by
  rcases h.expected_cases hp hδ hk with ⟨-, hopen⟩ | ⟨hx, -⟩
  · exact hopen
  · exact absurd rfl (h.ne_startSymbol (h.operator_terminal hx))

/-- An item stands behind an open path, with the symbols before its dot. -/
theorem exists_open_of_reads {γ : List Nat} {i : Item} (hi : g.Reads γ i) :
    ∃ p δ, g.productions[i.production]? = some p ∧ g.Open δ ∧
      γ = (p.right.take i.position).reverse ++ δ := by
  -- What is behind an item does not change as its dot moves on. A rule that begins there
  -- has the whole path behind it, which is open since a start symbol is expected.
  induction hi with
  | start =>
    obtain ⟨p, hp, -⟩ := h.wellFormed.augmenting
    exact ⟨p, [], hp, .nil, rfl⟩
  | @expand γ j s m hj hnext hm ih =>
    obtain ⟨p, δ, hp, hδ, rfl⟩ := ih
    obtain ⟨-, q, hq, rfl⟩ := mem_productionsOf.1 hm
    have hleft := (h.production hq (h.wellFormed.ne_zero_of_expected hnext hm)).1
    rw [Item.nextSymbol, rightSide_eq hp, hleft] at hnext
    exact ⟨q, _, hq, h.open_of_expected hp hδ hnext, rfl⟩
  | @advance γ j s hj hnext ih =>
    obtain ⟨p, δ, hp, hδ, rfl⟩ := ih
    rw [Item.nextSymbol, rightSide_eq hp] at hnext
    exact ⟨p, δ, hp, hδ, by simp [List.take_add_one, hnext]⟩

/-- A path where the start symbol is expected is open. -/
theorem open_of_reads {γ : List Nat} {i : Item} (hi : g.Reads γ i)
    (hnext : i.nextSymbol g = some g.startSymbol) : g.Open γ := by
  obtain ⟨p, δ, hp, hδ, rfl⟩ := h.exists_open_of_reads hi
  rw [Item.nextSymbol, rightSide_eq hp] at hnext
  exact h.open_of_expected hp hδ hnext

/-- All rules but the augmenting one begin at the end of an open path. -/
theorem reads_of_open {γ : List Nat} (hγ : g.Open γ) {i : Nat} {p : Production}
    (hp : g.productions[i]? = some p) (hi : i ≠ 0) : g.Reads γ (.initial i) := by
  -- The rule of the last operator began before it, so all rules are read together.
  have hmem : ∀ {j : Nat} {q : Production}, g.productions[j]? = some q → j ≠ 0 →
      j ∈ g.productionsOf g.startSymbol := fun hq hj =>
    mem_productionsOf.2 ⟨h.startSymbol_nonterminal, _, hq, (h.production hq hj).1⟩
  induction hγ generalizing i p with
  | nil =>
    refine Reads.start.expand ?_ (hmem hp hi)
    rw [Item.nextSymbol, Item.production_initial, h.wellFormed.rightSide_zero]
    rfl
  | @cons x γ hx hγ ih =>
    obtain ⟨j, q, hq, hright⟩ := hx
    have hmoved := (ih hq (h.ne_zero hq hright)).advance_to hq (k := 2) (by simp [hright])
    rw [hright] at hmoved
    refine hmoved.expand ?_ (hmem hp hi)
    rw [Item.nextSymbol, rightSide_eq hq, hright]
    rfl

/-- An open path does not end with an operand or the start symbol. -/
theorem not_open_cons {s : Nat} {δ : List Nat} (hs : s = n ∨ s = g.startSymbol) :
    ¬ g.Open (s :: δ) := by
  intro hopen
  cases hopen with
  | cons hx _ =>
    rcases hs with heq | heq
    · exact h.operator_ne hx heq
    · exact h.ne_startSymbol (h.operator_terminal hx) heq

/-! ## Section 3: What a path proposes -/

section State

variable {l : Lookahead} {st : State} {γ : List Nat} (hitems : ∀ i, i ∈ st.items ↔ g.Reads γ i)
include hitems

theorem offers_of_candidate {x : Nat} {a : Action} (ha : g.Candidate l st x a) :
    g.Offers n γ x a := by
  cases a with
  | error =>
    obtain ⟨i, -, hi⟩ := ha
    exact absurd rfl hi.ne_error
  | accept =>
    obtain ⟨hend, hγ⟩ := ha.of_accept h.wellFormed hitems
    exact .accept hend hγ
  | reduce rule =>
    obtain ⟨q, δ, j, hq, hne, hγ, hj, hnext⟩ := ha.of_reduce h.wellFormed hitems
    obtain ⟨hleft, hright⟩ := h.production hq hne
    have hδ := h.open_of_reads hj (hleft ▸ hnext)
    rcases hright with hright | ⟨y, hright⟩
    · exact .reduceOperand hq hright (by simp [hγ, hright]) hδ
    · exact .reduceOperation hq hright (by simp [hγ, hright]) hδ
  | shift target =>
    obtain ⟨i, hi, hproposes⟩ := ha
    cases hproposes with
    | shift hnext hx _ =>
      obtain ⟨p, δ, hp, hδ, hγ⟩ := h.exists_open_of_reads ((hitems i).1 hi)
      rw [Item.nextSymbol, rightSide_eq hp] at hnext
      rw [hγ]
      -- A terminal after the dot is the operand, or an operator behind an operand.
      rcases h.expected_cases hp hδ hnext with ⟨heq, hopen⟩ | ⟨hoperator, hpath⟩
      · exact .shiftOperand (heq.resolve_left (h.ne_startSymbol hx)) hopen
      · exact .shiftOperator hoperator hpath hδ

/-- Only one reduction is proposed. -/
theorem eq_of_candidate_reduce {x y rule other : Nat} (hrule : g.Candidate l st x (.reduce rule))
    (hother : g.Candidate l st y (.reduce other)) : rule = other := by
  obtain ⟨q, δ, j, hq, hne, hγ, -⟩ := hrule.of_reduce h.wellFormed hitems
  obtain ⟨r, η, k, hr, hne', hγ', -⟩ := hother.of_reduce h.wellFormed hitems
  obtain ⟨hleft, hright⟩ := h.production hq hne
  obtain ⟨hleft', hright'⟩ := h.production hr hne'
  have hmatch := hrule.matchProduction_eq hq
  have hmatch' := hother.matchProduction_eq hr
  -- Both right sides end the path, so they are the same one, and the rule that is reduced
  -- is the first with that right side.
  have hsame : q.right = r.right := by
    have hoperand := h.ne_startSymbol h.operand_terminal
    rcases hright with hright | ⟨z, hright⟩ <;> rcases hright' with hright' | ⟨z', hright'⟩
    · rw [hright, hright']
    · simp [hγ, hright, hright', hoperand] at hγ'
    · simp [hγ, hright, hright', hoperand.symm] at hγ'
    · simp only [hγ, hright, hright', List.reverse_cons, List.reverse_nil, List.nil_append,
        List.cons_append, List.cons.injEq, true_and] at hγ'
      rw [hright, hright', hγ'.1]
  rw [hleft, hsame, ← hleft', hmatch'] at hmatch
  exact (Option.some.inj hmatch).symm

/-- A shift and a reduction are proposed together only after an operation. There
    precedence decides. -/
theorem exists_favours {x target rule : Nat} (hshift : g.Candidate l st x (.shift target))
    (hreduce : g.Candidate l st x (.reduce rule)) :
    ∃ y δ preference, γ = g.startSymbol :: y :: g.startSymbol :: δ ∧ g.Favours preference x y ∧
      Precedence.favoured? (g.precedenceOf x) (g.productionPrecedence rule) = some preference := by
  have hreduced := h.offers_of_candidate hitems hreduce
  cases h.offers_of_candidate hitems hshift with
  | shiftOperand _ hopen =>
    -- An operand is read on an open path, where nothing is complete.
    cases hreduced with
    | reduceOperand _ _ hγ _ => exact absurd (hγ ▸ hopen) (h.not_open_cons (.inl rfl))
    | reduceOperation _ _ hγ _ => exact absurd (hγ ▸ hopen) (h.not_open_cons (.inr rfl))
  | @shiftOperator _ δ hx hγ hδ =>
    cases hreduced with
    | reduceOperand _ _ hγ' _ =>
      exact absurd (List.cons.inj (hγ'.symm.trans hγ)).1 (h.ne_startSymbol h.operand_terminal)
    | @reduceOperation _ y q _ hq hright hγ' _ =>
      obtain ⟨i, p, hp, hpright⟩ := hx
      obtain ⟨-, precedence, hprecedence, hassociativity⟩ := h.precedence hp hpright
      obtain ⟨hrule, inherited, hinherited, -⟩ := h.precedence hq hright
      obtain ⟨preference, hfavoured⟩ := Precedence.exists_favoured inherited hassociativity
      refine ⟨y, _, preference, hγ', ?_, ?_⟩
      · rw [Favours, hprecedence, hinherited]
        exact hfavoured
      · rw [productionPrecedence, hq, Option.bind_some, hrule, hprecedence, hinherited]
        exact hfavoured

/-- No two candidates are in conflict. -/
theorem conflict_settle_eq_none {x : Nat} {a b : Action} (ha : g.Candidate l st x a)
    (hb : g.Candidate l st x b) : (g.settle x a b).conflict = none := by
  -- A run accepts on the path of the start symbol alone, which is no right side.
  have halone : ∀ rule, g.Candidate l st x (.reduce rule) → ¬ g.Candidate l st x .accept := by
    intro rule hreduce haccept
    obtain ⟨-, hγ⟩ := haccept.of_accept h.wellFormed hitems
    cases h.offers_of_candidate hitems hreduce with
    | reduceOperand _ _ hγ' _ =>
      exact h.ne_startSymbol h.operand_terminal (List.cons.inj (hγ'.symm.trans hγ)).1
    | reduceOperation _ _ hγ' _ => simp [hγ] at hγ'
  match a, b with
  | .shift _, .reduce rule =>
    obtain ⟨_, _, preference, -, -, hfavoured⟩ := h.exists_favours hitems ha hb
    rw [(settle_of_favoured _ hfavoured).1]
  | .reduce rule, .shift _ =>
    obtain ⟨_, _, preference, -, -, hfavoured⟩ := h.exists_favours hitems hb ha
    rw [(settle_of_favoured _ hfavoured).2]
  | .reduce rule, .reduce other =>
    rw [h.eq_of_candidate_reduce hitems ha hb, settle, settleReduceReduce, if_pos rfl]
  | .reduce rule, .accept => exact absurd hb (halone rule ha)
  | .accept, .reduce rule => exact absurd ha (halone rule hb)
  | .reduce rule, .error => rfl
  | .shift _, .shift _ => rfl
  | .shift _, .accept => rfl
  | .shift _, .error => rfl
  | .accept, .shift _ => rfl
  | .accept, .accept => rfl
  | .accept, .error => rfl
  | .error, _ => rfl

end State

/-! ## Section 4: What is proposed at least -/

/-- Operators and the end mark can come after the start symbol. -/
theorem mem_follow_startSymbol {x : Nat} (hx : g.IsOperator x ∨ x = g.endMark) :
    x ∈ g.lookahead.follow g.startSymbol := by
  rcases hx with hx | rfl
  · obtain ⟨i, p, hp, hright⟩ := hx
    have hsplit : p.right = [] ++ g.startSymbol :: [x, g.startSymbol] := hright
    have hself := mem_first_self h.wellFormed.symbolsExist
      (h.operator_terminal ⟨i, p, hp, hright⟩)
    have hafter : x ∈ (g.afterwards ([] ++ x :: [g.startSymbol])).1 :=
      mem_firstOfSequence (by simp) hself
    exact mem_follow_of_mem_afterwards h.wellFormed.symbolsExist hp hsplit
      h.startSymbol_nonterminal hafter
  · exact endMark_mem_follow h.wellFormed

section State

variable {s : Nat} {st : State} {γ δ : List Nat} {x : Nat}
  (hst : g.automaton.states[s]? = some st) (hitems : ∀ i, i ∈ st.items ↔ g.Reads γ i)
include hst hitems

theorem exists_candidate_operator (hγ : γ = g.startSymbol :: δ) (hδ : g.Open δ)
    (hx : g.IsOperator x) : ∃ target, g.Candidate g.lookahead st x (.shift target) := by
  obtain ⟨i, p, hp, hright⟩ := hx
  have hmoved := (h.reads_of_open hδ hp (h.ne_zero hp hright)).advance_to hp (k := 1)
    (by simp [hright])
  have hread : g.Reads γ ⟨i, 1⟩ := by simpa [hγ, hright] using hmoved
  have hnext : (Item.mk i 1).nextSymbol g = some x := by
    rw [Item.nextSymbol, rightSide_eq hp, hright]
    rfl
  exact exists_candidate_shift h.wellFormed hitems hst hread hnext
    (h.operator_terminal ⟨i, p, hp, hright⟩)

omit hst in
theorem exists_candidate_operation {y : Nat} (hγ : γ = g.startSymbol :: y :: g.startSymbol :: δ)
    (hy : g.IsOperator y) (hδ : g.Open δ) (hx : g.IsOperator x ∨ x = g.endMark) :
    ∃ rule, g.Candidate g.lookahead st x (.reduce rule) := by
  obtain ⟨i, p, hp, hright⟩ := hy
  have hi := h.ne_zero hp hright
  have hfollow := h.mem_follow_startSymbol hx
  rw [← (h.production hp hi).1] at hfollow
  obtain ⟨rule, -, -, -, -, hrule⟩ := exists_candidate_reduce h.wellFormed hitems hp hi
    (by simp [hγ, hright]) (h.reads_of_open hδ hp hi) hfollow
  exact ⟨rule, hrule⟩

/-- Something is proposed wherever operands and operators come in turn. -/
theorem exists_candidate (hcontinues : g.Continues n γ x) :
    ∃ a, g.Candidate g.lookahead st x a := by
  cases hcontinues with
  | operand hγ =>
    obtain ⟨i, p, hi, hp, hright⟩ := h.exists_operand
    have hnext : (Item.initial i).nextSymbol g = some n := by
      rw [Item.nextSymbol, Item.production_initial, rightSide_eq hp, hright]
      rfl
    obtain ⟨target, htarget⟩ := exists_candidate_shift h.wellFormed hitems hst
      (h.reads_of_open hγ hp hi) hnext h.operand_terminal
    exact ⟨_, htarget⟩
  -- After an operand the rule of the operand is complete. After a start symbol an operator
  -- can be read, and at the end the last operation is complete, or the input.
  | @after y _ δ hy hδ hx =>
    rcases hy with rfl | rfl
    · obtain ⟨i, p, hi, hp, hright⟩ := h.exists_operand
      have hfollow := h.mem_follow_startSymbol hx
      rw [← (h.production hp hi).1] at hfollow
      obtain ⟨rule, -, -, -, -, hrule⟩ := exists_candidate_reduce h.wellFormed hitems hp hi
        (by simp [hright]) (h.reads_of_open hδ hp hi) hfollow
      exact ⟨_, hrule⟩
    · rcases hx with hx | rfl
      · obtain ⟨target, htarget⟩ := h.exists_candidate_operator hst hitems rfl hδ hx
        exact ⟨_, htarget⟩
      · cases hδ with
        | nil => exact ⟨_, candidate_accept h.wellFormed hitems rfl⟩
        | cons hz hδ =>
          obtain ⟨rule, hrule⟩ := h.exists_candidate_operation hitems rfl hz hδ (.inr rfl)
          exact ⟨_, hrule⟩

/-! ## Section 5: Cells -/

/-- Where operands and operators come in turn no cell is blank. -/
theorem actionAt_ne_error {t : ParseTable} (ht : g.Tabulates t) (hcontinues : g.Continues n γ x)
    (hx : x < g.terminalCount) : t.actionAt s x ≠ .error := by
  obtain ⟨a, ha⟩ := h.exists_candidate hst hitems hcontinues
  rcases ht.action hst hx with ⟨i, -, hi⟩ | ⟨-, hnone⟩
  · exact hi.ne_error
  · exact absurd ha (hnone a)

/-- Before an operator that comes after an operation the cell holds what precedence
    favours. -/
theorem exists_favours_of_operation {t : ParseTable} (ht : g.parseTable = .ok t) {y : Nat}
    (hγ : γ = g.startSymbol :: y :: g.startSymbol :: δ) (hy : g.IsOperator y) (hδ : g.Open δ)
    (hx : g.IsOperator x) :
    ∃ preference target rule, g.Favours preference x y ∧
      t.actionAt s x = preference.action target rule := by
  -- Both the shift and the reduction are proposed, and precedence decides between them.
  obtain ⟨target, hshift⟩ := h.exists_candidate_operator hst hitems hγ (.cons hy hδ) hx
  obtain ⟨rule, hreduce⟩ := h.exists_candidate_operation hitems hγ hy hδ (.inl hx)
  obtain ⟨z, η, preference, hγ', hfavours, hfavoured⟩ := h.exists_favours hitems hshift hreduce
  obtain ⟨rfl, -⟩ : y = z ∧ _ := by simpa using hγ.symm.trans hγ'
  obtain ⟨hfirst, hsecond⟩ := settle_of_favoured target hfavoured
  have hterminal := isTerminal_iff.1 (h.operator_terminal hx)
  refine ⟨preference, target, rule, hfavours, ?_⟩
  refine Candidate.actionAt_of_wins ht hst hterminal ?_ fun b hb => ?_
  · cases preference with
    | shift => exact hshift
    | reduce => exact hreduce
  · -- There is no third candidate.
    have hcases : b = .shift target ∨ b = .reduce rule := by
      cases h.offers_of_candidate hitems hb with
      | shiftOperand heq _ => exact absurd heq (h.operator_ne hx)
      | shiftOperator =>
        have hfind := (hb.of_shift h.wellFormed).2
        rw [(hshift.of_shift h.wellFormed).2] at hfind
        exact .inl (by rw [Option.some.inj hfind])
      | reduceOperand => exact .inr (by rw [h.eq_of_candidate_reduce hitems hb hreduce])
      | reduceOperation => exact .inr (by rw [h.eq_of_candidate_reduce hitems hb hreduce])
      | accept _ hγ' => simp [hγ] at hγ'
    rcases hcases with rfl | rfl
    · cases preference with
      | shift => simp only [Preference.action, settle_self, and_self]
      | reduce => exact ⟨congrArg Settlement.chosen hsecond, congrArg Settlement.chosen hfirst⟩
    · cases preference with
      | shift => exact ⟨congrArg Settlement.chosen hfirst, congrArg Settlement.chosen hsecond⟩
      | reduce => simp only [Preference.action, settle_self, and_self]

end State

/-- **No conflicts**: precedence decides wherever there is a choice. -/
theorem conflicts_eq_nil {t : ParseTable} (ht : g.parseTable = .ok t) : t.conflicts = [] := by
  refine conflicts_eq_nil_of_parseTable ht fun s x st a b hst ha hb => ?_
  obtain ⟨γ, hitems⟩ := h.wellFormed.exists_reads_of_state hst
  exact h.conflict_settle_eq_none hitems ha hb

end OperatorRules

end Grammar

end SlrCompiler
