import SlrCompiler.Grammar.Basic

/-! # Actions and how they are settled

    Two actions can meet in one cell of an action table. They are *settled*: precedence
    decides between a shift and a reduction, and between two reductions of different
    level. What precedence leaves open goes by default: a shift beats a reduction, the
    later production beats the earlier one, and accepting beats reducing. Such a choice
    is a conflict of a kind, and the settlement says which.
-/

namespace SlrCompiler

/-- What a parser does in a state at a terminal. -/
inductive Action where
  | shift (target : Nat)
  | reduce (rule : Nat)
  | accept
  /-- Nothing is to be done: the cell is blank. -/
  | error
  deriving DecidableEq, Repr

/-- Between what kinds of action a default choice was made. -/
inductive ConflictKind where
  | shiftReduce
  | reduceReduce
  deriving DecidableEq, Repr

/-- A choice that precedence left open. -/
structure Conflict where
  state : Nat
  terminal : Nat
  kind : ConflictKind
  existing : Action
  proposed : Action
  chosen : Action
  deriving DecidableEq, Repr

/-! ## Settling a cell -/

/-- The action chosen for a cell, and the kind of conflict if the choice went by default. -/
structure Settlement where
  chosen : Action
  conflict : Option ConflictKind
  deriving DecidableEq, Repr

namespace Grammar

variable (g : Grammar)

/-- Settles a shift and a reduction. -/
def settleShiftReduce (terminal target rule : Nat) : Settlement :=
  match Precedence.favoured? (g.precedenceOf terminal) (g.productionPrecedence rule) with
  | some .shift => ⟨.shift target, none⟩
  | some .reduce => ⟨.reduce rule, none⟩
  | none => ⟨.shift target, some .shiftReduce⟩

/-- Settles two reductions. -/
def settleReduceReduce (existing proposed : Nat) : Settlement :=
  if existing = proposed then ⟨.reduce proposed, none⟩
  else
    let byDefault : Settlement := ⟨.reduce (max existing proposed), some .reduceReduce⟩
    match g.productionPrecedence existing, g.productionPrecedence proposed with
    | some a, some b =>
      if a.level < b.level then ⟨.reduce proposed, none⟩
      else if b.level < a.level then ⟨.reduce existing, none⟩
      else byDefault
    | _, _ => byDefault

/-- Settles what a cell holds and what is proposed for it. -/
def settle (terminal : Nat) (existing proposed : Action) : Settlement :=
  match existing, proposed with
  | .error, _ => ⟨proposed, none⟩
  | .reduce rule, .shift target => g.settleShiftReduce terminal target rule
  | .shift target, .reduce rule => g.settleShiftReduce terminal target rule
  | .reduce rule, .reduce other => g.settleReduceReduce rule other
  | .accept, .reduce _ => ⟨.accept, some .reduceReduce⟩
  | .reduce _, .accept => ⟨.accept, some .reduceReduce⟩
  | _, .accept => ⟨.accept, none⟩
  | _, _ => ⟨existing, none⟩

end Grammar

end SlrCompiler
