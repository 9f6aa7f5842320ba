import SlrCompiler.Finite.Saturation
import SlrCompiler.Grammar.Basic

/-! # Items

    An item is a production with a dot in its right side: what stands before the dot has
    been read. A set of items says where in which productions a parser can be. Its
    closure adds the productions of every nonterminal after a dot, and moving it over a
    symbol moves the dots that stand before that symbol.
-/

namespace SlrCompiler

/-- A production with a dot before the given position of its right side. -/
structure Item where
  production : Nat
  position : Nat
  deriving DecidableEq, Repr

namespace Item

/-! ## Order -/

/-- Items are ordered by production, then by position. -/
instance : Ord Item := ⟨compareLex (compareOn Item.production) (compareOn Item.position)⟩

instance : Std.TransOrd Item :=
  inferInstanceAs (Std.TransCmp (compareLex (compareOn Item.production) (compareOn Item.position)))

instance : Std.LawfulEqOrd Item where
  eq_of_compare {a b} h := by
    have h : compareLex (compareOn Item.production) (compareOn Item.position) a b = .eq := h
    rw [compareLex_eq_eq] at h
    have hproduction : a.production = b.production := Std.LawfulEqOrd.eq_of_compare h.1
    have hposition : a.position = b.position := Std.LawfulEqOrd.eq_of_compare h.2
    cases a
    cases b
    simp_all

/-! ## The dot -/

/-- The item of a production with its dot at the beginning. -/
def initial (production : Nat) : Item := ⟨production, 0⟩

/-- The item with its dot moved over one symbol. -/
def advance (i : Item) : Item := ⟨i.production, i.position + 1⟩

/-- The symbol after the dot; nothing if the dot is at the end. -/
def nextSymbol (g : Grammar) (i : Item) : Option Nat := (g.rightSide i.production)[i.position]?

/-- Whether the dot is at the end. -/
def isComplete (g : Grammar) (i : Item) : Bool :=
  (g.rightSide i.production).length ≤ i.position

/-- An item is complete exactly if no symbol comes after its dot. -/
theorem isComplete_iff (g : Grammar) (i : Item) :
    i.isComplete g = true ↔ i.nextSymbol g = none := by
  simp [isComplete, nextSymbol]

/-- An item as text: the left side, an arrow, and the right side with a dot in it. -/
def text (g : Grammar) (i : Item) : String :=
  let left := (g.productions[i.production]?.map Production.left).getD 0
  let right := (g.rightSide i.production).map g.symbolName
  " ".intercalate
    ([g.symbolName left, "->"] ++ right.take i.position ++ ["."] ++ right.drop i.position)

end Item

/-- A set of items. -/
abbrev ItemSet : Type := SortedSet Item

namespace Grammar

variable (g : Grammar)

/-! ## Closure -/

/-- Pairs of a nonterminal and the symbol with which one of its productions begins. -/
def cornerEdges : List (Nat × Nat) :=
  g.productions.toList.filterMap fun p =>
    if g.isTerminal p.left then none else p.right.head?.map fun s => (p.left, s)

/-- The symbols after the dots of some items. -/
def expected (items : ItemSet) : List Nat := items.toList.filterMap (Item.nextSymbol g)

/-- The symbols at which reading can go on: those after a dot, and those with which the
    productions of such a symbol begin. -/
def corners (items : ItemSet) : SortedSet Nat :=
  reach g.cornerEdges g.rounds (.ofList (g.expected items))

/-- Adds the productions of every nonterminal after a dot, dots at the beginning. -/
def closure (items : ItemSet) : ItemSet :=
  items.insertAll ((g.corners items).toList.flatMap fun s => (g.productionsOf s).map Item.initial)

/-! ## Moving on -/

/-- The items before the given symbol, their dots moved over it. -/
def advanced (items : ItemSet) (symbol : Nat) : List Item :=
  (items.toList.filter fun i => i.nextSymbol g = some symbol).map Item.advance

/-- Moves over a symbol and closes the result; nothing if no item expects the symbol. -/
def goto (items : ItemSet) (symbol : Nat) : Option ItemSet :=
  match g.advanced items symbol with
  | [] => none
  | moved => some (g.closure (.ofList moved))

end Grammar

end SlrCompiler
