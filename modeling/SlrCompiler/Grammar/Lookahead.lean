import SlrCompiler.Finite.Saturation
import SlrCompiler.Grammar.Basic

/-! # FIRST and FOLLOW

    For every symbol, which terminals its expansions can begin with (FIRST), whether it
    carries the empty marker, and which terminals can come after it (FOLLOW).

    All three rest on one notion, the symbols that a right side *shows*: its first
    symbol, and each further symbol as long as those before it carry the empty marker.
    An occurrence of the left side in its own right side shows nothing; it is stepped
    over if the left side has an empty rule, and ends the walk otherwise.

    * A symbol carries the empty marker if it has an empty rule or shows a symbol that
      carries it.
    * FIRST of a symbol are the terminals that it shows, directly or through symbols
      that it shows.
    * FOLLOW of a nonterminal are the terminals that its occurrences have after them;
      where all that comes after an occurrence carries the empty marker, FOLLOW of the
      left side belongs to it too.

    The empty marker is generous: a symbol carries it as soon as its walk passes one
    symbol that does, even if a later symbol ends the walk. FIRST is in turn too small
    where a symbol that is empty only through other symbols occurs in its own right
    side.
-/

namespace SlrCompiler

/-- FIRST sets, the empty marker and FOLLOW sets, by symbol. -/
structure Lookahead where
  firstSets : Array (SortedSet Nat)
  nullableSymbols : SortedSet Nat
  followSets : Array (SortedSet Nat)

namespace Lookahead

/-- The terminals with which a symbol can begin. -/
def first (l : Lookahead) (symbol : Nat) : SortedSet Nat := l.firstSets.getD symbol .empty

/-- Whether a symbol carries the empty marker. -/
def nullable (l : Lookahead) (symbol : Nat) : Bool := symbol ∈ l.nullableSymbols

/-- The terminals that can come after a symbol; none for a terminal. -/
def follow (l : Lookahead) (symbol : Nat) : SortedSet Nat := l.followSets.getD symbol .empty

end Lookahead

/-- The terminals with which a sequence can begin, and whether all its symbols carry the empty
    marker. -/
def firstOfSequence (first : Nat → SortedSet Nat) (nullable : Nat → Bool) :
    List Nat → SortedSet Nat × Bool
  | [] => (.empty, true)
  | symbol :: rest =>
    if nullable symbol then
      let tail := firstOfSequence first nullable rest
      ((first symbol).union tail.1, tail.2)
    else (first symbol, false)

namespace Grammar

variable (g : Grammar)

/-! ## The empty marker -/

/-- The symbols that a right side shows. -/
def shown (nullable : Nat → Bool) (left : Nat) : List Nat → List Nat
  | [] => []
  | symbol :: rest =>
    if symbol = left then if left ∈ g.epsilon then shown nullable left rest else []
    else if nullable symbol then symbol :: shown nullable left rest
    else [symbol]

/-- The left sides that show a symbol of the given set. -/
def showing (s : SortedSet Nat) : List Nat :=
  (g.productions.toList.filter fun p =>
    (g.shown (· ∈ s) p.left p.right).any (· ∈ s)).map Production.left

/-- The symbols that carry the empty marker. -/
def nullableSymbols : SortedSet Nat := saturate g.showing g.rounds (.ofList g.epsilon)

/-! ## FIRST -/

/-- Pairs of a left side and a symbol that it shows. -/
def showEdges (nullable : Nat → Bool) : List (Nat × Nat) :=
  g.productions.toList.flatMap fun p => (g.shown nullable p.left p.right).map fun s => (p.left, s)

/-- The terminals among the symbols that a symbol shows, directly or through others. -/
def firstAlong (edges : List (Nat × Nat)) (symbol : Nat) : SortedSet Nat :=
  (reach edges g.rounds (.singleton symbol)).filter g.isTerminal

/-! ## FOLLOW -/

/-- A nonterminal in a right side, with the symbols after it. -/
structure Occurrence where
  left : Nat
  symbol : Nat
  after : List Nat
  deriving DecidableEq, Repr

/-- The nonterminals of a right side. -/
def occurrencesIn (left : Nat) : List Nat → List Occurrence
  | [] => []
  | symbol :: rest =>
    if g.isTerminal symbol then occurrencesIn left rest
    else ⟨left, symbol, rest⟩ :: occurrencesIn left rest

/-- The nonterminals of all right sides. -/
def occurrences : List Occurrence :=
  g.productions.toList.flatMap fun p => g.occurrencesIn p.left p.right

/-- The terminals right after the occurrences of a symbol, and `$end` after the start symbol. -/
def followDirectly (after : List Nat → SortedSet Nat × Bool) (symbol : Nat) : SortedSet Nat :=
  (g.occurrences.filter (·.symbol = symbol)).foldl (fun s o => s.union (after o.after).1)
    (if symbol = g.startSymbol then .singleton g.endMark else .empty)

/-- Pairs of a nonterminal and a left side at whose end it can stand. -/
def followEdges (after : List Nat → SortedSet Nat × Bool) : List (Nat × Nat) :=
  (g.occurrences.filter fun o => (after o.after).2 && o.left != o.symbol).map fun o =>
    (o.symbol, o.left)

/-- The terminals that come after a symbol or after a left side at whose end it can stand. -/
def followAlong (direct : Array (SortedSet Nat)) (edges : List (Nat × Nat)) (symbol : Nat) :
    SortedSet Nat :=
  (reach edges g.rounds (.singleton symbol)).toList.foldl
    (fun s other => s.union (direct.getD other .empty)) .empty

/-! ## The sets -/

/-- FIRST sets, the empty marker and FOLLOW sets of a grammar. -/
def lookahead : Lookahead :=
  let nullableSymbols := g.nullableSymbols
  let nullable := fun s => decide (s ∈ nullableSymbols)
  let shows := g.showEdges nullable
  let firstSets := (g.symbols.map (g.firstAlong shows)).toArray
  let after := firstOfSequence (fun s => firstSets.getD s .empty) nullable
  let direct := (g.symbols.map (g.followDirectly after)).toArray
  let ends := g.followEdges after
  let followSets := (g.symbols.map (g.followAlong direct ends)).toArray
  { firstSets, nullableSymbols, followSets }

end Grammar

end SlrCompiler
