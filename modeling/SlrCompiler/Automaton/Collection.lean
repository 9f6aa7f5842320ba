import SlrCompiler.Automaton.Item
import SlrCompiler.Finite.IndexMap

/-! # The automaton of item sets

    The states of the automaton are the item sets that are reached from the closure of
    the augmenting item by moving over symbols, and its edges are those moves. States
    are numbered in the order of their discovery: state 0 comes first, the states are
    worked off in order, and in each of them the symbols are tried in order.
-/

namespace SlrCompiler

/-- An item set with its edges by symbol. -/
structure State where
  items : ItemSet
  edges : IndexMap Nat
  deriving DecidableEq

/-- The states by number, and the number of the first. -/
structure Automaton where
  states : Array State
  start : Nat
  deriving DecidableEq

namespace Automaton

/-- The state to which the edge of a state on a symbol leads. -/
def goto (a : Automaton) (state symbol : Nat) : Option Nat :=
  a.states[state]?.bind fun s => s.edges.find symbol

/-- The number of states. -/
def size (a : Automaton) : Nat := a.states.size

end Automaton

/-- The item sets found so far, and the edges of those that are worked off. -/
structure Collection where
  sets : Array ItemSet
  edges : Array (IndexMap Nat)
  deriving DecidableEq

namespace Grammar

variable (g : Grammar)

/-! ## Working off a state -/

/-- The number of an item set among those found, which it joins at the end if it is new. -/
def locate (sets : Array ItemSet) (items : ItemSet) : Nat × Array ItemSet :=
  match sets.findIdx? (· = items) with
  | some v => (v, sets)
  | none => (sets.size, sets.push items)

/-- The edges of an item set on the given symbols, added to those it has. -/
def edgesOn (items : ItemSet) (sets : Array ItemSet) (edges : IndexMap Nat) :
    List Nat → Array ItemSet × IndexMap Nat
  | [] => (sets, edges)
  | symbol :: rest =>
    match g.goto items symbol with
    | none => edgesOn items sets edges rest
    | some target =>
      let (v, sets) := locate sets target
      edgesOn items sets (edges.set symbol v) rest

/-- Works off the next item set; nothing is left to do if there is none. -/
def workOff (c : Collection) : Option Collection :=
  match c.sets[c.edges.size]? with
  | none => none
  | some items =>
    let (sets, edges) := g.edgesOn items c.sets .empty g.symbols
    some { sets, edges := c.edges.push edges }

/-! ## The collection -/

/-- Works off item sets until none is left or the rounds are used up. -/
def collect : Nat → Collection → Collection
  | 0, c => c
  | rounds + 1, c =>
    match g.workOff c with
    | none => c
    | some next => collect rounds next

/-- The number of items of all productions. -/
def itemCount : Nat := g.productions.toList.foldr (fun p n => p.right.length + 1 + n) 0

/-- The item sets at the beginning: the closure of the augmenting item. -/
def firstCollection : Collection where
  sets := #[g.closure (.singleton (.initial 0))]
  edges := #[]

/-- All item sets. There are no more of them than there are sets of items, which bounds the
    rounds. -/
def collection : Collection := g.collect (Nat.pow 2 g.itemCount + 1) g.firstCollection

/-- The automaton of a grammar. -/
def automaton : Automaton :=
  let c := g.collection
  { states := Array.zipWith State.mk c.sets c.edges, start := 0 }

end Grammar

end SlrCompiler
