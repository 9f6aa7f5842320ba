/-! # Bindings

    A finite map from names to values, in the order in which the names were first bound.
    A later binding of a name replaces the earlier one: `lookup_bind`.
-/

namespace SlrCompiler

/-- Names with a value each. -/
structure Bindings (α : Type) where
  entries : List (String × α)
  deriving DecidableEq, Repr

namespace Bindings

variable {α : Type}

/-- No name is bound. -/
def empty : Bindings α := ⟨[]⟩

/-- The value of a name in a list of pairs. -/
def find (name : String) : List (String × α) → Option α
  | [] => none
  | (n, v) :: rest => if n = name then some v else find name rest

/-- The value bound to a name. -/
def lookup (b : Bindings α) (name : String) : Option α := find name b.entries

/-- Puts a value in the place of the old one, or at the end. -/
def put (name : String) (value : α) : List (String × α) → List (String × α)
  | [] => [(name, value)]
  | (n, v) :: rest => if n = name then (n, value) :: rest else (n, v) :: put name value rest

/-- Binds a name; an earlier value is replaced. -/
def bind (b : Bindings α) (name : String) (value : α) : Bindings α :=
  ⟨put name value b.entries⟩

/-- The bound names, each once. -/
def names (b : Bindings α) : List String := b.entries.map Prod.fst

/-- How many names are bound. -/
def size (b : Bindings α) : Nat := b.entries.length

/-- The bindings of a list of pairs, the last pair of a name being the one that counts. -/
def ofList (pairs : List (String × α)) : Bindings α :=
  pairs.foldl (fun b (name, value) => b.bind name value) empty

theorem find_put (name other : String) (value : α) (entries : List (String × α)) :
    find other (put name value entries)
      = if name = other then some value else find other entries := by
  induction entries with
  | nil => simp [put, find]
  | cons e rest ih =>
    obtain ⟨n, v⟩ := e
    simp only [put]
    split
    · rename_i h
      subst h
      simp only [find]
      split <;> rfl
    · rename_i h
      simp only [find, ih]
      by_cases h1 : n = other
      · simp [h1]
        intro h2
        exact absurd (h1.trans h2.symm) h
      · simp [h1]

@[simp] theorem lookup_empty (name : String) : (empty : Bindings α).lookup name = none := rfl

/-- The last binding of a name is the one that is found, and no other name is touched. -/
theorem lookup_bind (b : Bindings α) (name other : String) (value : α) :
    (b.bind name value).lookup other = if name = other then some value else b.lookup other :=
  find_put name other value b.entries

end Bindings

end SlrCompiler
