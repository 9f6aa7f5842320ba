/-! # Index maps

    A finite map from indices to values, kept as its entries in ascending order of
    index: the edges of a state and the cells of a table row. `find_set` and
    `find_erase` say what an operation does to what is found, and in a map that is built
    by putting values in the entries are what is found (`Ascending.mem_entries_iff`).
-/

namespace SlrCompiler

/-- A finite map from indices, given by its entries in ascending order. -/
structure IndexMap (α : Type) where
  entries : List (Nat × α)
  deriving DecidableEq, Repr

namespace IndexMap

variable {α : Type}

/-- The map without entries. -/
def empty : IndexMap α := ⟨[]⟩

/-- The value of the first entry with the given index. -/
def findIn (i : Nat) : List (Nat × α) → Option α
  | [] => none
  | (j, v) :: rest => if j = i then some v else findIn i rest

/-- The value at an index. -/
def find (m : IndexMap α) (i : Nat) : Option α := findIn i m.entries

/-- Puts a value in its place in an ascending list. -/
def placeIn (i : Nat) (value : α) : List (Nat × α) → List (Nat × α)
  | [] => [(i, value)]
  | (j, v) :: rest =>
    if i < j then (i, value) :: (j, v) :: rest
    else if i = j then (i, value) :: rest
    else (j, v) :: placeIn i value rest

/-- Puts a value at an index; an earlier value is replaced. -/
def set (m : IndexMap α) (i : Nat) (value : α) : IndexMap α := ⟨placeIn i value m.entries⟩

/-- Takes the value at an index out. -/
def erase (m : IndexMap α) (i : Nat) : IndexMap α := ⟨m.entries.filter (·.1 != i)⟩

@[simp] theorem find_empty (i : Nat) : (empty : IndexMap α).find i = none := rfl

theorem findIn_placeIn (i j : Nat) (value : α) (entries : List (Nat × α)) :
    findIn j (placeIn i value entries) = if i = j then some value else findIn j entries := by
  induction entries with
  | nil => simp [placeIn, findIn]
  | cons e rest ih =>
    obtain ⟨k, v⟩ := e
    simp only [placeIn]
    split
    · simp [findIn]
    · split
      · rename_i h
        subst h
        simp only [findIn]
        split <;> rfl
      · simp only [findIn, ih]
        by_cases hij : i = j
        · subst hij
          simp
          intro h
          exact absurd h.symm ‹_›
        · simp [hij]

/-- What is put at an index is found there, and no other index is touched. -/
theorem find_set (m : IndexMap α) (i j : Nat) (value : α) :
    (m.set i value).find j = if i = j then some value else m.find j :=
  findIn_placeIn i j value m.entries

/-- What is taken out is not found any more, and no other index is touched. -/
theorem find_erase (m : IndexMap α) (i j : Nat) :
    (m.erase i).find j = if i = j then none else m.find j := by
  obtain ⟨entries⟩ := m
  simp only [find, erase]
  induction entries with
  | nil => simp [findIn]
  | cons e rest ih =>
    obtain ⟨k, v⟩ := e
    by_cases hk : k = i
    · subst hk
      simp only [List.filter_cons, bne_self_eq_false, Bool.false_eq_true, ↓reduceIte, ih, findIn]
      split <;> simp_all
    · simp only [List.filter_cons, bne_iff_ne, ne_eq, hk, not_false_eq_true, ↓reduceIte, findIn, ih]
      by_cases hj : k = j
      · subst hj
        simp [Ne.symm hk]
      · simp [hj]

/-! ## Order -/

/-- Entries in strictly ascending order. -/
def Ascending (m : IndexMap α) : Prop := m.entries.Pairwise (fun a b => a.1 < b.1)

theorem ascending_empty : (empty : IndexMap α).Ascending := .nil

theorem eq_or_mem_of_mem_placeIn {i : Nat} {value : α} {entries : List (Nat × α)} {e : Nat × α}
    (h : e ∈ placeIn i value entries) : e = (i, value) ∨ e ∈ entries := by
  induction entries with
  | nil => simpa [placeIn] using h
  | cons d rest ih =>
    obtain ⟨k, v⟩ := d
    simp only [placeIn] at h
    split at h
    · simpa using h
    · split at h
      · rcases List.mem_cons.1 h with rfl | h
        · exact .inl rfl
        · exact .inr (List.mem_cons_of_mem _ h)
      · rcases List.mem_cons.1 h with rfl | h
        · exact .inr List.mem_cons_self
        · exact (ih h).imp_right (List.mem_cons_of_mem _)

/-- Putting a value in keeps the order. -/
theorem Ascending.set {m : IndexMap α} (h : m.Ascending) (i : Nat) (value : α) :
    (m.set i value).Ascending := by
  obtain ⟨entries⟩ := m
  simp only [Ascending, IndexMap.set] at h ⊢
  -- The induction is on the entries: the value goes in front of the first one, in its place,
  -- or further on.
  induction entries with
  | nil => simp [placeIn]
  | cons d rest ih =>
    obtain ⟨k, v⟩ := d
    rw [List.pairwise_cons] at h
    simp only [placeIn]
    split
    · rename_i hik
      refine List.pairwise_cons.2 ⟨fun e he => ?_, List.pairwise_cons.2 h⟩
      rcases List.mem_cons.1 he with rfl | he
      · exact hik
      · exact Nat.lt_trans hik (h.1 e he)
    · split
      · rename_i hik
        subst hik
        exact List.pairwise_cons.2 h
      · refine List.pairwise_cons.2 ⟨fun e he => ?_, ih h.2⟩
        rcases eq_or_mem_of_mem_placeIn he with rfl | he
        · simp only
          omega
        · exact h.1 e he

/-- In ascending order the entries are what is found. -/
theorem Ascending.mem_entries_iff {m : IndexMap α} (h : m.Ascending) {i : Nat} {value : α} :
    (i, value) ∈ m.entries ↔ m.find i = some value := by
  obtain ⟨entries⟩ := m
  simp only [Ascending, find] at h ⊢
  induction entries with
  | nil => simp [findIn]
  | cons e rest ih =>
    obtain ⟨k, v⟩ := e
    rw [List.pairwise_cons] at h
    rw [List.mem_cons, ih h.2, findIn]
    split
    · rename_i hki
      subst hki
      -- No further entry has the index of the first one.
      have hrest : findIn k rest ≠ some value := by
        intro hfound
        exact absurd (h.1 _ ((ih h.2).2 hfound)) (Nat.lt_irrefl k)
      simp [hrest, eq_comm]
    · rename_i hki
      simp [Ne.symm hki]

end IndexMap

end SlrCompiler
