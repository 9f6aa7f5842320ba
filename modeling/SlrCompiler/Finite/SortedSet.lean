/-! # Sorted sets

    A finite set over an ordered type, kept as the list of its elements in ascending
    order. Since the order fixes the list, two sets with the same elements are equal
    (`ext`), and a set can serve as a key. Every operation is described by the elements
    of its result.
-/

namespace SlrCompiler

/-- A finite set, given by its elements in ascending order. -/
structure SortedSet (α : Type) [Ord α] where
  toList : List α
  ascending : toList.Pairwise (fun a b => compare a b = .lt)

namespace SortedSet

variable {α : Type} [Ord α]

/-! ## Membership -/

instance : Membership α (SortedSet α) where
  mem s a := a ∈ s.toList

theorem mem_def {a : α} {s : SortedSet α} : a ∈ s ↔ a ∈ s.toList := Iff.rfl

instance [DecidableEq α] (a : α) (s : SortedSet α) : Decidable (a ∈ s) :=
  inferInstanceAs (Decidable (a ∈ s.toList))

/-- The number of elements. -/
def size (s : SortedSet α) : Nat := s.toList.length

/-- Whether the set has no element. -/
def isEmpty (s : SortedSet α) : Bool := s.toList.isEmpty

theorem toList_inj {s t : SortedSet α} : s.toList = t.toList ↔ s = t := by
  constructor
  · intro h
    cases s
    cases t
    simp_all
  · rintro rfl
    rfl

instance [DecidableEq α] : DecidableEq (SortedSet α) := fun s t =>
  decidable_of_iff (s.toList = t.toList) toList_inj

/-- The set without elements. -/
def empty : SortedSet α := ⟨[], .nil⟩

@[simp] theorem not_mem_empty (a : α) : a ∉ (empty : SortedSet α) := by simp [mem_def, empty]

/-! ## Insertion -/

/-- Puts an element in its place in an ascending list. -/
def place (a : α) : List α → List α
  | [] => [a]
  | b :: rest =>
    match compare a b with
    | .lt => a :: b :: rest
    | .eq => b :: rest
    | .gt => b :: place a rest

theorem mem_of_mem_place {a x : α} {l : List α} (h : x ∈ place a l) : x = a ∨ x ∈ l := by
  induction l with
  | nil => simpa [place] using h
  | cons b rest ih =>
    simp only [place] at h
    split at h
    · simpa using h
    · exact .inr h
    · rcases List.mem_cons.1 h with rfl | h
      · exact .inr List.mem_cons_self
      · exact (ih h).imp_right (List.mem_cons_of_mem _)

variable [Std.TransOrd α]

theorem pairwise_place {a : α} {l : List α} (h : l.Pairwise (fun a b => compare a b = .lt)) :
    (place a l).Pairwise (fun a b => compare a b = .lt) := by
  induction l with
  | nil => simp [place]
  | cons b rest ih =>
    rw [List.pairwise_cons] at h
    simp only [place]
    split
    · rename_i hab
      refine List.pairwise_cons.2 ⟨fun x hx => ?_, List.pairwise_cons.2 h⟩
      rcases List.mem_cons.1 hx with rfl | hx
      · exact hab
      · exact Std.TransCmp.lt_trans hab (h.1 x hx)
    · exact List.pairwise_cons.2 h
    · rename_i hab
      refine List.pairwise_cons.2 ⟨fun x hx => ?_, ih h.2⟩
      rcases mem_of_mem_place hx with rfl | hx
      · exact Std.OrientedCmp.gt_iff_lt.1 hab
      · exact h.1 x hx

/-- Adds an element. -/
def insert (s : SortedSet α) (a : α) : SortedSet α := ⟨place a s.toList, pairwise_place s.ascending⟩

/-- Adds the elements of a list. -/
def insertAll (s : SortedSet α) (items : List α) : SortedSet α := items.foldl insert s

/-- The elements of a list. -/
def ofList (items : List α) : SortedSet α := empty.insertAll items

/-- The set with one element. -/
def singleton (a : α) : SortedSet α := ofList [a]

/-- The elements of either set. -/
def union (s t : SortedSet α) : SortedSet α := s.insertAll t.toList

omit [Std.TransOrd α] in
/-- The elements that satisfy `p`. -/
def filter (p : α → Bool) (s : SortedSet α) : SortedSet α :=
  ⟨s.toList.filter p, s.ascending.filter p⟩

omit [Std.TransOrd α] in
/-- Takes an element out. -/
def erase [BEq α] (s : SortedSet α) (a : α) : SortedSet α :=
  ⟨s.toList.erase a, s.ascending.sublist List.erase_sublist⟩

omit [Std.TransOrd α] in
theorem mem_of_mem_erase [BEq α] {s : SortedSet α} {a x : α} (h : x ∈ s.erase a) : x ∈ s :=
  List.mem_of_mem_erase h

omit [Std.TransOrd α] in
@[simp] theorem mem_filter {p : α → Bool} {s : SortedSet α} {a : α} :
    a ∈ s.filter p ↔ a ∈ s ∧ p a = true := by
  simp [mem_def, filter]

variable [Std.LawfulEqOrd α]

omit [Std.TransOrd α] in
theorem mem_place {a x : α} {l : List α} : x ∈ place a l ↔ x = a ∨ x ∈ l := by
  refine ⟨mem_of_mem_place, ?_⟩
  induction l with
  | nil => simp [place]
  | cons b rest ih =>
    simp only [place]
    split
    · simp
    · rename_i hab
      rintro (rfl | h)
      · simp [Std.LawfulEqCmp.eq_of_compare hab]
      · exact h
    · rintro (rfl | h)
      · exact List.mem_cons_of_mem _ (ih (.inl rfl))
      · rcases List.mem_cons.1 h with rfl | h
        · exact List.mem_cons_self
        · exact List.mem_cons_of_mem _ (ih (.inr h))

@[simp] theorem mem_insert {s : SortedSet α} {a x : α} : x ∈ s.insert a ↔ x = a ∨ x ∈ s :=
  mem_place

@[simp] theorem mem_insertAll {s : SortedSet α} {items : List α} {x : α} :
    x ∈ s.insertAll items ↔ x ∈ s ∨ x ∈ items := by
  induction items generalizing s with
  | nil => simp [insertAll]
  | cons a items ih =>
    have := @ih (s.insert a)
    simp only [insertAll, List.foldl_cons] at this ⊢
    rw [this, mem_insert, List.mem_cons]
    constructor
    · rintro ((h | h) | h) <;> simp [h]
    · rintro (h | h | h) <;> simp [h]

@[simp] theorem mem_ofList {items : List α} {x : α} : x ∈ ofList items ↔ x ∈ items := by
  simp [ofList]

@[simp] theorem mem_singleton {a x : α} : x ∈ singleton a ↔ x = a := by simp [singleton]

@[simp] theorem mem_union {s t : SortedSet α} {x : α} : x ∈ s.union t ↔ x ∈ s ∨ x ∈ t := by
  simp [union, mem_def (s := t)]

/-! ## Equality -/

omit [Std.LawfulEqOrd α] in
theorem not_lt_self (a : α) : compare a a ≠ .lt := by
  simp

omit [Std.LawfulEqOrd α] in
theorem eq_of_pairwise_of_mem_iff {l m : List α}
    (hl : l.Pairwise (fun a b => compare a b = .lt))
    (hm : m.Pairwise (fun a b => compare a b = .lt)) (h : ∀ x, x ∈ l ↔ x ∈ m) : l = m := by
  induction l generalizing m with
  | nil =>
    cases m with
    | nil => rfl
    | cons b m => exact absurd ((h b).2 List.mem_cons_self) (List.not_mem_nil)
  | cons a l ih =>
    cases m with
    | nil => exact absurd ((h a).1 List.mem_cons_self) (List.not_mem_nil)
    | cons b m =>
      rw [List.pairwise_cons] at hl hm
      -- Both lists begin with the least of their elements.
      have hab : a = b := by
        rcases List.mem_cons.1 ((h a).1 List.mem_cons_self) with hab | ham
        · exact hab
        rcases List.mem_cons.1 ((h b).2 List.mem_cons_self) with hba | hbl
        · exact hba.symm
        exact absurd (Std.TransCmp.lt_trans (hl.1 b hbl) (hm.1 a ham)) (not_lt_self a)
      subst hab
      congr 1
      refine ih hl.2 hm.2 fun x => ⟨fun hx => ?_, fun hx => ?_⟩
      · rcases List.mem_cons.1 ((h x).1 (List.mem_cons_of_mem _ hx)) with rfl | hxm
        · exact absurd (hl.1 x hx) (not_lt_self x)
        · exact hxm
      · rcases List.mem_cons.1 ((h x).2 (List.mem_cons_of_mem _ hx)) with rfl | hxl
        · exact absurd (hm.1 x hx) (not_lt_self x)
        · exact hxl

omit [Std.LawfulEqOrd α] in
/-- A set is given by its elements. -/
theorem ext {s t : SortedSet α} (h : ∀ x, x ∈ s ↔ x ∈ t) : s = t :=
  toList_inj.1 (eq_of_pairwise_of_mem_iff s.ascending t.ascending h)

end SortedSet

end SlrCompiler
