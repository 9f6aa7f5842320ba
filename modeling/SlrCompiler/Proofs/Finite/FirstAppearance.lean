import Mathlib.Data.List.Basic

/-! # The order of first appearance

    Names are numbered in the order in which they first appear, which is what
    `List.eraseDups` leaves of a list. It takes an element and goes on with what is
    different from it, so everything about it is shown by induction along these
    steps (`eraseDups_induction`).
-/

namespace SlrCompiler

/-- Induction along the steps of `List.eraseDups`. -/
theorem eraseDups_induction {α : Type} [BEq α] {motive : List α → Prop} (nil : motive [])
    (cons : ∀ a rest, motive (rest.filter fun b => !b == a) → motive (a :: rest))
    (l : List α) : motive l := by
  induction hn : l.length using Nat.strongRecOn generalizing l with
  | ind n ih =>
    cases l with
    | nil => exact nil
    | cons a rest =>
      have hshorter : (rest.filter fun b => !b == a).length < n := by
        have := List.length_filter_le (fun b => !b == a) rest
        simp only [List.length_cons] at hn
        omega
      exact cons a rest (ih _ hshorter _ rfl)

variable {α β : Type} [BEq α] [LawfulBEq α] [BEq β] [LawfulBEq β]

theorem nodup_eraseDups (l : List α) : l.eraseDups.Nodup := by
  induction l using eraseDups_induction with
  | nil => simp
  | cons a rest ih =>
    rw [List.eraseDups_cons]
    exact List.nodup_cons.2 ⟨by simp, ih⟩

theorem eraseDups_cons_of_notMem {a : α} {l : List α} (h : a ∉ l) :
    (a :: l).eraseDups = a :: l.eraseDups := by
  have hfilter : l.filter (fun b => !b == a) = l := by
    rw [List.filter_eq_self]
    intro b hb
    have hne : b ≠ a := fun heq => h (heq ▸ hb)
    simpa using hne
  rw [List.eraseDups_cons, hfilter]

/-- A list without repetitions stays as it is. -/
theorem eraseDups_eq_self {l : List α} (h : l.Nodup) : l.eraseDups = l := by
  induction l with
  | nil => rfl
  | cons a rest ih =>
    obtain ⟨ha, hrest⟩ := List.nodup_cons.1 h
    rw [eraseDups_cons_of_notMem ha, ih hrest]

/-- What is told apart by a function is told apart in its order of appearance. -/
theorem eraseDups_map (f : α → β) (l : List α) (hf : ∀ a ∈ l, ∀ b ∈ l, f a = f b → a = b) :
    (l.map f).eraseDups = l.eraseDups.map f := by
  induction l using eraseDups_induction with
  | nil => rfl
  | cons a rest ih =>
    have hfilter : (rest.map f).filter (fun b => !b == f a)
        = (rest.filter fun b => !b == a).map f := by
      rw [List.filter_map]
      congr 1
      refine List.filter_congr fun b hb => ?_
      have hiff : f b = f a ↔ b = a :=
        ⟨hf b (List.mem_cons_of_mem a hb) a List.mem_cons_self, congrArg f⟩
      simp [hiff]
    have hrest : ∀ b ∈ rest.filter (fun b => !b == a),
        ∀ c ∈ rest.filter (fun b => !b == a), f b = f c → b = c := by
      intro b hb c hc
      exact hf b (List.mem_cons_of_mem a (List.mem_filter.1 hb).1) c
        (List.mem_cons_of_mem a (List.mem_filter.1 hc).1)
    rw [List.map_cons, List.eraseDups_cons, List.eraseDups_cons, List.map_cons, hfilter, ih hrest]

/-- What comes after a list appears first there, unless it is in the list. -/
theorem eraseDups_append_of_nodup [DecidableEq α] (l : List α) {m : List α} (hm : m.Nodup) :
    (l ++ m).eraseDups = l.eraseDups ++ m.filter (· ∉ l) := by
  have hremove : m.removeAll l = m.filter (· ∉ l) := by
    refine List.filter_congr fun a _ => ?_
    simp
  rw [List.eraseDups_append, hremove, eraseDups_eq_self (hm.filter _)]

theorem eraseDups_filter (p : α → Bool) (l : List α) :
    (l.filter p).eraseDups = l.eraseDups.filter p := by
  induction l using eraseDups_induction with
  | nil => rfl
  | cons a rest ih =>
    -- To drop repetitions of `a` and to filter by `p` are done in either order.
    rw [List.filter_filter] at ih
    rw [List.eraseDups_cons]
    by_cases ha : p a = true
    · rw [List.filter_cons_of_pos ha, List.filter_cons_of_pos ha, List.eraseDups_cons,
        List.filter_filter, ← ih]
      simp only [Bool.and_comm]
    · rw [List.filter_cons_of_neg ha, List.filter_cons_of_neg ha, ← ih]
      congr 1
      refine List.filter_congr fun b _ => ?_
      by_cases hb : b = a <;> simp_all

/-- Where each element of a list is said at least once, and nothing else between, the
    elements first appear in the order of the list. -/
theorem eraseDups_flatMap {γ : Type} {f : γ → List α} {g : γ → α} {l : List γ}
    (hf : ∀ x ∈ l, f x ≠ [] ∧ ∀ a ∈ f x, a = g x) :
    (l.flatMap f).eraseDups = (l.map g).eraseDups := by
  induction l with
  | nil => rfl
  | cons x rest ih =>
    have ih := ih fun y hy => hf y (List.mem_cons_of_mem x hy)
    obtain ⟨hne, hall⟩ := hf x List.mem_cons_self
    obtain ⟨a, others, hx⟩ := List.exists_cons_of_ne_nil hne
    rw [hx] at hall
    have ha : a = g x := hall a List.mem_cons_self
    have hothers : others.filter (fun b => !b == g x) = [] := by
      rw [List.filter_eq_nil_iff]
      intro b hb
      simp [hall b (List.mem_cons_of_mem a hb)]
    rw [List.flatMap_cons, hx, ha, List.map_cons, List.cons_append, List.eraseDups_cons,
      List.eraseDups_cons, List.filter_append, hothers, List.nil_append, eraseDups_filter,
      eraseDups_filter, ih]

end SlrCompiler
