import Mathlib.Data.List.Infix
import SlrCompiler.Text.Cutting

/-! # The first mark

    A text is cut at the first occurrence of a mark (`Text.FirstMark`): what stands
    before it holds no mark, not even together with the mark's own beginning.
-/

namespace SlrCompiler

namespace Text

/-- The mark stands between `before` and `after`, and none ends before it does. -/
structure FirstMark (mark text before after : List Char) : Prop where
  text_eq : text = before ++ mark ++ after
  first : ¬ mark <:+: before ++ mark.dropLast

variable {mark text before after : List Char}

theorem FirstMark.length_le (h : FirstMark mark text before after) :
    after.length + mark.length ≤ text.length := by
  rw [h.text_eq]
  simp only [List.length_append]
  omega

theorem afterMark?_eq_some_iff : afterMark? mark text = some after ↔ text = mark ++ after := by
  constructor
  · intro h
    exact eq_of_afterMark? h
  · rintro rfl
    induction mark with
    | nil => rfl
    | cons m mark ih => simp [afterMark?, ih]

theorem afterMark?_eq_none_iff : afterMark? mark text = none ↔ ¬ mark <+: text := by
  rw [Option.eq_none_iff_forall_ne_some]
  constructor
  · intro h hmark
    obtain ⟨after, rfl⟩ := hmark
    exact h after (afterMark?_eq_some_iff.2 rfl)
  · intro h after hafter
    exact h ⟨after, (afterMark?_eq_some_iff.1 hafter).symm⟩

theorem dropLast_within (mark before after : List Char) :
    before ++ mark.dropLast <+: before ++ mark ++ after := by
  rw [List.append_assoc]
  apply (List.prefix_append_right_inj before).2
  exact mark.dropLast_prefix.trans (List.prefix_append _ _)

/-- A text is cut at a mark if none ends before that one does. -/
theorem cutAt_append (h : ¬ mark <:+: before ++ mark.dropLast) (hne : mark ≠ [])
    (after : List Char) : cutAt mark (before ++ mark ++ after) = some (before, after) := by
  induction before with
  | nil =>
    obtain ⟨m, tail, rfl⟩ := List.exists_cons_of_ne_nil hne
    have hmark := afterMark?_eq_some_iff.2 (rfl : m :: tail ++ after = m :: tail ++ after)
    rw [List.cons_append] at hmark
    rw [List.nil_append, List.cons_append, cutAt, hmark]
  | cons c before ih =>
    rw [List.cons_append, List.infix_cons_iff, not_or] at h
    -- a mark at the beginning would end before the one that the text is cut at
    have hbegin : ¬ mark <+: c :: (before ++ mark ++ after) := by
      intro hbegins
      apply h.1
      apply List.prefix_of_prefix_length_le hbegins (dropLast_within mark (c :: before) after)
      simp only [List.length_cons, List.length_append, List.length_dropLast]
      omega
    rw [List.cons_append, List.cons_append, cutAt, afterMark?_eq_none_iff.2 hbegin, ih h.2]
    rfl

theorem cutAt_eq_none_iff (hne : mark ≠ []) : cutAt mark text = none ↔ ¬ mark <:+: text := by
  induction text with
  | nil => simp [cutAt, hne]
  | cons c rest ih =>
    rw [cutAt, List.infix_cons_iff, not_or, ← afterMark?_eq_none_iff]
    cases h : afterMark? mark (c :: rest) with
    | none => simp [ih]
    | some after => simp

/-- Where a text is cut at a mark, none ends before it. -/
theorem not_infix_of_cutAt (h : cutAt mark text = some (before, after)) (hne : mark ≠ []) :
    ¬ mark <:+: before ++ mark.dropLast := by
  induction text generalizing before with
  | nil => simp [cutAt] at h
  | cons c rest ih =>
    have htext := eq_of_cutAt h
    rw [cutAt] at h
    cases hmark : afterMark? mark (c :: rest) with
    | some tail =>
      simp only [hmark, Option.some.injEq, Prod.mk.injEq] at h
      obtain ⟨rfl, -⟩ := h
      intro hoccurs
      -- Nothing stands before the mark, and the mark without its end is too short.
      have hlength := hoccurs.length_le
      have hpos := List.length_pos_of_ne_nil hne
      simp only [List.nil_append, List.length_dropLast] at hlength
      omega
    | none =>
      simp only [hmark, Option.map_eq_some_iff, Prod.mk.injEq, Prod.exists] at h
      obtain ⟨b, a, hcut, rfl, rfl⟩ := h
      -- The mark does not begin here, since it is cut further on.
      rw [List.cons_append, List.infix_cons_iff, not_or]
      refine ⟨?_, ih hcut⟩
      intro hbegins
      apply afterMark?_eq_none_iff.1 hmark
      rw [htext]
      exact hbegins.trans (dropLast_within mark (c :: b) a)

/-- **Cutting**: a text is cut at the first mark. -/
theorem cutAt_eq_some_iff (hne : mark ≠ []) :
    cutAt mark text = some (before, after) ↔ FirstMark mark text before after := by
  constructor
  · intro h
    exact ⟨eq_of_cutAt h, not_infix_of_cutAt h hne⟩
  · intro h
    rw [h.text_eq]
    exact cutAt_append h.first hne after

end Text

end SlrCompiler
