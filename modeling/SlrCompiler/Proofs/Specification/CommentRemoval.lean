import SlrCompiler.Proofs.Specification.BlockCuts

/-! # Comments are removed, and nothing else

    A text is gone through from comment to comment. Either a mark is met that opens a
    comment which is never closed (`Text.Unclosed`), or each comment gives way to a
    blank and its line ends (`Text.Uncommented`). The remover does the second whenever
    it can be done (`stripComments_removes`).

    What it leaves holds no mark. The parts of the text between the comments hold none,
    and the blank in the place of a comment keeps a slash in front of it from a star
    behind it. So the remover has nothing to do a second time.
-/

namespace SlrCompiler

namespace Text

/-- Going from comment to comment, one comes to a mark that opens a comment and has no mark
    behind it that closes one. -/
inductive Unclosed : List Char → Prop
  | here {text before rest : List Char} :
      FirstMark ['/', '*'] text before rest → ¬ ['*', '/'] <:+: rest → Unclosed text
  | later {text before rest body after : List Char} :
      FirstMark ['/', '*'] text before rest → FirstMark ['*', '/'] rest body after →
      Unclosed after → Unclosed text

variable {text out : List Char}

theorem stripComments_of_unclosed (h : Unclosed text) : stripComments text = none := by
  unfold stripComments
  induction h with
  | here hopened hnone =>
    rw [dropComments_outside_eq, (cutAt_eq_some_iff (by simp)).2 hopened]
    simp [dropComments_inside_eq, (cutAt_eq_none_iff (by simp)).2 hnone]
  | later hopened hclosed _ ih =>
    rw [dropComments_outside_eq, (cutAt_eq_some_iff (by simp)).2 hopened]
    simp [dropComments_inside_eq, (cutAt_eq_some_iff (by simp)).2 hclosed, ih]

/-- **Closed or not**: a text has a comment that is not closed, or all its comments can be
    replaced. -/
theorem unclosed_or_uncommented (text : List Char) :
    Unclosed text ∨ ∃ out, Uncommented text out := by
  induction hlength : text.length using Nat.strongRecOn generalizing text with
  | ind _ ih =>
    cases hopen : cutAt ['/', '*'] text with
    | none => exact .inr ⟨text, .plain ((cutAt_eq_none_iff (by simp)).1 hopen)⟩
    | some cut =>
      obtain ⟨before, rest⟩ := cut
      have hopened := (cutAt_eq_some_iff (by simp)).1 hopen
      cases hclose : cutAt ['*', '/'] rest with
      | none => exact .inl (.here hopened ((cutAt_eq_none_iff (by simp)).1 hclose))
      | some cut =>
        obtain ⟨body, after⟩ := cut
        have hclosed := (cutAt_eq_some_iff (by simp)).1 hclose
        have hshorter : after.length < text.length := by
          have hrest := hopened.length_le
          have hafter := hclosed.length_le
          simp only [List.length_cons] at hrest
          omega
        -- what is behind the comment decides
        rcases ih _ (hlength ▸ hshorter) after rfl with hlater | ⟨out, hout⟩
        · exact .inl (.later hopened hclosed hlater)
        · exact .inr ⟨_, .comment hopened hclosed hout⟩

/-- **Refusal**: comments are not removed exactly if one is not closed. -/
theorem stripComments_eq_none_iff : stripComments text = none ↔ Unclosed text := by
  constructor
  · intro hnone
    refine (unclosed_or_uncommented text).resolve_right ?_
    rintro ⟨out, hout⟩
    simp [stripComments_eq_some_iff.2 hout] at hnone
  · exact stripComments_of_unclosed

/-- **Exactly the comments**: it is refused to remove the comments of a text if and only if one
    of them is not closed. Otherwise what is left is the text with a blank and its line ends in
    the place of each comment. That text has no mark that opens a comment, it stays as it is
    if its comments are removed, and it has the line ends of the first one. -/
theorem stripComments_removes (text : List Char) :
    (stripComments text = none ↔ Unclosed text) ∧
    (∀ out, stripComments text = some out ↔ Uncommented text out) ∧
    ∀ out, stripComments text = some out →
      ¬ HasCommentMark out ∧ stripComments out = some out ∧ lineCount out = lineCount text := by
  refine ⟨stripComments_eq_none_iff, fun out => stripComments_eq_some_iff, fun out hout => ?_⟩
  have hnone := not_hasCommentMark_of_stripComments hout
  exact ⟨hnone, stripComments_eq_self hnone, lineCount_stripComments hout⟩

/-- A slash in front of a comment and a star behind it, a slash right behind the mark that opens
    it, and a comment of stars. -/
theorem stripComments_removes_overlaps :
    let text := "a //*/ b\n*/* c /***/ d".toList
    ∃ out, stripComments text = some out ∧ out = "a / \n* c   d".toList ∧ Uncommented text out ∧
      ¬ Unclosed text ∧ ¬ HasCommentMark out ∧ stripComments out = some out ∧
      lineCount out = lineCount text := by
  intro text
  obtain ⟨hrefused, hleft, hrest⟩ := stripComments_removes text
  have hout : stripComments text = some "a / \n* c   d".toList := by decide +kernel
  have hclosed : ¬ Unclosed text := by
    rw [← hrefused, hout]
    simp
  exact ⟨_, hout, rfl, (hleft _).1 hout, hclosed, hrest _ hout⟩

end Text

end SlrCompiler
