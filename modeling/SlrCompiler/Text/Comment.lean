import SlrCompiler.Text.Cutting

/-! # Comments

    A comment runs from `/*` to the next `*/`. Taking it out leaves one blank and the
    comment's line ends, so that words stay apart and lines keep their numbers. Comments
    are found by position alone: a quoted text is no shelter for a `/*`.
-/

namespace SlrCompiler.Text

/-- Where a reader of comments stands. -/
inductive CommentSide where
  | outside
  | inside
  deriving DecidableEq, Repr

/-- Takes the comments out of a text that begins on the given side of a comment. -/
def dropComments : CommentSide → List Char → Option (List Char)
  | .outside, '/' :: '*' :: rest => (dropComments .inside rest).map (' ' :: ·)
  | .outside, c :: rest => (dropComments .outside rest).map (c :: ·)
  | .outside, [] => some []
  | .inside, '*' :: '/' :: rest => dropComments .outside rest
  | .inside, '\n' :: rest => (dropComments .inside rest).map ('\n' :: ·)
  | .inside, _ :: rest => dropComments .inside rest
  | .inside, [] => none

/-- The text with each comment replaced by a blank and the comment's line ends; nothing if a
    comment is not closed. -/
def stripComments (text : List Char) : Option (List Char) := dropComments .outside text

/-- Taking comments out keeps every line end. -/
theorem lineCount_dropComments {side : CommentSide} {text out : List Char}
    (h : dropComments side text = some out) : lineCount out = lineCount text := by
  fun_induction dropComments side text generalizing out with
  | case1 rest ih =>
    obtain ⟨tail, ht, rfl⟩ := Option.map_eq_some_iff.1 h
    simpa [lineCount] using ih ht
  | case2 c rest _ ih =>
    obtain ⟨tail, ht, rfl⟩ := Option.map_eq_some_iff.1 h
    have := ih ht
    simp only [lineCount, List.count_cons] at this ⊢
    omega
  | case3 => cases h; rfl
  | case4 rest ih => simpa [lineCount] using ih h
  | case5 rest ih =>
    obtain ⟨tail, ht, rfl⟩ := Option.map_eq_some_iff.1 h
    simpa [lineCount] using ih ht
  | case6 c rest _ hn ih =>
    have hc : c ≠ '\n' := fun hc => hn hc
    have := ih h
    simp only [lineCount, List.count_cons] at this ⊢
    simp [this, hc]
  | case7 => simp at h

theorem lineCount_stripComments {text out : List Char} (h : stripComments text = some out) :
    lineCount out = lineCount text :=
  lineCount_dropComments h

end SlrCompiler.Text
