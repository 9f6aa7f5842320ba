import Mathlib.Data.List.Infix
import SlrCompiler.Proofs.Specification.Lexemes
import SlrCompiler.Text.Comment

/-! # Where comments begin

    The mark that begins a comment, and what taking comments out has to do with it.
    A text without marks is left as it is (`stripComments_eq_self`), and no text
    has marks once its comments are out (`not_hasCommentMark_of_stripComments`): a
    blank stands in the place of each comment, so that no slash comes to stand in
    front of a star.

    The second half looks at a text that is a sequence of lexemes. No lexeme ends
    with a slash, and outside of literals and actions there is none, so the marks of
    the text are those of its literals and actions (`Spelled.hasCommentMark_iff`).
-/

namespace SlrCompiler

open Text

/-! ## Section 1: Marks -/

namespace Text

/-- Somewhere in the text a comment begins. -/
def HasCommentMark (text : List Char) : Prop := ['/', '*'] <:+: text

instance (text : List Char) : Decidable (HasCommentMark text) :=
  inferInstanceAs (Decidable (['/', '*'] <:+: text))

variable {c : Char} {text out u v : List Char}

theorem not_hasCommentMark_nil : ¬ HasCommentMark [] := by simp [HasCommentMark]

theorem hasCommentMark_cons_iff :
    HasCommentMark (c :: text) ↔ c = '/' ∧ text.head? = some '*' ∨ HasCommentMark text := by
  unfold HasCommentMark
  rw [List.infix_cons_iff]
  refine or_congr_left ?_
  cases text with
  | nil => simp
  | cons d text => simp [List.cons_prefix_cons, eq_comm]

/-- A mark may lie across the border of two texts. -/
theorem hasCommentMark_append_iff : HasCommentMark (u ++ v) ↔
    HasCommentMark u ∨ u.getLast? = some '/' ∧ v.head? = some '*' ∨ HasCommentMark v := by
  induction u with
  | nil => simp [not_hasCommentMark_nil]
  | cons c u ih =>
    rw [List.cons_append, hasCommentMark_cons_iff, hasCommentMark_cons_iff, ih]
    cases u with
    | nil => simp [not_hasCommentMark_nil]
    | cons d u => simp [List.getLast?_cons_cons, or_assoc]

/-- A text that does not end with a slash may be looked at apart from what follows it. -/
theorem hasCommentMark_append_iff_of_getLast? (h : u.getLast? ≠ some '/') :
    HasCommentMark (u ++ v) ↔ HasCommentMark u ∨ HasCommentMark v := by
  simp [hasCommentMark_append_iff, h]

theorem not_hasCommentMark_of_not_mem (h : '/' ∉ text) : ¬ HasCommentMark text :=
  fun hmark => h (hmark.subset List.mem_cons_self)

/-- Where there is no slash, no mark begins. -/
theorem hasCommentMark_append_iff_of_not_mem (h : '/' ∉ u) :
    HasCommentMark (u ++ v) ↔ HasCommentMark v := by
  have hlast : u.getLast? ≠ some '/' := fun hlast => h (List.mem_of_getLast? hlast)
  rw [hasCommentMark_append_iff_of_getLast? hlast,
    or_iff_right (not_hasCommentMark_of_not_mem h)]

/-! ## Section 2: Taking comments out -/

/-- **Nothing to take out**: a text without marks is left as it is. -/
theorem stripComments_eq_self (h : ¬ HasCommentMark text) : stripComments text = some text := by
  unfold stripComments
  induction text with
  | nil => rfl
  | cons c text ih =>
    rw [hasCommentMark_cons_iff, not_or] at h
    obtain ⟨hfirst, hrest⟩ := h
    rw [dropComments]
    · rw [ih hrest]
      rfl
    · intro rest hc htext
      exact hfirst ⟨hc, by rw [htext, List.head?_cons]⟩

/-- No star comes to stand in front: it would have been there before, or a blank stands in the
    place of the comment. -/
theorem head?_of_dropComments (h : dropComments .outside text = some out)
    (hstar : out.head? = some '*') : text.head? = some '*' := by
  cases text with
  | nil =>
    obtain rfl := Option.some.inj h
    exact hstar
  | cons c rest =>
    unfold dropComments at h
    split at h
    · obtain ⟨tail, -, rfl⟩ := Option.map_eq_some_iff.1 h
      simp at hstar
    · rename_i heq
      obtain ⟨rfl, rfl⟩ := List.cons.inj heq
      obtain ⟨tail, -, rfl⟩ := Option.map_eq_some_iff.1 h
      simpa using hstar
    all_goals simp at *

theorem not_hasCommentMark_of_dropComments {side : CommentSide}
    (h : dropComments side text = some out) : ¬ HasCommentMark out := by
  fun_induction dropComments side text generalizing out with
  | case1 rest ih =>
    obtain ⟨tail, htail, rfl⟩ := Option.map_eq_some_iff.1 h
    simpa [hasCommentMark_cons_iff] using ih htail
  | case2 c rest hopen ih =>
    obtain ⟨tail, htail, rfl⟩ := Option.map_eq_some_iff.1 h
    rw [hasCommentMark_cons_iff, not_or]
    refine ⟨?_, ih htail⟩
    intro hmark
    -- a mark across the border would have been there before
    have hstar := head?_of_dropComments htail hmark.2
    obtain ⟨after, rfl⟩ := List.head?_eq_some_iff.1 hstar
    exact hopen after hmark.1 rfl
  | case3 =>
    obtain rfl := Option.some.inj h
    exact not_hasCommentMark_nil
  | case4 rest ih => exact ih h
  | case5 rest ih =>
    obtain ⟨tail, htail, rfl⟩ := Option.map_eq_some_iff.1 h
    simpa [hasCommentMark_cons_iff] using ih htail
  | case6 c rest _ _ ih => exact ih h
  | case7 => simp at h

/-- **Nothing is left to take out**. -/
theorem not_hasCommentMark_of_stripComments (h : stripComments text = some out) :
    ¬ HasCommentMark out :=
  not_hasCommentMark_of_dropComments h

end Text

/-! ## Section 3: Marks in lexemes -/

theorem Text.not_mem_of_isIdentifier {text : List Char} (h : isIdentifier text = true) :
    '/' ∉ text := by
  intro hmem
  have hslash := (isIdentifier_iff.1 h).2 '/' hmem
  have hnot : isIdentifierChar '/' = false := by decide +kernel
  simp [hnot] at hslash

theorem Text.not_mem_of_blanks {text : List Char} (h : ∀ c ∈ text, isBlank c = true) :
    '/' ∉ text := by
  intro hmem
  have hslash := h '/' hmem
  have hnot : isBlank '/' = false := by decide +kernel
  simp [hnot] at hslash

theorem RuleSymbol.Written.getLast?_ne {s : RuleSymbol} {text : List Char} (h : s.Written text) :
    text.getLast? ≠ some '/' := by
  cases h with
  | name hname => exact fun hlast => not_mem_of_isIdentifier hname (List.mem_of_getLast? hlast)
  | literal hquoted =>
    obtain ⟨pre, rfl⟩ := hquoted.exists_append
    rw [← List.cons_append, List.getLast?_concat]
    decide

namespace Lexeme

/-- What of a lexeme may hold any characters: a literal, an action or the argument of a `%prec`
    clause. -/
def content : Lexeme → List Char
  | .literal text => text.toList
  | .action text => text.toList
  | .prec argument => argument.toList
  | _ => []

variable {lexeme : Lexeme} {lexemes : List Lexeme} {text : List Char}

/-- The marks of a lexeme are in its content. -/
theorem Written.hasCommentMark_iff (h : Written lexeme text) :
    HasCommentMark text ↔ HasCommentMark lexeme.content := by
  cases h with
  | colon | bar | semicolon => decide
  | @symbol s _ hs =>
    cases hs with
    | name hname =>
      have hnone := not_hasCommentMark_of_not_mem (not_mem_of_isIdentifier hname)
      simp [RuleSymbol.toLexeme, content, hnone, not_hasCommentMark_nil]
    | literal _ => simp [RuleSymbol.toLexeme, content]
  | action _ => simp [content]
  | @prec s gap chars hgap hs _ =>
    have hword : '/' ∉ "%prec".toList := by decide
    rw [hasCommentMark_append_iff_of_not_mem hword,
      hasCommentMark_append_iff_of_not_mem (not_mem_of_blanks hgap)]
    cases hs <;> simp [content, RuleSymbol.text]

/-- No lexeme ends with a slash. -/
theorem Written.getLast?_ne (h : Written lexeme text) : text.getLast? ≠ some '/' := by
  cases h with
  | colon | bar | semicolon => decide
  | symbol hs => exact hs.getLast?_ne
  | action _ =>
    rw [← List.cons_append, List.getLast?_concat]
    decide
  | @prec s gap chars _ hs _ =>
    rw [← List.append_assoc, List.getLast?_append_of_ne_nil _ hs.ne_nil]
    exact hs.getLast?_ne

/-- **The marks of a text** are those of its literals and actions. -/
theorem Spelled.hasCommentMark_iff (h : Spelled lexemes text) :
    HasCommentMark text ↔ ∃ lexeme ∈ lexemes, HasCommentMark lexeme.content := by
  induction h with
  | nil => simp [not_hasCommentMark_nil]
  | @blank c _ _ hblank _ ih =>
    have hslash : '/' ∉ [c] := not_mem_of_blanks (by simpa using hblank)
    rw [← List.singleton_append, hasCommentMark_append_iff_of_not_mem hslash, ih]
  | lexeme hwritten _ _ ih =>
    rw [hasCommentMark_append_iff_of_getLast? hwritten.getLast?_ne, hwritten.hasCommentMark_iff, ih,
      List.exists_mem_cons_iff]

end Lexeme

end SlrCompiler
