import SlrCompiler.Specification.Blocks
import SlrCompiler.Specification.Lexeme

/-! # Braces are never closed that are not open

    A `%union` and an action block end with the brace that closes their first
    one. Both are read here a second time with a counter of open braces that
    starts at zero before the first brace, and that has no value where a brace is
    closed while none is open. That never happens: in all texts, closed blocks
    and open ones alike, the counter has a value at every character, and what it
    finds is what is read (`countBraces_cons`, `countBlock_cons`).
-/

namespace SlrCompiler

open Text

/-- The number of open braces after one more character; nothing where a brace is
    closed that is not open. -/
def openAfter (depth : Nat) (c : Char) : Option Nat :=
  if c = '{' then some (depth + 1)
  else if c = '}' then if depth = 0 then none else some (depth - 1)
  else some depth

theorem openAfter_open (depth : Nat) : openAfter depth '{' = some (depth + 1) := rfl

theorem openAfter_close (depth : Nat) : openAfter (depth + 1) '}' = some depth := rfl

theorem openAfter_other {depth : Nat} {c : Char} (hopen : c ≠ '{') (hclose : c ≠ '}') :
    openAfter depth c = some depth := by
  rw [openAfter, if_neg hopen, if_neg hclose]

/-! ## Section 1: The union -/

namespace Blocks

/-- A text up to the brace after which no brace is open, and the text after it, by
    the number of open braces before it. -/
def countBraces : Nat → List Char → Option (Option (List Char × List Char))
  | _, [] => some none
  | depth, c :: rest =>
    match openAfter depth c with
    | none => none
    | some after =>
      if c = '}' ∧ after = 0 then some (some ([c], rest))
      else (countBraces after rest).map (Option.map fun cut => (c :: cut.1, cut.2))

/-- With a brace open the counter always has a value. -/
theorem countBraces_succ (depth : Nat) (text : List Char) :
    countBraces (depth + 1) text = some (closeBraces depth text) := by
  fun_induction closeBraces depth text with
  | case1 => rfl
  | case2 depth rest ih => simp [countBraces, openAfter_open, ih]
  | case3 rest => simp [countBraces, openAfter_close]
  | case4 depth rest ih => simp [countBraces, openAfter_close, ih]
  | case5 depth c rest hopen hzero hclose ih =>
    have hc : c ≠ '}' := by
      intro heq
      cases depth with
      | zero => exact hzero rfl heq
      | succ depth => exact hclose depth rfl heq
    simp [countBraces, openAfter_other hopen hc, hc, ih]

/-- The braces of a union are counted from its first one on. -/
theorem countBraces_cons (body : List Char) :
    countBraces 0 ('{' :: body)
      = some ((closeBraces 0 body).map fun cut => ('{' :: cut.1, cut.2)) := by
  simp [countBraces, openAfter_open, countBraces_succ]

end Blocks

/-! ## Section 2: Action blocks -/

namespace Lexeme

/-- An action block up to the character after which no brace is open, and the text
    after it, by the number of open braces before it. Quoted texts and line
    comments are passed over as a whole. -/
def countBlock (opened line depth : Nat) (text : List Char) :
    Option (Except GrammarError (List Char × List Char)) :=
  match text with
  | [] => some (.error (.unmatchedBrace opened))
  | c :: rest =>
    if c = '"' ∨ c = '\'' then
      match _ : closeQuote c rest with
      | none => some (.error (.unmatchedQuote line))
      | some (quoted, after) =>
        (countBlock opened (line + lineCount quoted) depth after).map
          (Except.map (prepend (c :: quoted)))
    else if c = '/' ∧ rest.head? = some '/' then
      (countBlock opened line depth (rest.dropWhile (· != '\n'))).map
        (Except.map (prepend (c :: rest.takeWhile (· != '\n'))))
    else
      match openAfter depth c with
      | none => none
      | some 0 => some (.ok ([c], rest))
      | some (after + 1) =>
        (countBlock opened (line + lineCount [c]) (after + 1) rest).map
          (Except.map (prepend [c]))
termination_by text.length
decreasing_by
  · have := (suffix_of_closeQuote ‹_›).length_le
    simp only [List.length_cons]
    omega
  · have := (List.dropWhile_suffix (· != '\n') (l := rest)).length_le
    simp only [List.length_cons]
    omega
  · simp

/-- With a brace open the counter always has a value. -/
theorem countBlock_succ (opened line depth : Nat) (text : List Char) :
    countBlock opened line (depth + 1) text = some (closeBlock opened line depth text) := by
  have hopen : lineCount ['{'] = 0 := by decide
  have hclose : lineCount ['}'] = 0 := by decide
  -- The counter goes through the same cases as the reader.
  fun_induction closeBlock opened line depth text with
  | case1 => rw [countBlock]
  | case2 line depth c rest hc hq =>
    rw [countBlock, if_pos hc]
    split <;> simp_all
  | case3 line depth c rest hc quoted after hq ih =>
    rw [countBlock, if_pos hc]
    split <;> simp_all
  | case4 line depth c rest hc hslash ih =>
    rw [countBlock, if_neg hc, if_pos hslash, ih]
    rfl
  | case5 line depth rest hc hslash ih =>
    rw [countBlock, if_neg hc, if_neg hslash, openAfter_open]
    simp only [hopen, Nat.add_zero, ih, Option.map_some]
  | case6 line rest hc hslash hne =>
    rw [countBlock, if_neg hc, if_neg hslash, openAfter_close]
  | case7 line rest depth hc hslash hne ih =>
    rw [countBlock, if_neg hc, if_neg hslash, openAfter_close]
    simp only [hclose, Nat.add_zero, ih, Option.map_some]
  | case8 line depth c rest hc hslash hne hne' ih =>
    rw [countBlock, if_neg hc, if_neg hslash, openAfter_other hne hne']
    simp only [ih, Option.map_some]

/-- The braces of an action block are counted from its first one on. -/
theorem countBlock_cons (opened line : Nat) (text : List Char) :
    countBlock opened line 0 ('{' :: text)
      = some ((closeBlock opened line 0 text).map (prepend ['{'])) := by
  have hopen : lineCount ['{'] = 0 := by decide
  rw [countBlock, if_neg (by decide), if_neg (by simp), openAfter_open]
  simp only [hopen, Nat.add_zero, countBlock_succ, Option.map_some]

end Lexeme

end SlrCompiler
