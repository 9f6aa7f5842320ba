import Mathlib.Data.List.TakeWhile
import SlrCompiler.Specification.Lexeme

/-! # Quoted texts and action blocks

    What a quoted text and what the inside of an action block is, apart from how
    either is read: `Quoted` has one constructor for each way to go on before the
    closing quote, `BraceBalanced` one for each thing that can stand between
    braces. Both readers find exactly these texts (`closeQuote_eq_some_iff`,
    `closeBlock_zero_eq_ok_iff`).

    The reader of blocks counts open braces, so what it has read is not balanced
    but closes more braces than it opens (`Closing`); that a balanced text is
    passed over holds at every depth (`closeBlock_append`).
-/

namespace SlrCompiler

open Text

/-! ## Section 1: Quoted texts -/

namespace Text

/-- The rest of a quoted text after its opening quote, the closing quote included. A
    backslash takes the character after it along. -/
inductive Quoted (quote : Char) : List Char → Prop
  | closing : Quoted quote [quote]
  | escape (c : Char) {rest : List Char} : Quoted quote rest → Quoted quote ('\\' :: c :: rest)
  | plain {c : Char} {rest : List Char} : c ≠ '\\' → c ≠ quote → Quoted quote rest →
      Quoted quote (c :: rest)

theorem quoted_of_closeQuote {quote : Char} {text quoted after : List Char}
    (h : closeQuote quote text = some (quoted, after)) : Quoted quote quoted := by
  fun_induction closeQuote quote text generalizing quoted after with
  | case1 => simp at h
  | case2 => simp at h
  | case3 c rest ih =>
    obtain ⟨⟨q, a⟩, hq, he⟩ := Option.map_eq_some_iff.1 h
    obtain ⟨rfl, -⟩ := Prod.mk.inj he
    exact .escape c (ih hq)
  | case4 rest =>
    obtain ⟨rfl, -⟩ := Prod.mk.inj (Option.some.inj h)
    exact .closing
  | case5 c rest hlast hescape hc ih =>
    obtain ⟨⟨q, a⟩, hq, he⟩ := Option.map_eq_some_iff.1 h
    obtain ⟨rfl, -⟩ := Prod.mk.inj he
    have hback : c ≠ '\\' := by
      intro hc
      cases rest with
      | nil => exact hlast hc rfl
      | cons d rest => exact hescape d rest hc rfl
    exact .plain hback hc (ih hq)

theorem closeQuote_of_quoted {quote : Char} (hquote : quote ≠ '\\') {quoted : List Char}
    (h : Quoted quote quoted) (after : List Char) :
    closeQuote quote (quoted ++ after) = some (quoted, after) := by
  induction h with
  | closing =>
    rw [List.singleton_append, closeQuote]
    · simp
    all_goals simp [hquote]
  | escape c _ ih => simp [closeQuote, ih]
  | plain hback hc _ ih =>
    rw [List.cons_append, closeQuote]
    · simp [hc, ih]
    all_goals simp [hback]

theorem ne_backslash_of_quote {quote : Char} (h : quote = '"' ∨ quote = '\'') : quote ≠ '\\' := by
  rcases h with rfl | rfl <;> decide

/-- A quoted text does not go on in what stands behind it. -/
theorem Quoted.append_inj {quote : Char} (hback : quote ≠ '\\') {text other : List Char}
    (htext : Quoted quote text) (hother : Quoted quote other) {rest after : List Char}
    (heq : text ++ rest = other ++ after) : text = other ∧ rest = after := by
  have hclose := closeQuote_of_quoted hback hother after
  rw [← heq, closeQuote_of_quoted hback htext] at hclose
  exact Prod.mk.inj (Option.some.inj hclose)

/-- A quoted text is closed exactly where one ends. -/
theorem closeQuote_eq_some_iff {quote : Char} (hquote : quote ≠ '\\')
    {text quoted after : List Char} :
    closeQuote quote text = some (quoted, after) ↔
      Quoted quote quoted ∧ text = quoted ++ after := by
  constructor
  · intro h
    exact ⟨quoted_of_closeQuote h, eq_of_closeQuote h⟩
  · rintro ⟨h, rfl⟩
    exact closeQuote_of_quoted hquote h after

/-! ## Section 2: Balanced texts -/

/-- A text that closes just the braces that it opens. A quote opens a quoted text, and
    two slashes a comment, which takes up its line; the braces in these do not
    count. -/
inductive BraceBalanced : List Char → Prop
  | nil : BraceBalanced []
  | plain {c : Char} {rest : List Char} : c ∉ ['{', '}', '"', '\''] →
      (c = '/' → rest.head? ≠ some '/') → BraceBalanced rest → BraceBalanced (c :: rest)
  | quoted {quote : Char} {text rest : List Char} : quote = '"' ∨ quote = '\'' →
      Quoted quote text → BraceBalanced rest → BraceBalanced (quote :: (text ++ rest))
  | comment {line rest : List Char} : '\n' ∉ line → BraceBalanced rest →
      BraceBalanced ('/' :: '/' :: (line ++ '\n' :: rest))
  | block {inner rest : List Char} : BraceBalanced inner → BraceBalanced rest →
      BraceBalanced ('{' :: (inner ++ '}' :: rest))

/-- A line end in front of a balanced text does not count either. -/
theorem BraceBalanced.of_newline {text rest : List Char} (h : BraceBalanced text)
    (heq : text = '\n' :: rest) : BraceBalanced rest := by
  cases h with
  | nil => simp at heq
  | plain _ _ hrest => exact (List.cons.inj heq).2 ▸ hrest
  | quoted hquote =>
    obtain ⟨rfl, -⟩ := List.cons.inj heq
    simp at hquote
  | comment => simp at heq
  | block => simp at heq

theorem newline_notMem_takeWhile (text : List Char) : '\n' ∉ text.takeWhile (· != '\n') := by
  intro hmem
  simpa using List.mem_takeWhile_imp hmem

/-- What is left of a text behind its first line begins with the line end. -/
theorem eq_newline_of_head?_dropWhile (text : List Char) {c : Char}
    (h : (text.dropWhile (· != '\n')).head? = some c) : c = '\n' := by
  simpa using eq_false_of_head?_dropWhile h

end Text

/-! ## Section 3: Action blocks -/

namespace Lexeme

/-- A text that closes `depth + 1` open braces, the last of them with its last
    character: balanced texts with a closing brace behind each. -/
def Closing : Nat → List Char → Prop
  | 0, text => ∃ body, BraceBalanced body ∧ text = body ++ ['}']
  | depth + 1, text =>
    ∃ body rest, BraceBalanced body ∧ Closing depth rest ∧ text = body ++ '}' :: rest

/-- What can stand in front of the first balanced text can stand in front of all. -/
theorem Closing.prepend {depth : Nat} {text pre : List Char} (h : Closing depth text)
    (hpre : ∀ body tail, BraceBalanced body → text = body ++ '}' :: tail →
      BraceBalanced (pre ++ body)) : Closing depth (pre ++ text) := by
  cases depth with
  | zero =>
    obtain ⟨body, hbody, rfl⟩ := h
    exact ⟨pre ++ body, hpre body [] hbody rfl, (List.append_assoc ..).symm⟩
  | succ depth =>
    obtain ⟨body, rest, hbody, hrest, rfl⟩ := h
    exact ⟨pre ++ body, rest, hpre body rest hbody rfl, hrest, (List.append_assoc ..).symm⟩

/-- What is read up to the closing brace closes all open braces. -/
theorem closing_of_closeBlock {opened line depth : Nat} {text inner after : List Char}
    (h : closeBlock opened line depth text = .ok (inner, after)) : Closing depth inner := by
  fun_induction closeBlock opened line depth text generalizing inner after with
  | case1 => simp at h
  | case2 => simp at h
  | case3 line depth c rest hc quoted tail hq ih =>
    obtain ⟨i, hi, rfl⟩ := map_prepend_eq_ok_iff.1 h
    refine (ih hi).prepend fun body _ hbody _ => ?_
    exact .quoted hc (quoted_of_closeQuote hq) hbody
  | case4 line depth c rest hc hslash ih =>
    obtain ⟨i, hi, rfl⟩ := map_prepend_eq_ok_iff.1 h
    have htext := eq_of_closeBlock hi
    refine (ih hi).prepend fun body tail hbody hbodytail => ?_
    -- A brace is closed behind the comment, so the comment ends with its line.
    have hnewline : ∀ d, (body ++ '}' :: tail ++ after).head? = some d → d = '\n' := by
      rw [← hbodytail, ← htext]
      exact fun d => eq_newline_of_head?_dropWhile rest
    obtain ⟨rest, rfl⟩ := List.head?_eq_some_iff.1 hslash.2
    cases body with
    | nil => exact absurd (hnewline '}' rfl) (by decide)
    | cons d body =>
      obtain rfl := hnewline d rfl
      simpa [hslash.1] using
        BraceBalanced.comment (newline_notMem_takeWhile rest) (hbody.of_newline rfl)
  | case5 line depth rest hc hslash ih =>
    obtain ⟨i, hi, rfl⟩ := map_prepend_eq_ok_iff.1 h
    obtain ⟨body, rest', hbody, hrest, rfl⟩ := ih hi
    have hblock : Closing depth ('{' :: (body ++ ['}']) ++ rest') :=
      hrest.prepend fun body' _ hbody' _ => by simpa using BraceBalanced.block hbody hbody'
    simpa [prepend] using hblock
  | case6 line rest hc hslash hne =>
    obtain ⟨rfl, -⟩ := Prod.mk.inj (Except.ok.inj h)
    exact ⟨[], .nil, rfl⟩
  | case7 line rest depth hc hslash hne ih =>
    obtain ⟨i, hi, rfl⟩ := map_prepend_eq_ok_iff.1 h
    exact ⟨[], i, .nil, ih hi, rfl⟩
  | case8 line depth c rest hc hslash hopen hclose ih =>
    obtain ⟨i, hi, rfl⟩ := map_prepend_eq_ok_iff.1 h
    have htext := eq_of_closeBlock hi
    refine (ih hi).prepend fun body tail hbody hbodytail => ?_
    refine .plain (by simp_all) (fun hc hhead => hslash ⟨hc, ?_⟩) hbody
    obtain ⟨body, rfl⟩ := List.head?_eq_some_iff.1 hhead
    simp [htext, hbodytail]

section Steps

variable {opened line depth : Nat} {rest : List Char}

theorem closeBlock_plain {c : Char} (hc : c ∉ ['{', '}', '"', '\''])
    (hslash : c = '/' → rest.head? ≠ some '/') : closeBlock opened line depth (c :: rest)
      = (closeBlock opened (line + lineCount [c]) depth rest).map (prepend [c]) := by
  simp only [List.mem_cons, List.not_mem_nil, or_false, not_or] at hc
  rw [closeBlock.eq_def]
  simp [hc]
  grind

theorem closeBlock_quoted {quote : Char} (hquote : quote = '"' ∨ quote = '\'')
    {text : List Char} (htext : Quoted quote text) :
    closeBlock opened line depth (quote :: (text ++ rest))
      = (closeBlock opened (line + lineCount text) depth rest).map (prepend (quote :: text)) := by
  have hclose := closeQuote_of_quoted (ne_backslash_of_quote hquote) htext rest
  rw [closeBlock.eq_def]
  grind

theorem closeBlock_comment {content : List Char} (hline : '\n' ∉ content) :
    closeBlock opened line depth ('/' :: '/' :: (content ++ '\n' :: rest))
      = (closeBlock opened line depth ('\n' :: rest)).map (prepend ('/' :: '/' :: content)) := by
  have hall : ∀ c ∈ content, (c != '\n') = true := by
    rintro c hc
    simpa using ne_of_mem_of_not_mem hc hline
  rw [closeBlock.eq_def]
  simp [List.takeWhile_append_of_pos hall, List.dropWhile_append_of_pos hall]

theorem closeBlock_open : closeBlock opened line depth ('{' :: rest)
    = (closeBlock opened line (depth + 1) rest).map (prepend ['{']) := by
  rw [closeBlock.eq_def]
  simp

theorem closeBlock_close : closeBlock opened line (depth + 1) ('}' :: rest)
    = (closeBlock opened line depth rest).map (prepend ['}']) := by
  rw [closeBlock.eq_def]
  simp

theorem closeBlock_last : closeBlock opened line 0 ('}' :: rest) = .ok (['}'], rest) := by
  rw [closeBlock]
  simp

end Steps

/-- A balanced text is passed over, whatever stands behind the next closing brace. -/
theorem closeBlock_append {body : List Char} (h : BraceBalanced body) (opened line depth : Nat)
    (after : List Char) : ∃ last, closeBlock opened line depth (body ++ '}' :: after)
      = (closeBlock opened last depth ('}' :: after)).map (prepend body) := by
  induction h generalizing line depth after with
  | nil =>
    refine ⟨line, ?_⟩
    cases h : closeBlock opened line depth ('}' :: after) <;> simp [Except.map, prepend, h]
  | @plain c body hc hslash _ ih =>
    obtain ⟨last, ih⟩ := ih (line + lineCount [c]) depth after
    -- The brace behind the text does not make a comment of a slash at its end.
    have hhead : c = '/' → (body ++ '}' :: after).head? ≠ some '/' := by
      intro heq
      cases body with
      | nil => simp
      | cons d body => simpa using hslash heq
    refine ⟨last, ?_⟩
    rw [List.cons_append, closeBlock_plain hc hhead, ih, map_prepend_map_prepend]
    rfl
  | @quoted quote text body hquote htext _ ih =>
    obtain ⟨last, ih⟩ := ih (line + lineCount text) depth after
    refine ⟨last, ?_⟩
    rw [List.cons_append, List.append_assoc, closeBlock_quoted hquote htext, ih,
      map_prepend_map_prepend]
    rfl
  | @comment content body hline _ ih =>
    -- The line end itself is read on its own, behind the comment.
    obtain ⟨last, ih⟩ := ih (line + lineCount ['\n']) depth after
    refine ⟨last, ?_⟩
    have hassoc : '/' :: '/' :: (content ++ '\n' :: body) ++ '}' :: after
        = '/' :: '/' :: (content ++ '\n' :: (body ++ '}' :: after)) := by simp
    have hnewline : '\n' = '/' → (body ++ '}' :: after).head? ≠ some '/' :=
      fun heq => absurd heq (by decide)
    rw [hassoc, closeBlock_comment hline, closeBlock_plain (by decide) hnewline, ih,
      map_prepend_map_prepend, map_prepend_map_prepend]
    simp
  | @block inner body _ _ ihinner ihbody =>
    -- Inside, one more brace is open; behind the block the count is what it was.
    obtain ⟨middle, ihinner⟩ := ihinner line (depth + 1) (body ++ '}' :: after)
    obtain ⟨last, ihbody⟩ := ihbody middle depth after
    refine ⟨last, ?_⟩
    have hassoc : '{' :: (inner ++ '}' :: body) ++ '}' :: after
        = '{' :: (inner ++ '}' :: (body ++ '}' :: after)) := by simp
    rw [hassoc, closeBlock_open, ihinner, closeBlock_close, ihbody, map_prepend_map_prepend,
      map_prepend_map_prepend, map_prepend_map_prepend]
    simp

/-- **Action blocks**: a block is closed exactly by the brace behind a balanced text. -/
theorem closeBlock_zero_eq_ok_iff {opened line : Nat} {text inner after : List Char} :
    closeBlock opened line 0 text = .ok (inner, after) ↔
      ∃ body, BraceBalanced body ∧ inner = body ++ ['}'] ∧ text = inner ++ after := by
  constructor
  · intro h
    obtain ⟨body, hbody, hinner⟩ := closing_of_closeBlock h
    exact ⟨body, hbody, hinner, eq_of_closeBlock h⟩
  · rintro ⟨body, hbody, rfl, rfl⟩
    obtain ⟨last, h⟩ := closeBlock_append hbody opened line 0 after
    rw [List.append_assoc, List.singleton_append, h, closeBlock_last]
    rfl

end Lexeme

end SlrCompiler
