import SlrCompiler.GrammarError
import SlrCompiler.Text.Quoted

/-! # The lexemes of a rules section

    A rules section is a sequence of names, quoted literals, action blocks, `%prec`
    clauses and the marks `:`, `|` and `;`, with blanks in between. `Lexeme.scan` cuts a
    section into its lexemes. What it finds does not depend on the order of the lexemes,
    so a fault of the text is found apart from a fault in the form of the rules.

    Each lexeme is placed on the line on which it ends.
-/

namespace SlrCompiler

open Text

/-- A piece of a rules section. -/
inductive Lexeme where
  | colon
  | bar
  | semicolon
  /-- A quoted terminal, quotes included. -/
  | literal (text : String)
  /-- An action block, braces included. -/
  | action (text : String)
  /-- A `%prec` clause. -/
  | prec (argument : String)
  | name (text : String)
  deriving DecidableEq, Repr

/-- A lexeme and the line on which it ends. -/
structure PlacedLexeme where
  lexeme : Lexeme
  line : Nat
  deriving DecidableEq, Repr

/-- The lexemes of a text, and how the text ends: at a line, or with a fault. -/
structure LexemeScan where
  lexemes : List PlacedLexeme
  ending : Except GrammarError Nat

namespace Lexeme

/-! ## Action blocks -/

/-- Puts characters in front of the first part of a cut. -/
def prepend (taken : List Char) (cut : List Char × List Char) : List Char × List Char :=
  (taken ++ cut.1, cut.2)

theorem map_prepend_eq_ok_iff {pre inner after : List Char}
    {x : Except GrammarError (List Char × List Char)} :
    x.map (prepend pre) = .ok (inner, after) ↔
      ∃ rest, x = .ok (rest, after) ∧ inner = pre ++ rest := by
  cases x with
  | error e => simp [Except.map]
  | ok found =>
    obtain ⟨rest, tail⟩ := found
    simp only [Except.map, prepend, Except.ok.injEq, Prod.mk.injEq]
    constructor
    · rintro ⟨rfl, rfl⟩
      exact ⟨rest, ⟨rfl, rfl⟩, rfl⟩
    · rintro ⟨_, ⟨rfl, rfl⟩, rfl⟩
      exact ⟨rfl, rfl⟩

theorem map_prepend_map_prepend (u v : List Char)
    (x : Except GrammarError (List Char × List Char)) :
    (x.map (prepend v)).map (prepend u) = x.map (prepend (u ++ v)) := by
  cases x <;> simp [Except.map, prepend]

/-- The rest of an action block up to the brace that closes `depth + 1` open ones, and the text
    after it. Quoted texts and line comments are passed over as a whole. The block was opened on
    line `opened`, and `line` is the line of the first character of `text`. -/
def closeBlock (opened line depth : Nat) (text : List Char) :
    Except GrammarError (List Char × List Char) :=
  match text with
  | [] => .error (.unmatchedBrace opened)
  | c :: rest =>
    if c = '"' ∨ c = '\'' then
      match _ : closeQuote c rest with
      | none => .error (.unmatchedQuote line)
      | some (quoted, after) =>
        (closeBlock opened (line + lineCount quoted) depth after).map (prepend (c :: quoted))
    else if c = '/' ∧ rest.head? = some '/' then
      (closeBlock opened line depth (rest.dropWhile (· != '\n'))).map
        (prepend (c :: rest.takeWhile (· != '\n')))
    else if c = '{' then (closeBlock opened line (depth + 1) rest).map (prepend [c])
    else if c = '}' then
      match depth with
      | 0 => .ok ([c], rest)
      | depth + 1 => (closeBlock opened line depth rest).map (prepend [c])
    else (closeBlock opened (line + lineCount [c]) depth rest).map (prepend [c])
termination_by text.length
decreasing_by
  · have := (suffix_of_closeQuote ‹_›).length_le
    simp only [List.length_cons]
    omega
  · have := (List.dropWhile_suffix (· != '\n') (l := rest)).length_le
    simp only [List.length_cons]
    omega
  all_goals simp

/-! ## One lexeme -/

/-- What stands next in a text. -/
inductive Next where
  /-- Only blanks are left, and they end on this line. -/
  | finished (line : Nat)
  | found (placed : PlacedLexeme) (rest : List Char)
  | fault (error : GrammarError)

/-- Reads a quoted literal after its opening quote, and wraps its text. -/
def readLiteral (wrap : String → Lexeme) (line : Nat) (text : List Char) : Next :=
  match closeQuote '\'' text with
  | none => .fault (.unmatchedQuote line)
  | some (quoted, after) =>
    .found ⟨wrap (String.ofList ('\'' :: quoted)), line + lineCount quoted⟩ after

/-- Reads a name that begins with `c`, and wraps its text. -/
def readName (wrap : String → Lexeme) (line : Nat) (c : Char) (text : List Char) : Next :=
  .found ⟨wrap (String.ofList (c :: text.takeWhile isIdentifierChar)), line⟩
    (text.dropWhile isIdentifierChar)

/-- Reads the argument of a `%prec` clause. -/
def readPrecArgument (line : Nat) (text : List Char) : Next :=
  let line := line + lineCount (text.takeWhile isBlank)
  match text.dropWhile isBlank with
  | [] => .fault (.missingPrecArgument line)
  | c :: rest =>
    if c = ';' ∨ c = '|' ∨ c = '{' then .fault (.missingPrecArgument line)
    else if c = '\'' then readLiteral .prec line rest
    else if isIdentifierChar c then readName .prec line c rest
    else .fault (.malformedPrec line (String.ofList (c :: rest.takeWhile (!isBlank ·))))

/-- Reads a directive after its `%`; `%prec` is the only one. -/
def readDirective (line : Nat) (text : List Char) : Next :=
  let directive := String.ofList (text.takeWhile isIdentifierChar)
  if directive = "prec" then readPrecArgument line (text.dropWhile isIdentifierChar)
  else .fault (.malformedRule line (.unknownDirective directive))

/-- Reads an action block after its opening brace. -/
def readAction (line : Nat) (text : List Char) : Next :=
  match closeBlock line line 0 text with
  | .error e => .fault e
  | .ok (inner, after) =>
    .found ⟨.action (String.ofList ('{' :: inner)), line + lineCount inner⟩ after

/-- Reads the first lexeme of a text that begins on the given line. -/
def next (line : Nat) (text : List Char) : Next :=
  let line := line + lineCount (text.takeWhile isBlank)
  match text.dropWhile isBlank with
  | [] => .finished line
  | c :: rest =>
    if c = ':' then .found ⟨.colon, line⟩ rest
    else if c = '|' then .found ⟨.bar, line⟩ rest
    else if c = ';' then .found ⟨.semicolon, line⟩ rest
    else if c = '\'' then readLiteral .literal line rest
    else if c = '{' then readAction line rest
    else if c = '}' then .fault (.unexpectedCloseBrace line)
    else if c = '%' then readDirective line rest
    else if isIdentifierChar c then readName .name line c rest
    else .fault (.malformedRule line (.strayCharacter c))

/-! ## Every lexeme is a step ahead -/

theorem eq_of_closeBlock {opened line depth : Nat} {text inner after : List Char}
    (h : closeBlock opened line depth text = .ok (inner, after)) : text = inner ++ after := by
  fun_induction closeBlock opened line depth text generalizing inner after with
  | case1 => simp at h
  | case2 => simp at h
  | case3 line depth c rest hc quoted tail hq ih =>
    obtain ⟨body, hbody, rfl⟩ := map_prepend_eq_ok_iff.1 h
    rw [eq_of_closeQuote hq, ih hbody, List.cons_append, List.cons_append, List.append_assoc]
  | case4 line depth c rest hc hslash ih =>
    obtain ⟨body, hbody, rfl⟩ := map_prepend_eq_ok_iff.1 h
    rw [List.cons_append, List.cons_append, List.append_assoc, ← ih hbody,
      List.takeWhile_append_dropWhile]
  | case6 =>
    obtain ⟨rfl, rfl⟩ := Prod.mk.inj (Except.ok.inj h)
    rfl
  | case5 | case7 | case8 =>
    rename_i ih
    obtain ⟨body, hbody, rfl⟩ := map_prepend_eq_ok_iff.1 h
    rw [ih hbody, List.append_assoc, List.singleton_append]

theorem length_readLiteral_le {wrap : String → Lexeme} {line : Nat} {text rest : List Char}
    {placed : PlacedLexeme} (h : readLiteral wrap line text = .found placed rest) :
    rest.length ≤ text.length := by
  simp only [readLiteral] at h
  split at h
  · simp at h
  · rename_i quoted after hq
    simp only [Next.found.injEq] at h
    exact h.2 ▸ (suffix_of_closeQuote hq).length_le

theorem length_readName_le {wrap : String → Lexeme} {line : Nat} {c : Char}
    {text rest : List Char} {placed : PlacedLexeme}
    (h : readName wrap line c text = .found placed rest) : rest.length ≤ text.length := by
  simp only [readName, Next.found.injEq] at h
  exact h.2 ▸ (List.dropWhile_suffix _).length_le

theorem length_readPrecArgument_le {line : Nat} {text rest : List Char}
    {placed : PlacedLexeme} (h : readPrecArgument line text = .found placed rest) :
    rest.length ≤ text.length := by
  have hskip := (List.dropWhile_suffix isBlank (l := text)).length_le
  simp only [readPrecArgument] at h
  split at h
  · simp at h
  · rename_i c tail hc
    rw [hc, List.length_cons] at hskip
    split at h
    · simp at h
    · split at h
      · have := length_readLiteral_le h; omega
      · split at h
        · have := length_readName_le h; omega
        · simp at h

theorem length_readDirective_le {line : Nat} {text rest : List Char} {placed : PlacedLexeme}
    (h : readDirective line text = .found placed rest) : rest.length ≤ text.length := by
  simp only [readDirective] at h
  split at h
  · have := length_readPrecArgument_le h
    have := (List.dropWhile_suffix isIdentifierChar (l := text)).length_le
    omega
  · simp at h

theorem length_readAction_le {line : Nat} {text rest : List Char} {placed : PlacedLexeme}
    (h : readAction line text = .found placed rest) : rest.length ≤ text.length := by
  simp only [readAction] at h
  split at h
  · simp at h
  · rename_i inner after hb
    simp only [Next.found.injEq] at h
    rw [← h.2, eq_of_closeBlock hb, List.length_append]
    omega

/-- A lexeme takes at least one character. -/
theorem length_next_lt {line : Nat} {text rest : List Char} {placed : PlacedLexeme}
    (h : next line text = .found placed rest) : rest.length < text.length := by
  have hskip := (List.dropWhile_suffix isBlank (l := text)).length_le
  simp only [next] at h
  split at h
  · simp at h
  · rename_i c tail hc
    rw [hc, List.length_cons] at hskip
    split at h
    · simp only [Next.found.injEq] at h; rw [← h.2]; omega
    split at h
    · simp only [Next.found.injEq] at h; rw [← h.2]; omega
    split at h
    · simp only [Next.found.injEq] at h; rw [← h.2]; omega
    split at h
    · have := length_readLiteral_le h; omega
    split at h
    · have := length_readAction_le h; omega
    split at h
    · simp at h
    split at h
    · have := length_readDirective_le h; omega
    split at h
    · have := length_readName_le h; omega
    · simp at h

/-! ## All lexemes -/

/-- Cuts a text that begins on the given line into lexemes, up to its end or its first fault. -/
def scan (line : Nat) (text : List Char) : LexemeScan :=
  match _ : next line text with
  | .finished last => ⟨[], .ok last⟩
  | .fault e => ⟨[], .error e⟩
  | .found placed rest =>
    let tail := scan placed.line rest
    ⟨placed :: tail.lexemes, tail.ending⟩
termination_by text.length
decreasing_by exact length_next_lt ‹_›

end Lexeme

end SlrCompiler
