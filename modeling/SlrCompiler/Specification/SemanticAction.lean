import SlrCompiler.GrammarError
import SlrCompiler.Text.Quoted

/-! # Semantic actions

    An action is code of the target language with placeholders in it: `$$` for the value
    of the left side, `$n` for the value of the n-th symbol of the right side, and
    either of them with a union member as in `$<member>$` and `$<member>n`. Placeholders
    do not count inside quoted texts and comments. An action is kept as its text and as
    its segments, placeholders and the code between them.

    The text is read piece by piece: `Piece.next` reads one, `Piece.readAll` reads them
    all and checks each index against the length of the right side, and
    `Segment.ofPieces` joins the code between two placeholders.
-/

namespace SlrCompiler

open Text

/-- A part of an action as a renderer sees it. -/
inductive Segment where
  /-- Code that is copied through. -/
  | text (value : String)
  /-- The value of the left side, `$$`. -/
  | result
  /-- The value of the n-th symbol, `$n`. -/
  | argument (index : Nat)
  /-- The value of the left side as a union member, `$<member>$`. -/
  | typedResult (member : String)
  /-- The value of the n-th symbol as a union member, `$<member>n`. -/
  | typedArgument (member : String) (index : Nat)
  deriving DecidableEq, Repr

/-- The code of a rule with its placeholders located. -/
structure SemanticAction where
  text : String
  segments : List Segment
  deriving DecidableEq, Repr

/-! ## Pieces -/

/-- What a placeholder stands for. -/
inductive Target where
  | result
  | argument (index : Nat)
  deriving DecidableEq, Repr

/-- A part of the code that is read as a whole. -/
inductive Piece where
  /-- A quoted text, a comment or a single character. -/
  | verbatim (text : List Char)
  | placeholder (member : Option (List Char)) (target : Target)
  deriving DecidableEq, Repr

namespace Piece

/-- Indices from this one on, two to the power of 64, are too large for a placeholder. -/
def indexLimit : Nat := 0x10000000000000000

theorem indexLimit_eq : indexLimit = Nat.pow 2 64 := by decide

/-- Reads what a placeholder stands for, after its dollar sign and its member. -/
def readTarget (text : List Char) : Except ActionFault (Option (Target × List Char)) :=
  match text with
  | '$' :: rest => .ok (some (.result, rest))
  | _ =>
    let digits := text.takeWhile isDigit
    if digits.isEmpty then .ok none
    else if decimalValue digits < indexLimit then
      .ok (some (.argument (decimalValue digits), text.dropWhile isDigit))
    else .error .indexTooLarge

/-- Reads a placeholder with a member, after its `$<`. -/
def readTagged (text : List Char) : Except ActionFault (Piece × List Char) :=
  match cutAt ['>'] text with
  | none => .error .unterminatedTag
  | some (member, after) =>
    if isIdentifier member then
      match readTarget after with
      | .error fault => .error fault
      | .ok none => .error .strayTag
      | .ok (some (target, rest)) => .ok (.placeholder (some member) target, rest)
    else .error .malformedTag

/-- Reads what begins with a dollar sign. A dollar sign that opens no placeholder is code. -/
def readDollar (text : List Char) : Except ActionFault (Piece × List Char) :=
  match text with
  | '<' :: rest => readTagged rest
  | _ =>
    match readTarget text with
    | .error fault => .error fault
    | .ok none => .ok (.verbatim ['$'], text)
    | .ok (some (target, rest)) => .ok (.placeholder none target, rest)

/-- Reads what begins with a slash. -/
def readSlash (text : List Char) : Except ActionFault (Piece × List Char) :=
  match text with
  | '*' :: rest =>
    match cutAt ['*', '/'] rest with
    | none => .error .unterminatedComment
    | some (inner, after) => .ok (.verbatim (['/', '*'] ++ inner ++ ['*', '/']), after)
  | '/' :: _ => .ok (.verbatim ('/' :: text.takeWhile (· != '\n')), text.dropWhile (· != '\n'))
  | _ => .ok (.verbatim ['/'], text)

/-- Reads the first piece of a text that begins with `c`. -/
def next (c : Char) (rest : List Char) : Except ActionFault (Piece × List Char) :=
  if c = '"' ∨ c = '\'' then
    match closeQuote c rest with
    | none => .error .unterminatedLiteral
    | some (quoted, after) => .ok (.verbatim (c :: quoted), after)
  else if c = '/' then readSlash rest
  else if c = '$' then readDollar rest
  else .ok (.verbatim [c], rest)

/-! ## Every piece is a step ahead -/

theorem suffix_of_readTarget {text rest : List Char} {target : Target}
    (h : readTarget text = .ok (some (target, rest))) : rest <:+ text := by
  simp only [readTarget] at h
  split at h
  · simp only [Except.ok.injEq, Option.some.injEq, Prod.mk.injEq] at h
    exact h.2 ▸ List.suffix_cons '$' _
  · split at h
    · simp at h
    · split at h
      · simp only [Except.ok.injEq, Option.some.injEq, Prod.mk.injEq] at h
        exact h.2 ▸ List.dropWhile_suffix _
      · simp at h

theorem suffix_of_readTagged {text rest : List Char} {piece : Piece}
    (h : readTagged text = .ok (piece, rest)) : rest <:+ text := by
  simp only [readTagged] at h
  split at h
  · simp at h
  · rename_i member after hcut
    split at h
    · split at h
      · simp at h
      · simp at h
      · rename_i target tail htarget
        simp only [Except.ok.injEq, Prod.mk.injEq] at h
        exact h.2 ▸ (suffix_of_readTarget htarget).trans (suffix_of_cutAt hcut)
    · simp at h

theorem suffix_of_readDollar {text rest : List Char} {piece : Piece}
    (h : readDollar text = .ok (piece, rest)) : rest <:+ text := by
  simp only [readDollar] at h
  split at h
  · exact (suffix_of_readTagged h).trans (List.suffix_cons '<' _)
  · split at h
    · simp at h
    · simp only [Except.ok.injEq, Prod.mk.injEq] at h
      exact h.2 ▸ List.suffix_rfl
    · rename_i target tail htarget
      simp only [Except.ok.injEq, Prod.mk.injEq] at h
      exact h.2 ▸ suffix_of_readTarget htarget

theorem suffix_of_readSlash {text rest : List Char} {piece : Piece}
    (h : readSlash text = .ok (piece, rest)) : rest <:+ text := by
  simp only [readSlash] at h
  split at h
  · split at h
    · simp at h
    · rename_i inner after hcut
      simp only [Except.ok.injEq, Prod.mk.injEq] at h
      exact h.2 ▸ (suffix_of_cutAt hcut).trans (List.suffix_cons '*' _)
  · simp only [Except.ok.injEq, Prod.mk.injEq] at h
    exact h.2 ▸ List.dropWhile_suffix _
  · simp only [Except.ok.injEq, Prod.mk.injEq] at h
    exact h.2 ▸ List.suffix_rfl

/-- What is left after a piece is the end of what followed its first character. -/
theorem suffix_of_next {c : Char} {text rest : List Char} {piece : Piece}
    (h : next c text = .ok (piece, rest)) : rest <:+ text := by
  simp only [next] at h
  split at h
  · split at h
    · simp at h
    · rename_i quoted after hq
      simp only [Except.ok.injEq, Prod.mk.injEq] at h
      exact h.2 ▸ suffix_of_closeQuote hq
  · split at h
    · exact suffix_of_readSlash h
    · split at h
      · exact suffix_of_readDollar h
      · simp only [Except.ok.injEq, Prod.mk.injEq] at h
        exact h.2 ▸ List.suffix_rfl

/-! ## All pieces -/

/-- The index of a placeholder that no right side of the given length has. -/
def excess? (arity : Nat) : Piece → Option Nat
  | .placeholder _ (.argument index) =>
    if 1 ≤ index ∧ index ≤ arity then none else some index
  | _ => none

/-- Cuts the action of a rule into pieces, up to the first fault. -/
def readAll (rule arity : Nat) (text : List Char) : Except GrammarError (List Piece) :=
  match text with
  | [] => .ok []
  | c :: rest =>
    match _ : next c rest with
    | .error fault => .error (.malformedAction rule fault)
    | .ok (piece, after) =>
      match piece.excess? arity with
      | some index => .error (.placeholderOutOfRange rule index arity)
      | none => (readAll rule arity after).map (piece :: ·)
termination_by text.length
decreasing_by
  have := (suffix_of_next ‹_›).length_le
  simp only [List.length_cons]
  omega

end Piece

/-! ## Segments -/

namespace Segment

/-- The segment of a placeholder. -/
def ofPlaceholder : Option (List Char) → Target → Segment
  | none, .result => .result
  | none, .argument index => .argument index
  | some member, .result => .typedResult (String.ofList member)
  | some member, .argument index => .typedArgument (String.ofList member) index

/-- Puts code in front of segments; no code, no segment. -/
def withCode (code : List Char) (segments : List Segment) : List Segment :=
  if code.isEmpty then segments else .text (String.ofList code) :: segments

/-- The code before the first placeholder, and the segments from that placeholder on. -/
def gather : List Piece → List Char × List Segment
  | [] => ([], [])
  | .verbatim code :: pieces =>
    let tail := gather pieces
    (code ++ tail.1, tail.2)
  | .placeholder member target :: pieces =>
    let tail := gather pieces
    ([], ofPlaceholder member target :: withCode tail.1 tail.2)

/-- The segments of a list of pieces: code between two placeholders is one segment. -/
def ofPieces (pieces : List Piece) : List Segment :=
  let tail := gather pieces
  withCode tail.1 tail.2

end Segment

/-- Reads the action of the rule with the given number and right side length. -/
def SemanticAction.parse (text : List Char) (rule arity : Nat) :
    Except GrammarError SemanticAction :=
  (Piece.readAll rule arity text).map fun pieces =>
    { text := String.ofList text, segments := Segment.ofPieces pieces }

end SlrCompiler
