import SlrCompiler.Proofs.Specification.Marks
import SlrCompiler.Proofs.Specification.ScanPositions
import SlrCompiler.Specification.SemanticAction

/-! # Actions by position

    The code of an action is read from its front, with the position of the next
    character. Here the reader takes characters out by position in many places: a
    comment from its first character to behind the mark that closes it, a member
    between its angle brackets, the digits of an index. The mark that closes a comment
    is looked for by its two characters, up to the last place but one.

    Every one of these cuts is made where the text has been seen to be long enough. So
    a reader that has no value where one is out of range has a value for every action,
    at every position (`readAllAt_eq`).
-/

namespace SlrCompiler

open Text

namespace Text

/-! ## Section 1: Cuts between two positions -/

/-- The characters from one position up to another; nothing if they do not follow each other or
    if the second one is past the end. -/
def charsBetween (start stop : Nat) (chars : List Char) : Option (List Char) :=
  if start ≤ stop ∧ stop ≤ chars.length then some ((chars.take stop).drop start) else none

/-- The position at which the mark that closes a comment begins, looked for from a position on;
    nothing where a character is looked at that is not there. -/
def commentEnd (chars : List Char) (pos : Nat) : Option (Option Nat) :=
  if pos < chars.length - 1 then
    match chars[pos]? with
    | none => none
    | some c =>
      if c = '*' then
        match chars[pos + 1]? with
        | none => none
        | some d => if d = '/' then some (some pos) else commentEnd chars (pos + 1)
      else commentEnd chars (pos + 1)
  else some none
termination_by chars.length - pos

namespace StandsAt

variable {chars text rest : List Char} {pos : Nat}

theorem charsBetween_eq {taken : List Char} {stop : Nat} (h : StandsAt chars pos (taken ++ rest))
    (hstop : stop = pos + taken.length) : charsBetween pos stop chars = some taken := by
  have hrest := h.advance.pos_le
  rw [← hstop] at hrest
  rw [charsBetween, if_pos ⟨by omega, hrest⟩, List.drop_take, h.drop_eq, hstop,
    Nat.add_sub_cancel_left, List.take_left]

theorem of_suffix (h : StandsAt chars pos text) (hrest : rest <:+ text) :
    StandsAt chars (chars.length - rest.length) rest := by
  obtain ⟨taken, rfl⟩ := hrest
  have hafter := h.advance
  rwa [hafter.pos_eq] at hafter

/-- The mark is found where the text is cut. -/
theorem commentEnd_eq (h : StandsAt chars pos text) :
    commentEnd chars pos = some ((cutAt ['*', '/'] text).map fun cut => pos + cut.1.length) := by
  induction text generalizing pos with
  | nil =>
    have hlength := h.pos_add_length
    rw [commentEnd, if_neg (by simp at hlength; omega)]
    rfl
  | cons c rest ih =>
    have hlength := h.pos_add_length
    rw [commentEnd, cutAt, h.getElem?_eq, h.next.getElem?_eq, ih h.next]
    cases rest with
    | nil =>
      rw [if_neg (by simp at hlength; omega)]
      simp [afterMark?, cutAt]
    | cons d tail =>
      rw [if_pos (by simp at hlength; omega)]
      by_cases hc : '*' = c
      · by_cases hd : '/' = d
        · simp [afterMark?, ← hc, ← hd]
        · simp [afterMark?, ← hc, hd, Ne.symm hd, Function.comp_def, Nat.add_assoc, Nat.add_comm 1]
      · simp [afterMark?, hc, Ne.symm hc, Function.comp_def, Nat.add_assoc, Nat.add_comm 1]

end StandsAt

/-- The position of a character is the number of characters before it. -/
theorem findIdx?_eq (c : Char) (text : List Char) :
    text.findIdx? (· == c) = (cutAt [c] text).map fun cut => cut.1.length := by
  induction text with
  | nil => rfl
  | cons d rest ih =>
    rw [List.findIdx?_cons, cutAt, afterMark?, afterMark?, ih]
    by_cases hd : c = d
    · simp [hd]
    · simp [hd, Ne.symm hd, Function.comp_def]

end Text

namespace Piece

/-! ## Section 2: The reader -/

/-- What the placeholder stands for whose ending begins at a position, and the position behind
    it. -/
def readTargetAt (chars : List Char) (pos : Nat) :
    Option (Except ActionFault (Option (Target × Nat))) :=
  match chars[pos]? with
  | none => some (.ok none)
  | some d =>
    if d = '$' then some (.ok (some (.result, pos + 1)))
    else if isDigit d then do
      let digits := (← charsFrom pos chars).takeWhile isDigit
      return if decimalValue digits < indexLimit then
        .ok (some (.argument (decimalValue digits), pos + digits.length))
      else .error .indexTooLarge
    else some (.ok none)

/-- The placeholder whose `$<` stands in front of a position. -/
def readTaggedAt (chars : List Char) (pos : Nat) : Option (Except ActionFault (Piece × Nat)) := do
  match (← charsFrom pos chars).findIdx? (· == '>') with
  | none => return .error .unterminatedTag
  | some found =>
    let closing := pos + found
    let member ← charsBetween pos closing chars
    if isIdentifier member then
      match ← readTargetAt chars (closing + 1) with
      | .error fault => return .error fault
      | .ok none => return .error .strayTag
      | .ok (some (target, after)) => return .ok (.placeholder (some member) target, after)
    else return .error .malformedTag

/-- What begins with the dollar sign at a position. -/
def readDollarAt (chars : List Char) (pos : Nat) : Option (Except ActionFault (Piece × Nat)) :=
  if chars[pos + 1]? = some '<' then readTaggedAt chars (pos + 2)
  else do
    match ← readTargetAt chars (pos + 1) with
    | .error fault => return .error fault
    | .ok none => return .ok (.verbatim ['$'], pos + 1)
    | .ok (some (target, after)) => return .ok (.placeholder none target, after)

/-- What begins with the slash at a position. -/
def readSlashAt (chars : List Char) (pos : Nat) : Option (Except ActionFault (Piece × Nat)) :=
  if chars[pos + 1]? = some '*' then do
    match ← commentEnd chars (pos + 2) with
    | none => return .error .unterminatedComment
    | some stop => return .ok (.verbatim (← charsBetween pos (stop + 2) chars), stop + 2)
  else if chars[pos + 1]? = some '/' then
    let (comment, after) := passWhile (· != '\n') chars pos
    some (.ok (.verbatim comment, after))
  else some (.ok (.verbatim ['/'], pos + 1))

/-- The piece at a position where `c` stands, and the position behind it. -/
def nextAt (chars : List Char) (c : Char) (pos : Nat) : Option (Except ActionFault (Piece × Nat)) :=
  if c = '"' ∨ c = '\'' then
    match closeQuoteAt c chars (pos + 1) with
    | none => some (.error .unterminatedLiteral)
    | some (quoted, after) => some (.ok (.verbatim (c :: quoted), after))
  else if c = '/' then readSlashAt chars pos
  else if c = '$' then readDollarAt chars pos
  else some (.ok (.verbatim [c], pos + 1))

/-- The pieces from a position on, up to the first fault. A piece has to end behind its beginning,
    and not past the end. -/
def readAllAt (chars : List Char) (rule arity pos : Nat) :
    Option (Except GrammarError (List Piece)) :=
  if pos < chars.length then
    match chars[pos]? with
    | none => none
    | some c =>
      match nextAt chars c pos with
      | none => none
      | some (.error fault) => some (.error (.malformedAction rule fault))
      | some (.ok (piece, after)) =>
        match piece.excess? arity with
        | some index => some (.error (.placeholderOutOfRange rule index arity))
        | none =>
          if pos < after ∧ after ≤ chars.length then
            (readAllAt chars rule arity after).map (Except.map (piece :: ·))
          else none
  else some (.ok [])
termination_by chars.length - pos

/-! ## Section 3: Pieces at a position -/

/-- What has been read, and the position behind it, by what is left. -/
def endingAt {α : Type} (size : Nat) (read : α × List Char) : α × Nat :=
  (read.1, size - read.2.length)

variable {chars text rest : List Char} {pos : Nat}

theorem readTargetAt_eq (h : StandsAt chars pos text) :
    readTargetAt chars pos
      = some ((readTarget text).map (Option.map (endingAt chars.length))) := by
  rw [readTargetAt, h.getElem?_eq]
  cases text with
  | nil => rfl
  | cons d rest =>
    by_cases hdollar : d = '$'
    · subst hdollar
      simp [readTarget, Except.map, endingAt, ← h.next.pos_eq]
    by_cases hdigit : isDigit d = true
    · have hread : readTarget (d :: rest)
          = if decimalValue ((d :: rest).takeWhile isDigit) < indexLimit then
              .ok (some (.argument (decimalValue ((d :: rest).takeWhile isDigit)),
                (d :: rest).dropWhile isDigit))
            else .error .indexTooLarge := by
        rw [readTarget]
        · simp [hdigit]
        · rintro _ heq
          exact hdollar (List.cons.inj heq).1
      have hafter := (h.passed isDigit).pos_eq
      simp only [List.head?_cons, if_neg hdollar, if_pos hdigit, h.charsFrom_eq, hread,
        Option.bind_eq_bind, Option.bind_some, hafter]
      split <;> rfl
    · simp [readTarget, Except.map, hdollar, hdigit]

theorem readTaggedAt_eq (h : StandsAt chars pos text) :
    readTaggedAt chars pos = some ((readTagged text).map (endingAt chars.length)) := by
  rw [readTaggedAt, readTagged, h.charsFrom_eq]
  simp only [Option.bind_eq_bind, Option.bind_some, findIdx?_eq]
  cases hclose : cutAt ['>'] text with
  | none => rfl
  | some cut =>
    obtain ⟨member, after⟩ := cut
    have htext : StandsAt chars pos (member ++ '>' :: after) := by
      simpa [eq_of_cutAt hclose] using h
    have hafter : StandsAt chars (pos + member.length + 1) after := htext.advance.next
    simp only [Option.map_some, htext.charsBetween_eq rfl, Option.bind_some, readTargetAt_eq hafter]
    split
    · cases readTarget after with
      | error fault => rfl
      | ok target =>
        cases target <;> rfl
    · rfl

theorem readDollarAt_eq (h : StandsAt chars pos ('$' :: text)) :
    readDollarAt chars pos = some ((readDollar text).map (endingAt chars.length)) := by
  rw [readDollarAt, h.next.getElem?_eq, readTargetAt_eq h.next]
  unfold readDollar
  split
  · rename_i hlt
    obtain ⟨rest, rfl⟩ := List.head?_eq_some_iff.1 hlt
    exact readTaggedAt_eq h.next.next
  · rename_i hlt
    split
    · simp at hlt
    · cases readTarget text with
      | error fault => rfl
      | ok target =>
        cases target with
        | none =>
          rw [h.next.pos_eq]
          rfl
        | some target => rfl

theorem readSlashAt_eq (h : StandsAt chars pos ('/' :: text)) :
    readSlashAt chars pos = some ((readSlash text).map (endingAt chars.length)) := by
  rw [readSlashAt, h.next.getElem?_eq]
  unfold readSlash
  split
  · rename_i hstar
    obtain ⟨rest, rfl⟩ := List.head?_eq_some_iff.1 hstar
    rw [h.next.next.commentEnd_eq]
    simp only
    cases hclose : cutAt ['*', '/'] rest with
    | none => rfl
    | some cut =>
      obtain ⟨inner, after⟩ := cut
      have htext : StandsAt chars pos (('/' :: '*' :: inner ++ ['*', '/']) ++ after) := by
        simpa [eq_of_cutAt hclose] using h
      have hafter := htext.advance.pos_eq
      have hstop : pos + 2 + inner.length + 2
          = pos + ('/' :: '*' :: inner ++ ['*', '/']).length := by
        simp
        omega
      simp only [Option.map_some, Option.bind_eq_bind, Option.bind_some,
        htext.charsBetween_eq hstop]
      rw [hstop, hafter]
      rfl
  split
  · rename_i hslash
    obtain ⟨rest, rfl⟩ := List.head?_eq_some_iff.1 hslash
    have hafter := (h.passed (· != '\n')).pos_eq
    rw [h.passWhile_eq, hafter]
    rfl
  · rename_i hstar hslash
    rw [h.next.pos_eq]
    split
    · simp at hstar
    · simp at hslash
    · rfl

theorem nextAt_eq {c : Char} (h : StandsAt chars pos (c :: text)) :
    nextAt chars c pos = some ((next c text).map (endingAt chars.length)) := by
  rw [nextAt, next]
  split
  · rw [h.next.closeQuoteAt_eq]
    cases hclose : closeQuote c text with
    | none => rfl
    | some cut =>
      have hafter : StandsAt chars (pos + 1 + cut.1.length) cut.2 :=
        .advance (by rw [← eq_of_closeQuote hclose]; exact h.next)
      simp [Except.map, endingAt, ← hafter.pos_eq]
  split
  · rename_i hc
    subst hc
    exact readSlashAt_eq h
  split
  · rename_i hc
    subst hc
    exact readDollarAt_eq h
  · rw [h.next.pos_eq]
    rfl

/-- **Actions**: at every position the pieces are those of the text that stands there. -/
theorem readAllAt_eq (rule arity : Nat) (h : StandsAt chars pos text) :
    readAllAt chars rule arity pos = some (readAll rule arity text) := by
  induction hlength : text.length using Nat.strongRecOn generalizing text pos with
  | ind _ ih =>
    have hsize := h.pos_add_length
    rw [readAllAt, h.getElem?_eq]
    cases text with
    | nil =>
      rw [if_neg (by simp at hsize; omega), readAll]
    | cons c rest =>
      rw [if_pos (by simp at hsize; omega), readAll]
      simp only [List.head?_cons, nextAt_eq h]
      cases hnext : next c rest with
      | error fault => rfl
      | ok found =>
        obtain ⟨piece, after⟩ := found
        -- the piece is taken off the front, so its end is ahead and the rest stands there
        have hsuffix := suffix_of_next hnext
        have hafter := h.of_suffix (hsuffix.trans (List.suffix_cons c rest))
        have hshorter : after.length < (c :: rest).length :=
          Nat.lt_succ_of_le hsuffix.length_le
        simp only [Except.map, endingAt]
        cases piece.excess? arity with
        | some index => rfl
        | none =>
          have hahead : pos < chars.length - after.length := by
            have := hafter.pos_add_length
            omega
          simp only [if_pos (And.intro hahead hafter.pos_le), ih _ (hlength ▸ hshorter) hafter rfl]
          rfl

end Piece

end SlrCompiler
