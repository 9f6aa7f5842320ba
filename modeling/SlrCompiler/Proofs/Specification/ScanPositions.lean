import SlrCompiler.Proofs.Specification.Braces
import SlrCompiler.Proofs.Specification.LexemePlaces

/-! # Scanning by position

    A rules section is scanned from its front. The scanner looks at the character at its
    position and at the one behind it, moves on past what it has seen, and in one place
    takes all characters from its position on. There it would fail if it had moved past
    the end.

    The scanner is written here as such a walk over the characters of the section. It
    starts its count of braces in front of a block, and it has no value where a slice is
    out of range, where a brace is closed that is not open, or where a lexeme does not end
    behind its beginning and in the section. Each of its readers does at a position what
    is done with the text that stands there (`Text.StandsAt`), and ends in front of the text
    that is left (`nextAt_eq`). So it has a value for every section (`scanAt_eq`).
-/

namespace SlrCompiler

open Text

namespace Text

/-! ## Section 1: Positions of characters -/

/-- What stands at a position of some characters; the position is not past their end. -/
structure StandsAt (chars : List Char) (pos : Nat) (text : List Char) : Prop where
  pos_le : pos ≤ chars.length
  drop_eq : chars.drop pos = text

/-- The characters from a position on; nothing past the end. -/
def charsFrom (start : Nat) (chars : List Char) : Option (List Char) :=
  if start ≤ chars.length then some (chars.drop start) else none

/-- The characters from a position on as long as they satisfy `p`, and the position behind
    them. -/
def passWhile (p : Char → Bool) (chars : List Char) (pos : Nat) : List Char × Nat :=
  match _ : chars[pos]? with
  | none => ([], pos)
  | some c =>
    if p c then
      let (passed, after) := passWhile p chars (pos + 1)
      (c :: passed, after)
    else ([], pos)
termination_by chars.length - pos
decreasing_by
  have := (List.getElem?_eq_some_iff.1 ‹_›).1
  omega

/-- The rest of a quoted text whose opening quote stands in front of a position, and the position
    behind it. -/
def closeQuoteAt (quote : Char) (chars : List Char) (pos : Nat) : Option (List Char × Nat) :=
  match _ : chars[pos]? with
  | none => none
  | some c =>
    if c = '\\' then
      match chars[pos + 1]? with
      | none => none
      | some d =>
        (closeQuoteAt quote chars (pos + 2)).map fun (quoted, after) => (c :: d :: quoted, after)
    else if c = quote then some ([c], pos + 1)
    else (closeQuoteAt quote chars (pos + 1)).map fun (quoted, after) => (c :: quoted, after)
termination_by chars.length - pos
decreasing_by
  all_goals
    have := (List.getElem?_eq_some_iff.1 ‹chars[pos]? = some c›).1
    omega

namespace StandsAt

variable {chars text rest : List Char} {pos : Nat}

/-- A backslash that neither ends a quoted text nor escapes a character is none. -/
theorem ne_backslash {c : Char} (hend : c = '\\' → rest = [] → False)
    (hescape : ∀ d tail, c = '\\' → rest = d :: tail → False) : c ≠ '\\' := by
  intro hc
  cases rest with
  | nil => exact hend hc rfl
  | cons d tail => exact hescape d tail hc rfl

theorem zero (chars : List Char) : StandsAt chars 0 chars := ⟨Nat.zero_le _, rfl⟩

/-- Behind what has been taken stands the rest. -/
theorem advance {taken : List Char} (h : StandsAt chars pos (taken ++ rest)) :
    StandsAt chars (pos + taken.length) rest := by
  have hlength := congrArg List.length h.drop_eq
  simp only [List.length_drop, List.length_append] at hlength
  have := h.pos_le
  exact ⟨by omega, by rw [← List.drop_drop, h.drop_eq, List.drop_left]⟩

theorem next {c : Char} (h : StandsAt chars pos (c :: rest)) : StandsAt chars (pos + 1) rest := by
  have htaken : StandsAt chars pos ([c] ++ rest) := h
  exact htaken.advance

theorem getElem?_eq (h : StandsAt chars pos text) : chars[pos]? = text.head? := by
  rw [← h.drop_eq, List.head?_drop]

theorem eq_of_getElem? {c d : Char} (h : StandsAt chars pos (c :: rest))
    (hd : chars[pos]? = some d) : c = d := by
  simpa [h.getElem?_eq] using hd

theorem charsFrom_eq (h : StandsAt chars pos text) : charsFrom pos chars = some text := by
  rw [charsFrom, if_pos h.pos_le, h.drop_eq]

theorem pos_add_length (h : StandsAt chars pos text) : pos + text.length = chars.length := by
  have := h.pos_le
  rw [← h.drop_eq, List.length_drop]
  omega

/-- A position is given by the text that stands there. -/
theorem pos_eq (h : StandsAt chars pos text) : pos = chars.length - text.length := by
  have := h.pos_add_length
  omega

theorem passWhile_eq (p : Char → Bool) (h : StandsAt chars pos text) :
    passWhile p chars pos = (text.takeWhile p, pos + (text.takeWhile p).length) := by
  induction text generalizing pos with
  | nil =>
    rw [passWhile]
    split
    · rfl
    · simp_all [h.getElem?_eq]
  | cons c rest ih =>
    rw [passWhile]
    split
    · simp_all [h.getElem?_eq]
    · rename_i d hd
      obtain rfl := h.eq_of_getElem? hd
      by_cases hp : p c = true
      · simp [hp, ih h.next, Nat.add_assoc, Nat.add_comm 1]
      · simp [hp]

/-- Behind the characters that satisfy `p` stands what is left when they are dropped. -/
theorem passed (p : Char → Bool) (h : StandsAt chars pos text) :
    StandsAt chars (pos + (text.takeWhile p).length) (text.dropWhile p) :=
  advance (by rwa [List.takeWhile_append_dropWhile])

theorem closeQuoteAt_nil (quote : Char) (h : StandsAt chars pos []) :
    closeQuoteAt quote chars pos = none := by
  rw [closeQuoteAt]
  split <;> simp_all [h.getElem?_eq]

theorem closeQuoteAt_cons {c : Char} (quote : Char) (h : StandsAt chars pos (c :: rest)) :
    closeQuoteAt quote chars pos =
      if c = '\\' then rest.head?.bind fun d =>
        (closeQuoteAt quote chars (pos + 2)).map fun cut => (c :: d :: cut.1, cut.2)
      else if c = quote then some ([c], pos + 1)
      else (closeQuoteAt quote chars (pos + 1)).map fun cut => (c :: cut.1, cut.2) := by
  rw [closeQuoteAt]
  split
  · simp_all [h.getElem?_eq]
  · rename_i d hd
    obtain rfl := h.eq_of_getElem? hd
    rw [h.next.getElem?_eq]
    cases rest.head? <;> rfl

/-- Where a quoted text ends, the text behind it is left. -/
theorem closeQuoteAt_eq (quote : Char) (h : StandsAt chars pos text) :
    closeQuoteAt quote chars pos
      = (closeQuote quote text).map fun cut => (cut.1, pos + cut.1.length) := by
  fun_induction closeQuote quote text generalizing pos with
  | case1 => rw [closeQuoteAt_nil quote h, Option.map_none]
  | case2 => simp [closeQuoteAt_cons quote h]
  | case3 c rest ih =>
    simp [closeQuoteAt_cons quote h, ih h.next.next, Function.comp_def, Nat.add_assoc, Nat.add_comm 2]
  | case4 rest hend hescape =>
    simp [closeQuoteAt_cons quote h, ne_backslash hend hescape]
  | case5 c rest hend hescape hquote ih =>
    simp [closeQuoteAt_cons quote h, ne_backslash hend hescape, hquote, ih h.next,
      Function.comp_def, Nat.add_assoc, Nat.add_comm 1]

end StandsAt

theorem lt_of_closeQuoteAt {quote : Char} {chars quoted : List Char} {pos after : Nat}
    (h : closeQuoteAt quote chars pos = some (quoted, after)) : pos < after := by
  fun_induction closeQuoteAt quote chars pos generalizing quoted after with
  | case1 => simp at h
  | case2 => simp at h
  | case4 =>
    obtain ⟨-, rfl⟩ := Prod.mk.inj (Option.some.inj h)
    exact Nat.lt_succ_self _
  | case3 | case5 =>
    rename_i ih
    obtain ⟨⟨tail, last⟩, htail, hcut⟩ := Option.map_eq_some_iff.1 h
    obtain ⟨-, rfl⟩ := Prod.mk.inj hcut
    have := ih htail
    omega

theorem le_passWhile (p : Char → Bool) (chars : List Char) (pos : Nat) :
    pos ≤ (passWhile p chars pos).2 := by
  fun_induction passWhile p chars pos with
  | case1 => exact Nat.le_refl _
  | case2 pos c hc hp passed after hafter ih =>
    rw [hafter] at ih
    exact Nat.le_of_succ_le ih
  | case3 => exact Nat.le_refl _

theorem lt_passWhile {p : Char → Bool} {chars : List Char} {pos : Nat} {c : Char}
    (hc : chars[pos]? = some c) (hp : p c = true) : pos < (passWhile p chars pos).2 := by
  rw [passWhile]
  split
  · rename_i hnone
    rw [hnone] at hc
    cases hc
  · rename_i d hd
    obtain rfl := Option.some.inj (hc.symm.trans hd)
    rw [if_pos hp]
    exact le_passWhile p chars (pos + 1)

end Text

namespace Lexeme

/-! ## Section 2: The scanner -/

/-- Puts characters in front of what has been read up to a position. -/
def prependAt (taken : List Char) (cut : List Char × Nat) : List Char × Nat :=
  (taken ++ cut.1, cut.2)

/-- An action block whose first brace stands at a position, up to the character after which no
    brace is open, and the position behind it. -/
def blockAt (chars : List Char) (opened line depth pos : Nat) :
    Option (Except GrammarError (List Char × Nat)) :=
  match _ : chars[pos]? with
  | none => some (.error (.unmatchedBrace opened))
  | some c =>
    if c = '"' ∨ c = '\'' then
      match _ : closeQuoteAt c chars (pos + 1) with
      | none => some (.error (.unmatchedQuote line))
      | some (quoted, after) =>
        (blockAt chars opened (line + lineCount quoted) depth after).map
          (Except.map (prependAt (c :: quoted)))
    else if c = '/' ∧ chars[pos + 1]? = some '/' then
      let comment := passWhile (· != '\n') chars pos
      (blockAt chars opened line depth comment.2).map (Except.map (prependAt comment.1))
    else
      match openAfter depth c with
      | none => none
      | some 0 => some (.ok ([c], pos + 1))
      | some (after + 1) =>
        (blockAt chars opened (line + lineCount [c]) (after + 1) (pos + 1)).map
          (Except.map (prependAt [c]))
termination_by chars.length - pos
decreasing_by
  all_goals have := (List.getElem?_eq_some_iff.1 ‹chars[pos]? = some c›).1
  · have := lt_of_closeQuoteAt ‹_›
    omega
  · have := lt_passWhile (p := (· != '\n')) ‹chars[pos]? = some c› (by simp_all)
    omega
  · omega

/-- What stands next, and the position behind a lexeme that is found. -/
inductive NextAt where
  | finished (line : Nat)
  | found (placed : PlacedLexeme) (after : Nat)
  | fault (error : GrammarError)

/-- The literal whose opening quote stands in front of a position. -/
def readLiteralAt (wrap : String → Lexeme) (chars : List Char) (line pos : Nat) : NextAt :=
  match closeQuoteAt '\'' chars pos with
  | none => .fault (.unmatchedQuote line)
  | some (quoted, after) =>
    .found ⟨wrap (String.ofList ('\'' :: quoted)), line + lineCount quoted⟩ after

/-- The name at a position. -/
def readNameAt (wrap : String → Lexeme) (chars : List Char) (line pos : Nat) : NextAt :=
  let (word, after) := passWhile isIdentifierChar chars pos
  .found ⟨wrap (String.ofList word), line⟩ after

/-- The argument of a `%prec` clause from a position on. -/
def readPrecArgumentAt (chars : List Char) (line pos : Nat) : Option NextAt :=
  let (gap, pos) := passWhile isBlank chars pos
  let line := line + lineCount gap
  match chars[pos]? with
  | none => some (.fault (.missingPrecArgument line))
  | some c =>
    if c = ';' ∨ c = '|' ∨ c = '{' then some (.fault (.missingPrecArgument line))
    else if c = '\'' then some (readLiteralAt .prec chars line (pos + 1))
    else if isIdentifierChar c then some (readNameAt .prec chars line pos)
    else (charsFrom pos chars).map fun rest =>
      .fault (.malformedPrec line (String.ofList (rest.takeWhile (!isBlank ·))))

/-- The directive whose `%` stands in front of a position. -/
def readDirectiveAt (chars : List Char) (line pos : Nat) : Option NextAt :=
  let (word, pos) := passWhile isIdentifierChar chars pos
  let directive := String.ofList word
  if directive = "prec" then readPrecArgumentAt chars line pos
  else some (.fault (.malformedRule line (.unknownDirective directive)))

/-- The action block at a position. -/
def readActionAt (chars : List Char) (line pos : Nat) : Option NextAt := do
  match ← blockAt chars line line 0 pos with
  | .error e => return .fault e
  | .ok (block, after) =>
    return .found ⟨.action (String.ofList block), line + lineCount block⟩ after

/-- The first lexeme from a position on, which stands on the given line. -/
def nextAt (chars : List Char) (line pos : Nat) : Option NextAt :=
  let (gap, pos) := passWhile isBlank chars pos
  let line := line + lineCount gap
  match chars[pos]? with
  | none => some (.finished line)
  | some c =>
    if c = ':' then some (.found ⟨.colon, line⟩ (pos + 1))
    else if c = '|' then some (.found ⟨.bar, line⟩ (pos + 1))
    else if c = ';' then some (.found ⟨.semicolon, line⟩ (pos + 1))
    else if c = '\'' then some (readLiteralAt .literal chars line (pos + 1))
    else if c = '{' then readActionAt chars line pos
    else if c = '}' then some (.fault (.unexpectedCloseBrace line))
    else if c = '%' then readDirectiveAt chars line (pos + 1)
    else if isIdentifierChar c then some (readNameAt .name chars line pos)
    else some (.fault (.malformedRule line (.strayCharacter c)))

/-- The lexemes from a position on, up to the end or the first fault. A lexeme has to end behind
    its beginning, and not past the end. -/
def scanAt (chars : List Char) (line pos : Nat) : Option LexemeScan :=
  match nextAt chars line pos with
  | none => none
  | some (.finished last) => some ⟨[], .ok last⟩
  | some (.fault e) => some ⟨[], .error e⟩
  | some (.found placed after) =>
    if pos < after ∧ after ≤ chars.length then
      (scanAt chars placed.line after).map fun tail => ⟨placed :: tail.lexemes, tail.ending⟩
    else none
termination_by chars.length - pos

/-! ## Section 3: Readers at a position -/

/-- What stands next, its rest given by the position behind the lexeme. -/
def Next.toPosition (size : Nat) : Next → NextAt
  | .finished line => .finished line
  | .found placed rest => .found placed (size - rest.length)
  | .fault e => .fault e

variable {chars text : List Char} {line pos : Nat}

/-- What has been read from a position on, and where it ends. -/
def endAt (pos : Nat) (cut : List Char × List Char) : List Char × Nat :=
  (cut.1, pos + cut.1.length)

theorem map_endAt_prepend (pos : Nat) (taken : List Char)
    (x : Option (Except GrammarError (List Char × List Char))) :
    (x.map (Except.map (prepend taken))).map (Except.map (endAt pos))
      = (x.map (Except.map (endAt (pos + taken.length)))).map (Except.map (prependAt taken)) := by
  cases x with
  | none => rfl
  | some result => cases result <;> simp [Except.map, prepend, prependAt, endAt, Nat.add_assoc]

theorem blockAt_cons {opened depth : Nat} {c : Char} {rest : List Char}
    (h : StandsAt chars pos (c :: rest)) :
    blockAt chars opened line depth pos =
      if c = '"' ∨ c = '\'' then
        match closeQuoteAt c chars (pos + 1) with
        | none => some (.error (.unmatchedQuote line))
        | some (quoted, after) =>
          (blockAt chars opened (line + lineCount quoted) depth after).map
            (Except.map (prependAt (c :: quoted)))
      else if c = '/' ∧ rest.head? = some '/' then
        (blockAt chars opened line depth (passWhile (· != '\n') chars pos).2).map
          (Except.map (prependAt (passWhile (· != '\n') chars pos).1))
      else
        match openAfter depth c with
        | none => none
        | some 0 => some (.ok ([c], pos + 1))
        | some (after + 1) =>
          (blockAt chars opened (line + lineCount [c]) (after + 1) (pos + 1)).map
            (Except.map (prependAt [c])) := by
  rw [blockAt]
  split
  · simp_all [h.getElem?_eq]
  · rename_i d hd
    obtain rfl := h.eq_of_getElem? hd
    rw [h.next.getElem?_eq]
    by_cases hc : c = '"' ∨ c = '\''
    · rw [if_pos hc, if_pos hc]
      cases closeQuoteAt c chars (pos + 1) <;> rfl
    · rw [if_neg hc, if_neg hc]

/-- A block is read at a position as its braces are counted in the text that stands there. -/
theorem blockAt_eq {opened depth : Nat} (h : StandsAt chars pos text) :
    blockAt chars opened line depth pos
      = (countBlock opened line depth text).map (Except.map (endAt pos)) := by
  fun_induction countBlock opened line depth text generalizing pos with
  | case1 =>
    rw [blockAt]
    split
    · rfl
    · simp_all [h.getElem?_eq]
  | case2 line depth c rest hc hclose =>
    simp [blockAt_cons h, hc, h.next.closeQuoteAt_eq, hclose, Except.map]
  | case3 line depth c rest hc quoted after hclose ih =>
    have hafter : StandsAt chars (pos + (c :: quoted).length) after :=
      .advance (by rwa [List.cons_append, ← eq_of_closeQuote hclose])
    rw [map_endAt_prepend, ← ih hafter, blockAt_cons h, if_pos hc, h.next.closeQuoteAt_eq, hclose]
    simp [Nat.add_assoc, Nat.add_comm 1]
  | case4 line depth c rest hc hslash ih =>
    obtain ⟨rfl, -⟩ := id hslash
    have hcomment : ('/' :: rest).takeWhile (· != '\n') = '/' :: rest.takeWhile (· != '\n') := rfl
    have hafter := h.passed (· != '\n')
    rw [map_endAt_prepend, blockAt_cons h, if_neg hc, if_pos hslash, h.passWhile_eq, hcomment]
    rw [hcomment] at hafter
    rw [← ih hafter]
  | case5 line depth c rest hc hslash hnone =>
    rw [blockAt_cons h, if_neg hc, if_neg hslash, hnone]
    rfl
  | case6 line depth c rest hc hslash hzero =>
    rw [blockAt_cons h, if_neg hc, if_neg hslash, hzero]
    rfl
  | case7 line depth c rest hc hslash after hopen ih =>
    rw [map_endAt_prepend, blockAt_cons h, if_neg hc, if_neg hslash, hopen]
    rw [List.length_singleton, ← ih h.next]

theorem readLiteralAt_eq (wrap : String → Lexeme) (line : Nat) (h : StandsAt chars pos text) :
    readLiteralAt wrap chars line pos = (readLiteral wrap line text).toPosition chars.length := by
  rw [readLiteralAt, readLiteral, h.closeQuoteAt_eq]
  cases hclose : closeQuote '\'' text with
  | none => rfl
  | some cut =>
    have hafter : StandsAt chars (pos + cut.1.length) cut.2 :=
      .advance (by rwa [← eq_of_closeQuote hclose])
    rw [Next.toPosition, ← hafter.pos_eq]
    rfl

theorem readNameAt_eq (wrap : String → Lexeme) (line : Nat) {c : Char} {rest : List Char}
    (h : StandsAt chars pos (c :: rest)) (hc : isIdentifierChar c = true) :
    readNameAt wrap chars line pos = (readName wrap line c rest).toPosition chars.length := by
  have hafter := h.passed isIdentifierChar
  rw [readNameAt, readName, h.passWhile_eq, Next.toPosition]
  rw [List.takeWhile_cons_of_pos hc, List.dropWhile_cons_of_pos hc] at hafter
  rw [List.takeWhile_cons_of_pos hc, ← hafter.pos_eq]

theorem readPrecArgumentAt_eq (line : Nat) (h : StandsAt chars pos text) :
    readPrecArgumentAt chars line pos
      = some ((readPrecArgument line text).toPosition chars.length) := by
  have hpassed := h.passed isBlank
  rw [readPrecArgumentAt, readPrecArgument, h.passWhile_eq]
  simp only [hpassed.getElem?_eq]
  cases hdrop : text.dropWhile isBlank with
  | nil => rfl
  | cons c rest =>
    rw [hdrop] at hpassed
    simp only [List.head?_cons]
    split
    · rfl
    split
    · rw [readLiteralAt_eq _ _ hpassed.next]
    split
    · rename_i hc
      rw [readNameAt_eq _ _ hpassed hc]
    · have hblank : isBlank c = false := eq_false_of_head?_dropWhile (by rw [hdrop, List.head?_cons])
      rw [hpassed.charsFrom_eq, Option.map_some, List.takeWhile_cons_of_pos (by simp [hblank])]
      rfl

theorem readDirectiveAt_eq (line : Nat) (h : StandsAt chars pos text) :
    readDirectiveAt chars line pos = some ((readDirective line text).toPosition chars.length) := by
  have hpassed := h.passed isIdentifierChar
  rw [readDirectiveAt, readDirective, h.passWhile_eq]
  simp only
  split
  · exact readPrecArgumentAt_eq line hpassed
  · rfl

theorem readActionAt_eq (line : Nat) {rest : List Char} (h : StandsAt chars pos ('{' :: rest)) :
    readActionAt chars line pos = some ((readAction line rest).toPosition chars.length) := by
  rw [readActionAt, readAction, blockAt_eq h, countBlock_cons]
  cases hclose : closeBlock line line 0 rest with
  | error e => rfl
  | ok cut =>
    have hafter : StandsAt chars (pos + ('{' :: cut.1).length) cut.2 :=
      .advance (by rwa [List.cons_append, ← eq_of_closeBlock hclose])
    have hline : lineCount ('{' :: cut.1) = lineCount cut.1 := lineCount_cons (by decide) cut.1
    simp only [Except.map, prepend, Next.toPosition, ← hafter.pos_eq, ← hline]
    rfl

theorem nextAt_eq (line : Nat) (h : StandsAt chars pos text) :
    nextAt chars line pos = some ((next line text).toPosition chars.length) := by
  have hpassed := h.passed isBlank
  rw [nextAt, next, h.passWhile_eq]
  simp only [hpassed.getElem?_eq]
  cases hdrop : text.dropWhile isBlank with
  | nil => rfl
  | cons c rest =>
    rw [hdrop] at hpassed
    have hnext := hpassed.next.pos_eq
    simp only [List.head?_cons]
    split
    · rw [hnext]; rfl
    split
    · rw [hnext]; rfl
    split
    · rw [hnext]; rfl
    split
    · rw [readLiteralAt_eq _ _ hpassed.next]
    split
    · rename_i hc
      obtain rfl := hc
      exact readActionAt_eq _ hpassed
    split
    · rfl
    split
    · exact readDirectiveAt_eq _ hpassed.next
    split
    · rename_i hc
      rw [readNameAt_eq _ _ hpassed hc]
    · rfl

/-- **Scanning**: at every position the lexemes are those of the text that stands there. -/
theorem scanAt_eq (line : Nat) (h : StandsAt chars pos text) :
    scanAt chars line pos = some (scan line text) := by
  induction hlength : text.length using Nat.strongRecOn generalizing text line pos with
  | ind _ ih =>
    have hread := nextAt_eq line h
    rw [scanAt, scan]
    cases hnext : next line text with
    | finished last =>
      rw [hread, hnext]
      rfl
    | fault e =>
      rw [hread, hnext]
      rfl
    | found placed rest =>
      -- the lexeme is taken off the front, so its end is ahead and the rest stands there
      have hshorter := length_next_lt hnext
      obtain ⟨gap, written, -, -, -, htext⟩ := exists_written_of_next hnext
      have hrest : StandsAt chars (pos + (gap ++ written).length) rest :=
        .advance (by rwa [List.append_assoc, ← htext])
      have hahead : pos < pos + (gap ++ written).length := by
        have := h.pos_add_length
        have := hrest.pos_add_length
        omega
      rw [hread, hnext]
      simp only [Next.toPosition]
      rw [← hrest.pos_eq, if_pos ⟨hahead, hrest.pos_le⟩,
        ih _ (hlength ▸ hshorter) placed.line hrest rfl]
      rfl

end Lexeme

end SlrCompiler
