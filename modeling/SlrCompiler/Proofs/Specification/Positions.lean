import SlrCompiler.Proofs.Specification.BlockCuts
import SlrCompiler.Proofs.Specification.Braces
import SlrCompiler.Specification.Sections

/-! # Cuts by position

    A text that is cut in place is cut by numbers: the position of a mark is looked for,
    the size of the mark is added to it, and what stands up to there or from there on is
    taken. Positions count bytes. So a cut can go wrong: there is nothing to take past the
    end of a text, none of its characters can be cut in two, and a part does not end
    before it begins. `Text.sliceTo`, `Text.sliceFrom` and `Text.slice` have no value then.

    The sections of a specification, its comments and the blocks of its declarations are
    read here a second time in this way. All of these readers have a value for every text,
    and it is what is read by parts (`splitByPosition_eq`, `stripByPosition_eq`,
    `ofTextByPosition_eq`). For the position of a mark is the size of what stands in front
    of it (`findMark_eq`), so that all cuts are made between two parts of the text.
-/

namespace SlrCompiler

open Text

namespace Text

/-! ## Section 1: Slices -/

/-- The number of bytes of a text. -/
def byteSize : List Char → Nat
  | [] => 0
  | c :: rest => c.utf8Size + byteSize rest

@[simp] theorem byteSize_nil : byteSize [] = 0 := rfl

@[simp] theorem byteSize_cons (c : Char) (text : List Char) :
    byteSize (c :: text) = c.utf8Size + byteSize text := rfl

@[simp] theorem byteSize_append (u v : List Char) :
    byteSize (u ++ v) = byteSize u + byteSize v := by
  induction u with
  | nil => simp
  | cons c rest ih => simp [ih, Nat.add_assoc]

/-- A text in two parts, the first of which has the given number of bytes; nothing if the text
    is shorter, or if a character would have to be cut in two. -/
def splitAtByte : Nat → List Char → Option (List Char × List Char)
  | 0, text => some ([], text)
  | _ + 1, [] => none
  | n + 1, c :: rest =>
    if c.utf8Size ≤ n + 1 then
      (splitAtByte (n + 1 - c.utf8Size) rest).map fun (before, after) => (c :: before, after)
    else none

/-- The text up to a position. -/
def sliceTo (stop : Nat) (text : List Char) : Option (List Char) :=
  (splitAtByte stop text).map Prod.fst

/-- The text from a position on. -/
def sliceFrom (start : Nat) (text : List Char) : Option (List Char) :=
  (splitAtByte start text).map Prod.snd

/-- The text from one position up to another. -/
def slice (start stop : Nat) (text : List Char) : Option (List Char) :=
  if start ≤ stop then (sliceTo stop text).bind (sliceFrom start) else none

/-- A text is split at the size of a part of it, and nowhere else. -/
theorem splitAtByte_eq_some_iff {n : Nat} {text before after : List Char} :
    splitAtByte n text = some (before, after) ↔ text = before ++ after ∧ n = byteSize before := by
  fun_induction splitAtByte n text generalizing before after with
  | case1 text =>
    simp only [Option.some.injEq, Prod.mk.injEq]
    constructor
    · rintro ⟨rfl, rfl⟩
      exact ⟨rfl, rfl⟩
    · rintro ⟨rfl, hsize⟩
      cases before with
      | nil => exact ⟨rfl, rfl⟩
      | cons c before =>
        have := c.utf8Size_pos
        rw [byteSize_cons] at hsize
        omega
  | case2 n =>
    simp only [reduceCtorEq, false_iff, not_and]
    intro htext hsize
    obtain ⟨rfl, -⟩ := List.append_eq_nil_iff.1 htext.symm
    simp at hsize
  | case3 n c rest hle ih =>
    simp only [Option.map_eq_some_iff, Prod.mk.injEq, Prod.exists, ih]
    constructor
    · rintro ⟨u, v, ⟨rfl, hsize⟩, rfl, rfl⟩
      rw [byteSize_cons, ← hsize]
      exact ⟨rfl, by omega⟩
    · rintro ⟨htext, hsize⟩
      cases before with
      | nil => simp at hsize
      | cons d before =>
        obtain ⟨rfl, rfl⟩ := List.cons.inj htext
        rw [byteSize_cons] at hsize
        exact ⟨before, after, ⟨rfl, by omega⟩, rfl, rfl⟩
  | case4 n c rest hgt =>
    simp only [reduceCtorEq, false_iff, not_and]
    intro htext hsize
    cases before with
    | nil => simp at hsize
    | cons d before =>
      obtain ⟨rfl, rfl⟩ := List.cons.inj htext
      rw [byteSize_cons] at hsize
      omega

variable {text a b c mark before after : List Char} {start stop n : Nat}

theorem sliceTo_eq (htext : text = a ++ b) (hstop : stop = byteSize a) :
    sliceTo stop text = some a := by
  rw [sliceTo, splitAtByte_eq_some_iff.2 ⟨htext, hstop⟩, Option.map_some]

theorem sliceFrom_eq (htext : text = a ++ b) (hstart : start = byteSize a) :
    sliceFrom start text = some b := by
  rw [sliceFrom, splitAtByte_eq_some_iff.2 ⟨htext, hstart⟩, Option.map_some]

/-- Where a text has three parts, the one in the middle can be taken by its positions. -/
theorem slice_eq (htext : text = a ++ b ++ c) (hstart : start = byteSize a)
    (hstop : stop = byteSize a + byteSize b) : slice start stop text = some b := by
  rw [slice, if_pos (by omega), sliceTo_eq htext (by simpa using hstop), Option.bind_some]
  exact sliceFrom_eq rfl hstart

/-- What stands behind some bytes is shorter than the text. -/
theorem length_lt_of_sliceFrom (h : sliceFrom start text = some after) (hpos : 0 < start) :
    after.length < text.length := by
  obtain ⟨⟨before, _⟩, hsplit, rfl⟩ := Option.map_eq_some_iff.1 h
  obtain ⟨rfl, rfl⟩ := splitAtByte_eq_some_iff.1 hsplit
  cases before with
  | nil => simp at hpos
  | cons c before =>
    simp only [List.length_append, List.length_cons]
    omega

/-! ## Section 2: Marks -/

/-- The position of the first occurrence of a mark. -/
def findMark (mark : List Char) : List Char → Option Nat
  | [] => none
  | c :: rest =>
    if mark.isPrefixOf (c :: rest) then some 0
    else (findMark mark rest).map (c.utf8Size + ·)

/-- A text is cut at the position of the mark. -/
theorem findMark_eq (mark text : List Char) :
    findMark mark text = (cutAt mark text).map fun cut => byteSize cut.1 := by
  induction text with
  | nil => rfl
  | cons c rest ih =>
    rw [findMark, cutAt]
    cases hmark : afterMark? mark (c :: rest) with
    | some after =>
      have hprefix : mark <+: c :: rest := ⟨after, (eq_of_afterMark? hmark).symm⟩
      rw [if_pos (List.isPrefixOf_iff_prefix.2 hprefix)]
      rfl
    | none =>
      have hprefix := afterMark?_eq_none_iff.1 hmark
      rw [if_neg (mt List.isPrefixOf_iff_prefix.1 hprefix), ih]
      simp [Function.comp_def]

theorem cutAt_of_findMark_eq_none (h : findMark mark text = none) : cutAt mark text = none := by
  rwa [findMark_eq, Option.map_eq_none_iff] at h

/-- **Marks are in range**: the text can be cut in front of a mark that is found, and behind
    it. -/
theorem exists_of_findMark (h : findMark mark text = some start) (hsize : byteSize mark = n) :
    ∃ before after, cutAt mark text = some (before, after) ∧ start = byteSize before ∧
      sliceTo start text = some before ∧ sliceFrom (start + n) text = some after := by
  rw [findMark_eq] at h
  obtain ⟨⟨before, after⟩, hcut, rfl⟩ := Option.map_eq_some_iff.1 h
  have htext := eq_of_cutAt hcut
  exact ⟨before, after, hcut, rfl, sliceTo_eq (by rw [htext, List.append_assoc]) rfl,
    sliceFrom_eq htext (by rw [byteSize_append, hsize])⟩

theorem cutAt_of_slices (h : findMark mark text = some start) (hsize : byteSize mark = n)
    (hbefore : sliceTo start text = some before) (hafter : sliceFrom (start + n) text = some after) :
    cutAt mark text = some (before, after) := by
  obtain ⟨_, _, hcut, -, hto, hfrom⟩ := exists_of_findMark h hsize
  obtain rfl := Option.some.inj (hto.symm.trans hbefore)
  obtain rfl := Option.some.inj (hfrom.symm.trans hafter)
  exact hcut

/-! ## Section 3: Comments -/

/-- The text without its comments, cut by position from comment to comment. -/
def stripByPosition (text : List Char) : Option (Option (List Char)) :=
  match findMark ['/', '*'] text with
  | none => some (some text)
  | some opening =>
    match sliceTo opening text, _ : sliceFrom (opening + 2) text with
    | some before, some body =>
      match findMark ['*', '/'] body with
      | none => some none
      | some closing =>
        match sliceTo closing body, _ : sliceFrom (closing + 2) body with
        | some comment, some rest =>
          (stripByPosition rest).map (Option.map (before ++ ' ' :: lineEnds comment ++ ·))
        | _, _ => none
    | _, _ => none
termination_by text.length
decreasing_by
  have := length_lt_of_sliceFrom ‹sliceFrom (opening + 2) text = some body› (by omega)
  have := length_lt_of_sliceFrom ‹sliceFrom (closing + 2) body = some rest› (by omega)
  omega

/-- Comment by comment, the text is cut at the mark that opens it and at the mark that closes
    it. -/
theorem stripComments_eq (text : List Char) :
    stripComments text = match cutAt ['/', '*'] text with
      | none => some text
      | some (before, body) => (cutAt ['*', '/'] body).bind fun cut =>
          (stripComments cut.2).map (before ++ ' ' :: lineEnds cut.1 ++ ·) := by
  rw [stripComments, dropComments_outside_eq]
  cases cutAt ['/', '*'] text with
  | none => rfl
  | some cut =>
    simp only [dropComments_inside_eq, stripComments, Option.map_bind]
    simp [Function.comp_def]

/-- **Comments**: none of them is cut out of range. -/
theorem stripByPosition_eq (text : List Char) :
    stripByPosition text = some (stripComments text) := by
  have hopening : byteSize ['/', '*'] = 2 := by decide
  have hclosing : byteSize ['*', '/'] = 2 := by decide
  fun_induction stripByPosition text with
  | case1 text hopen => rw [stripComments_eq, cutAt_of_findMark_eq_none hopen]
  | case2 text opening hopen before body hbody hbefore hclose =>
    have hcut := cutAt_of_slices hopen hopening hbefore hbody
    simp only [stripComments_eq text, hcut, cutAt_of_findMark_eq_none hclose, Option.bind_none]
  | case3 text opening hopen before body hbody hbefore closing hclose comment rest hrest hcomment
      ih =>
    have hcut := cutAt_of_slices hopen hopening hbefore hbody
    have hcut' := cutAt_of_slices hclose hclosing hcomment hrest
    simp only [stripComments_eq text, hcut, hcut', Option.bind_some, ih, Option.map_some]
  | case4 text opening hopen before body hbody hbefore closing hclose hnone =>
    -- a mark that is found can be cut at
    obtain ⟨_, _, -, -, hto, hfrom⟩ := exists_of_findMark hclose hclosing
    exact (hnone _ _ hto hfrom).elim
  | case5 text opening hopen hnone =>
    obtain ⟨_, _, -, -, hto, hfrom⟩ := exists_of_findMark hopen hopening
    exact (hnone _ _ hto hfrom).elim

end Text

/-! ## Section 4: Sections -/

namespace Sections

/-- The name before the first colon of the rules, cut by position. -/
def startSymbolByPosition (rules : List Char) : Option (Except GrammarError String) :=
  let trimmed := trim rules
  if trimmed.isEmpty then some (.error .emptyRules)
  else match findMark [':'] trimmed with
    | none => some (.error .missingStartRule)
    | some colon => do
      let name := trim (← sliceTo colon trimmed)
      return if isIdentifier name then .ok (String.ofList name) else .error .missingStartRule

/-- The sections of a specification, cut by position. -/
def splitByPosition (spec : List Char) : Option (Except GrammarError Sections) :=
  match findMark mark spec with
  | none => some (.error (.missingSectionMark .first))
  | some first => do
    let rest ← sliceFrom (first + 2) spec
    match findMark mark rest with
    | none => return .error (.missingSectionMark .second)
    | some second =>
      match ← stripByPosition (← sliceTo second rest) with
      | none => return .error (.unmatchedComment .rules)
      | some rules =>
        match ← startSymbolByPosition rules with
        | .error e => return .error e
        | .ok startSymbol =>
          let declarations ← sliceTo first spec
          let support ← sliceFrom (second + 2) rest
          return .ok { declarations, rules, support, startSymbol }

theorem startSymbolByPosition_eq (rules : List Char) :
    startSymbolByPosition rules = some (startSymbol? rules) := by
  simp only [startSymbolByPosition, startSymbol?]
  split
  · rfl
  cases hcolon : findMark [':'] (trim rules) with
  | none => simp only [cutAt_of_findMark_eq_none hcolon]
  | some colon =>
    obtain ⟨before, after, hcut, -, hto, -⟩ := exists_of_findMark hcolon rfl
    simp only [hcut, hto]
    rfl

/-- **Sections**: none of them is cut out of range. -/
theorem splitByPosition_eq (spec : List Char) : splitByPosition spec = some (split spec) := by
  have hmark : byteSize mark = 2 := by decide
  cases hfirst : findMark mark spec with
  | none => simp only [splitByPosition, split, hfirst, cutAt_of_findMark_eq_none hfirst]
  | some first =>
    obtain ⟨declarations, rest, hcut, -, hdeclarations, hrest⟩ := exists_of_findMark hfirst hmark
    simp only [splitByPosition, split, hfirst, hcut, hrest, hdeclarations]
    cases hsecond : findMark mark rest with
    | none => simp [hsecond, cutAt_of_findMark_eq_none hsecond]
    | some second =>
      obtain ⟨commented, support, hcut', -, hcommented, hsupport⟩ := exists_of_findMark hsecond hmark
      simp only [hsecond, hcut', hcommented, hsupport, stripByPosition_eq, Option.bind_eq_bind,
        Option.bind_some]
      cases stripComments commented with
      | none => rfl
      | some rules =>
        simp only [startSymbolByPosition_eq, Option.bind_some]
        cases startSymbol? rules <;> rfl

end Sections

/-! ## Section 5: Blocks -/

namespace Blocks

/-- The text without what stands between two positions, but for its line ends. -/
def blankOut (start stop : Nat) (text : List Char) : Option (List Char) := do
  let before ← sliceTo start text
  let removed ← slice start stop text
  let after ← sliceFrom stop text
  return before ++ lineEnds removed ++ after

/-- Takes out the first literal block, by position. -/
def takeLiteralBlockByPosition (text : List Char) :
    Option (Except GrammarError (List Char × List Char)) :=
  match findMark ['%', '{'] text with
  | none => some (.ok ([], text))
  | some opening => do
    match findMark ['%', '}'] (← sliceFrom (opening + 2) text) with
    | none => return .error .unmatchedLiteralBlock
    | some found =>
      let closing := found + opening + 2
      let block ← slice (opening + 2) closing text
      return .ok (block, ← blankOut opening (closing + 2) text)

/-- The position of the brace after which no brace is open, by the number of open braces before
    the text and the position at which it begins. -/
def closingBrace : Nat → Nat → List Char → Option (Option Nat)
  | _, _, [] => some none
  | depth, position, c :: rest =>
    match openAfter depth c with
    | none => none
    | some after =>
      if c = '}' ∧ after = 0 then some (some position)
      else closingBrace after (position + c.utf8Size) rest

/-- The positions of the first brace from a position on and of the brace that closes it. -/
def findBraced (start : Nat) (text : List Char) : Option (Option (Nat × Nat)) := do
  match findMark ['{'] (← sliceFrom start text) with
  | none => return none
  | some found =>
    let opening := found + start
    let closing ← closingBrace 0 0 (← sliceFrom opening text)
    return closing.map fun i => (opening, opening + i)

/-- Takes out the first union, by position. -/
def takeUnionByPosition (text : List Char) :
    Option (Except GrammarError (Option (List Char) × List Char)) :=
  match findMark "%union".toList text with
  | none => some (.ok (none, text))
  | some start => do
    match ← findBraced (start + 6) text with
    | none => return .error .incompleteUnion
    | some (opening, closing) =>
      let union ← slice opening (closing + 1) text
      return .ok (some union, ← blankOut start (closing + 1) text)

/-- Takes out the literal block, the union and the comments, by position. -/
def ofTextByPosition (text : List Char) : Option (Except GrammarError Blocks) := do
  match ← takeLiteralBlockByPosition text with
  | .error e => return .error e
  | .ok (literalBlock, text) =>
    match ← takeUnionByPosition text with
    | .error e => return .error e
    | .ok (union, text) =>
      match ← stripByPosition text with
      | none => return .error (.unmatchedComment .declarations)
      | some directives => return .ok { literalBlock, union, directives }

theorem blankOut_eq {text a b c : List Char} {start stop : Nat} (htext : text = a ++ b ++ c)
    (hstart : start = byteSize a) (hstop : stop = byteSize a + byteSize b) :
    blankOut start stop text = some (a ++ lineEnds b ++ c) := by
  have hbefore : sliceTo start text = some a :=
    sliceTo_eq (by rw [htext, List.append_assoc]) hstart
  have hafter : sliceFrom stop text = some c := sliceFrom_eq htext (by simpa using hstop)
  simp only [blankOut, hbefore, slice_eq htext hstart hstop, hafter]
  rfl

theorem takeLiteralBlockByPosition_eq (text : List Char) :
    takeLiteralBlockByPosition text = some (takeLiteralBlock text) := by
  have hopening : byteSize ['%', '{'] = 2 := by decide
  have hclosing : byteSize ['%', '}'] = 2 := by decide
  cases hopen : findMark ['%', '{'] text with
  | none =>
    simp only [takeLiteralBlockByPosition, takeLiteralBlock, hopen, cutAt_of_findMark_eq_none hopen]
  | some opening =>
    obtain ⟨before, rest, hcut, rfl, -, hrest⟩ := exists_of_findMark hopen hopening
    simp only [takeLiteralBlockByPosition, takeLiteralBlock, hopen, hcut, hrest]
    cases hclose : findMark ['%', '}'] rest with
    | none => simp [hclose, cutAt_of_findMark_eq_none hclose]
    | some found =>
      obtain ⟨block, after, hclose', rfl, -, -⟩ := exists_of_findMark hclose hclosing
      have hinner : text = (before ++ ['%', '{']) ++ block ++ (['%', '}'] ++ after) := by
        simp [eq_of_cutAt hcut, eq_of_cutAt hclose']
      have houter : text = before ++ (['%', '{'] ++ block ++ ['%', '}']) ++ after := by
        simp [eq_of_cutAt hcut, eq_of_cutAt hclose']
      have hblock : slice (byteSize before + 2) (byteSize block + byteSize before + 2) text
          = some block :=
        slice_eq hinner (by rw [byteSize_append, hopening]) (by rw [byteSize_append]; omega)
      have hblank : blankOut (byteSize before) (byteSize block + byteSize before + 2 + 2) text
          = some (before ++ lineEnds (['%', '{'] ++ block ++ ['%', '}']) ++ after) :=
        blankOut_eq houter rfl (by simp only [byteSize_append]; omega)
      have hlines : lineEnds (['%', '{'] ++ block ++ ['%', '}']) = lineEnds block := by
        simp [lineEnds]
      rw [hlines] at hblank
      simp [hclose, hclose', hblock, hblank]

/-- The braces are counted from the first one on, and the position is that of the last one. -/
theorem closingBrace_eq (depth position : Nat) (text : List Char) :
    closingBrace depth position text
      = (countBraces depth text).map (Option.map fun cut => position + byteSize cut.1 - 1) := by
  have hsize : ('}' : Char).utf8Size = 1 := by decide
  induction text generalizing depth position with
  | nil => rfl
  | cons c rest ih =>
    rw [closingBrace, countBraces]
    cases openAfter depth c with
    | none => rfl
    | some after =>
      by_cases hlast : c = '}' ∧ after = 0
      · simp [hlast, hsize]
      · simp [hlast, ih, Function.comp_def, Nat.add_assoc]

/-- What is found is the first brace and the end of the text that it opens. -/
theorem findBraced_eq (front rest : List Char) :
    findBraced (byteSize front) (front ++ rest)
      = some ((cutAt ['{'] rest).bind fun (gap, body) => (closeBraces 0 body).map fun cut =>
          (byteSize (front ++ gap), byteSize (front ++ gap) + byteSize cut.1)) := by
  have hrest : sliceFrom (byteSize front) (front ++ rest) = some rest := sliceFrom_eq rfl rfl
  have hsize : ('{' : Char).utf8Size = 1 := by decide
  simp only [findBraced, hrest, Option.bind_eq_bind, Option.bind_some]
  cases hopen : findMark ['{'] rest with
  | none => simp [cutAt_of_findMark_eq_none hopen]
  | some found =>
    obtain ⟨gap, body, hcut, rfl, -, -⟩ := exists_of_findMark hopen rfl
    have hbody : sliceFrom (byteSize gap + byteSize front) (front ++ rest) = some ('{' :: body) :=
      sliceFrom_eq (a := front ++ gap) (by simp [eq_of_cutAt hcut])
        (by rw [byteSize_append]; omega)
    simp only [hbody, hcut, closingBrace_eq, countBraces_cons, Option.bind_some]
    cases closeBraces 0 body with
    | none => rfl
    | some cut =>
      simp [hsize]
      omega

theorem takeUnionByPosition_eq (text : List Char) :
    takeUnionByPosition text = some (takeUnion text) := by
  have hword : byteSize "%union".toList = 6 := by decide
  have hsize : ('{' : Char).utf8Size = 1 := by decide
  cases hkeyword : findMark "%union".toList text with
  | none =>
    simp only [takeUnionByPosition, takeUnion, hkeyword, cutAt_of_findMark_eq_none hkeyword]
  | some start =>
    obtain ⟨before, rest, hcut, rfl, -, -⟩ := exists_of_findMark hkeyword hword
    have hbraced := findBraced_eq (before ++ "%union".toList) rest
    rw [← eq_of_cutAt hcut, byteSize_append, hword] at hbraced
    simp only [takeUnionByPosition, takeUnion, hkeyword, hcut, hbraced, Option.bind_eq_bind,
      Option.bind_some]
    cases hopen : cutAt ['{'] rest with
    | none => rfl
    | some found =>
      obtain ⟨gap, body⟩ := found
      simp only [Option.bind_some]
      cases hclose : closeBraces 0 body with
      | none => rfl
      | some cut =>
        obtain ⟨inner, after⟩ := cut
        obtain ⟨rfl, -⟩ := closeBraces_eq_some_iff.1 hclose
        have hinner : text = (before ++ "%union".toList ++ gap) ++ ('{' :: inner) ++ after := by
          simp [eq_of_cutAt hcut, eq_of_cutAt hopen]
        have houter : text = before ++ ("%union".toList ++ gap ++ '{' :: inner) ++ after := by
          simp [eq_of_cutAt hcut, eq_of_cutAt hopen]
        have hunion : slice (byteSize (before ++ "%union".toList ++ gap))
            (byteSize (before ++ "%union".toList ++ gap) + byteSize inner + 1) text
            = some ('{' :: inner) :=
          slice_eq hinner rfl (by rw [byteSize_cons, hsize]; omega)
        have hblank : blankOut (byteSize before)
            (byteSize (before ++ "%union".toList ++ gap) + byteSize inner + 1) text
            = some (before ++ lineEnds ("%union".toList ++ gap ++ '{' :: inner) ++ after) :=
          blankOut_eq houter rfl (by simp only [byteSize_append, byteSize_cons, hsize]; omega)
        have hlines : lineEnds ("%union".toList ++ gap ++ '{' :: inner) = lineEnds (gap ++ inner) := by
          have hnone : lineEnds "%union".toList = [] := by decide
          simp_all [lineEnds]
        rw [hlines] at hblank
        simp only [Option.map_some, hunion, hblank, Option.bind_some]
        rfl

/-- **Blocks**: none of them is cut out of range. -/
theorem ofTextByPosition_eq (text : List Char) : ofTextByPosition text = some (ofText text) := by
  rw [ofTextByPosition, takeLiteralBlockByPosition_eq, Option.bind_eq_bind, Option.bind_some, ofText]
  cases takeLiteralBlock text with
  | error e => rfl
  | ok first =>
    obtain ⟨literalBlock, first⟩ := first
    simp only [takeUnionByPosition_eq]
    cases hunion : takeUnion first with
    | error e => simp [hunion, bind, Except.bind]
    | ok second =>
      obtain ⟨union, second⟩ := second
      simp only [stripByPosition_eq]
      cases hcomments : stripComments second <;> simp [hunion, hcomments, bind, Except.bind]

end Blocks

end SlrCompiler
