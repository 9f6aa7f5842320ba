import Mathlib.Tactic.Push
import SlrCompiler.Proofs.Specification.Lexemes
import SlrCompiler.Proofs.Specification.Marks
import SlrCompiler.Proofs.Success
import SlrCompiler.Specification.SemanticAction

/-! # The regions of an action

    The code of an action consists of regions: what is shielded (quoted texts and
    comments), placeholders, and single other characters. What a region is, and in front
    of what it may stand, is said here without the reader (`Region.Stands`), and so is
    what begins like a region but is none (`Malformed`).

    At each place of the code one of three holds: the code is at its end, a region stands
    there, or something is malformed (`Region.place_cases`). In the second case the reader
    takes the region, unless its number is too large (`Piece.next_of_stands`,
    `Piece.next_of_tooLarge`); in the third it reports what is malformed
    (`Piece.next_of_malformed`). So whoever argues about the reader need not open it.
-/

namespace SlrCompiler

open Text

/-! ## Section 1: The end of a comment -/

namespace Text

variable {text : List Char}

/-- The mark that closes a comment does not end with a star. -/
theorem closes_concat_star_iff : ['*', '/'] <:+: text ++ ['*'] ↔ ['*', '/'] <:+: text := by
  rw [List.infix_concat_iff, or_iff_right]
  intro h
  have hlast := h.getLast (by simp)
  simp at hlast

end Text

/-! ## Section 2: Regions -/

/-- A region of the code of an action. -/
inductive Region where
  /-- A quoted text or a comment. -/
  | shielded (text : List Char)
  /-- A placeholder, with its union member and with its digits. Without digits it stands
      for the left side. -/
  | placeholder (member digits : Option (List Char))
  | other (c : Char)

namespace Region

/-- How the union member of a placeholder is written. -/
def tag : Option (List Char) → List Char
  | none => []
  | some member => '<' :: (member ++ ['>'])

/-- How it is written what a placeholder stands for. -/
def ending : Option (List Char) → List Char
  | none => ['$']
  | some digits => digits

/-- How a region is written. -/
def chars : Region → List Char
  | .shielded text => text
  | .placeholder member digits => '$' :: (tag member ++ ending digits)
  | .other c => [c]

/-- What a placeholder stands for. -/
def target : Option (List Char) → Target
  | none => .result
  | some digits => .argument (decimalValue digits)

/-- The number of a placeholder that has one. -/
def number? : Region → Option Nat
  | .placeholder _ (some digits) => some (decimalValue digits)
  | _ => none

/-- Digits, and no digit behind them. -/
structure WholeNumber (digits : List Char) (next : Option Char) : Prop where
  ne_nil : digits ≠ []
  digit : ∀ c ∈ digits, isDigit c = true
  ends : ∀ c, next = some c → isDigit c = false

/-- A character with which the ending of a placeholder begins. -/
def BeginsEnding (next : Option Char) : Prop := ∃ c, next = some c ∧ (c = '$' ∨ isDigit c = true)

/-- A region may stand in front of a character, or at the end of the text. -/
inductive Stands : Region → Option Char → Prop
  | quoted {quote : Char} {text : List Char} {next : Option Char} :
      quote = '"' ∨ quote = '\'' → Quoted quote text → Stands (.shielded (quote :: text)) next
  | comment {body : List Char} {next : Option Char} : ¬ ['*', '/'] <:+: body →
      Stands (.shielded ('/' :: '*' :: (body ++ ['*', '/']))) next
  | lineComment {line : List Char} {next : Option Char} : '\n' ∉ line →
      (∀ c, next = some c → c = '\n') → Stands (.shielded ('/' :: '/' :: line)) next
  | result {member : Option (List Char)} {next : Option Char} :
      (∀ m ∈ member, isIdentifier m = true) → Stands (.placeholder member none) next
  | argument {member : Option (List Char)} {digits : List Char} {next : Option Char} :
      (∀ m ∈ member, isIdentifier m = true) → WholeNumber digits next →
      Stands (.placeholder member (some digits)) next
  | other {c : Char} {next : Option Char} : c ≠ '"' → c ≠ '\'' →
      (c = '/' → next ≠ some '/' ∧ next ≠ some '*') →
      (c = '$' → next ≠ some '<' ∧ ¬ BeginsEnding next) → Stands (.other c) next

end Region

/-! ## Section 3: What can be at a place -/

open Region

/-- What begins like a region, but is none. -/
inductive Malformed : List Char → ActionFault → Prop
  | quoted {quote : Char} {rest : List Char} : quote = '"' ∨ quote = '\'' →
      (∀ text after, Quoted quote text → rest ≠ text ++ after) →
      Malformed (quote :: rest) .unterminatedLiteral
  | comment {rest : List Char} : ¬ ['*', '/'] <:+: rest →
      Malformed ('/' :: '*' :: rest) .unterminatedComment
  | openTag {rest : List Char} : '>' ∉ rest → Malformed ('$' :: '<' :: rest) .unterminatedTag
  | tag {member rest : List Char} : '>' ∉ member → isIdentifier member = false →
      Malformed ('$' :: '<' :: (member ++ '>' :: rest)) .malformedTag
  | strayTag {member rest : List Char} : isIdentifier member = true →
      ¬ BeginsEnding rest.head? → Malformed ('$' :: '<' :: (member ++ '>' :: rest)) .strayTag

theorem not_mem_of_isIdentifier_gt {member : List Char} (h : isIdentifier member = true) :
    '>' ∉ member := by
  intro hmem
  have hgt := (isIdentifier_iff.1 h).2 '>' hmem
  have hnot : isIdentifierChar '>' = false := by decide +kernel
  simp [hnot] at hgt

theorem cutAt_gt {member : List Char} (h : '>' ∉ member) (rest : List Char) :
    cutAt ['>'] (member ++ '>' :: rest) = some (member, rest) := by
  have hnone : ¬ ['>'] <:+: member ++ ['>'].dropLast := by
    simpa [List.singleton_infix_iff] using h
  simpa using cutAt_append hnone (by simp) rest

/-- The ending of a placeholder, if a text begins with one. -/
theorem ending_cases (text : List Char) : (∃ rest, text = '$' :: rest) ∨
    (∃ digits rest, text = digits ++ rest ∧ WholeNumber digits rest.head?) ∨
    ¬ BeginsEnding text.head? := by
  cases text with
  | nil =>
    right
    right
    rintro ⟨c, hc, -⟩
    simp at hc
  | cons c rest =>
    by_cases hdollar : c = '$'
    · left
      exact ⟨rest, by rw [hdollar]⟩
    · right
      by_cases hdigit : isDigit c = true
      · left
        -- The number is as long as there are digits.
        refine ⟨(c :: rest).takeWhile isDigit, (c :: rest).dropWhile isDigit,
          List.takeWhile_append_dropWhile.symm, ?_, ?_, ?_⟩
        · simp [hdigit]
        · intro d hd
          exact List.mem_takeWhile_imp hd
        · intro d hd
          exact eq_false_of_head?_dropWhile hd
      · right
        rintro ⟨d, hd, hbegins⟩
        obtain rfl : c = d := by simpa using hd
        exact hbegins.elim hdollar hdigit

namespace Region

/-- Some region stands at the beginning of a text. -/
def StandsIn (text : List Char) : Prop := ∃ r rest, text = chars r ++ rest ∧ r.Stands rest.head?

theorem quote_cases {quote : Char} (hquote : quote = '"' ∨ quote = '\'') (rest : List Char) :
    StandsIn (quote :: rest) ∨ ∃ fault, Malformed (quote :: rest) fault := by
  by_cases hclosed : ∃ text after, Quoted quote text ∧ rest = text ++ after
  · obtain ⟨text, after, htext, rfl⟩ := hclosed
    left
    exact ⟨.shielded (quote :: text), after, rfl, .quoted hquote htext⟩
  · push Not at hclosed
    right
    exact ⟨_, .quoted hquote hclosed⟩

theorem slash_cases (rest : List Char) :
    StandsIn ('/' :: rest) ∨ ∃ fault, Malformed ('/' :: rest) fault := by
  by_cases hstar : rest.head? = some '*'
  · obtain ⟨tail, rfl⟩ := List.head?_eq_some_iff.1 hstar
    cases hcut : cutAt ['*', '/'] tail with
    | none =>
      right
      exact ⟨_, .comment ((cutAt_eq_none_iff (by simp)).1 hcut)⟩
    | some found =>
      obtain ⟨body, after⟩ := found
      left
      refine ⟨.shielded ('/' :: '*' :: (body ++ ['*', '/'])), after, ?_, .comment ?_⟩
      · rw [eq_of_cutAt hcut]
        rfl
      · simpa [closes_concat_star_iff] using not_infix_of_cutAt hcut (by simp)
  · left
    by_cases hslash : rest.head? = some '/'
    · obtain ⟨tail, rfl⟩ := List.head?_eq_some_iff.1 hslash
      refine ⟨.shielded ('/' :: '/' :: tail.takeWhile (· != '\n')), tail.dropWhile (· != '\n'),
        ?_, .lineComment (newline_notMem_takeWhile tail) ?_⟩
      · simp [chars]
      · exact fun c => eq_newline_of_head?_dropWhile tail
    · -- A slash that opens no comment is a region of its own.
      refine ⟨.other '/', rest, rfl, .other (by decide) (by decide) ?_ ?_⟩
      · intro _
        exact ⟨hslash, hstar⟩
      · intro hdollar
        exact absurd hdollar (by decide)

/-- Behind a dollar sign and a tag that is a name, the ending decides. -/
theorem ending_stands {member : Option (List Char)}
    (hmember : ∀ m ∈ member, isIdentifier m = true) {text : List Char}
    (htext : BeginsEnding text.head?) : StandsIn ('$' :: (tag member ++ text)) := by
  rcases ending_cases text with ⟨rest, rfl⟩ | ⟨digits, rest, rfl, hdigits⟩ | hnone
  · exact ⟨.placeholder member none, rest, by simp [chars, ending], .result hmember⟩
  · exact ⟨.placeholder member (some digits), rest, by simp [chars, ending],
      .argument hmember hdigits⟩
  · exact absurd htext hnone

theorem dollar_cases (rest : List Char) :
    StandsIn ('$' :: rest) ∨ ∃ fault, Malformed ('$' :: rest) fault := by
  by_cases hlt : rest.head? = some '<'
  · obtain ⟨tail, rfl⟩ := List.head?_eq_some_iff.1 hlt
    by_cases hgt : '>' ∈ tail
    · obtain ⟨member, after, rfl, hmember⟩ := List.eq_append_cons_of_mem hgt
      by_cases hname : isIdentifier member = true
      · by_cases hending : BeginsEnding after.head?
        · left
          have hall : ∀ m ∈ some member, isIdentifier m = true := by simpa using hname
          simpa [tag] using ending_stands hall hending
        · right
          exact ⟨_, .strayTag hname hending⟩
      · right
        exact ⟨_, .tag hmember (by simpa using hname)⟩
    · right
      exact ⟨_, .openTag hgt⟩
  · left
    by_cases hending : BeginsEnding rest.head?
    · have hnone : ∀ m ∈ (none : Option (List Char)), isIdentifier m = true := by simp
      exact ending_stands hnone hending
    · -- A dollar sign that opens no placeholder is a region of its own.
      refine ⟨.other '$', rest, rfl, .other (by decide) (by decide) ?_ ?_⟩
      · intro hslash
        exact absurd hslash (by decide)
      · intro _
        exact ⟨hlt, hending⟩

/-- **What can be at a place**: the end of the text, a region, or something malformed. -/
theorem place_cases (text : List Char) :
    text = [] ∨ StandsIn text ∨ ∃ fault, Malformed text fault := by
  cases text with
  | nil =>
    left
    rfl
  | cons c rest =>
    right
    by_cases hquote : c = '"' ∨ c = '\''
    · exact quote_cases hquote rest
    · by_cases hslash : c = '/'
      · rw [hslash]
        exact slash_cases rest
      · by_cases hdollar : c = '$'
        · rw [hdollar]
          exact dollar_cases rest
        · left
          rw [not_or] at hquote
          exact ⟨.other c, rest, rfl, .other hquote.1 hquote.2 (absurd · hslash) (absurd · hdollar)⟩

theorem Stands.chars_ne_nil {r : Region} {next : Option Char} (h : r.Stands next) :
    r.chars ≠ [] := by
  cases h <;> simp [chars]

end Region

/-! ## Section 4: What the reader does at one place -/

theorem Region.WholeNumber.beginsEnding {digits rest : List Char}
    (h : WholeNumber digits rest.head?) : BeginsEnding (digits ++ rest).head? := by
  obtain ⟨d, tail, rfl⟩ := List.exists_cons_of_ne_nil h.ne_nil
  exact ⟨d, rfl, .inr (h.digit d List.mem_cons_self)⟩

theorem not_beginsEnding_lt : ¬ BeginsEnding (some '<') := by
  rintro ⟨c, hc, hbegins⟩
  obtain rfl := Option.some.inj hc
  revert hbegins
  decide

namespace Piece

theorem readTarget_number {digits rest : List Char} (h : WholeNumber digits rest.head?) :
    readTarget (digits ++ rest) = if decimalValue digits < indexLimit
      then .ok (some (.argument (decimalValue digits), rest)) else .error .indexTooLarge := by
  obtain ⟨d, tail, rfl⟩ := List.exists_cons_of_ne_nil h.ne_nil
  have hdollar : d ≠ '$' := by
    rintro rfl
    exact absurd (h.digit '$' List.mem_cons_self) (by decide)
  have htake := takeWhile_append_eq h.digit h.ends
  have hdrop := dropWhile_append_eq h.digit h.ends
  unfold readTarget
  split
  · next after heq => exact absurd (List.cons.inj heq).1 hdollar
  · rw [htake, hdrop]
    rfl

theorem readTarget_of_not_begins {text : List Char} (h : ¬ BeginsEnding text.head?) :
    readTarget text = .ok none := by
  cases text with
  | nil => rfl
  | cons c rest =>
    have hdollar : c ≠ '$' := fun heq => h ⟨c, rfl, .inl heq⟩
    have hdigit : isDigit c = false := by
      by_contra hdigit
      exact h ⟨c, rfl, .inr (by simpa using hdigit)⟩
    unfold readTarget
    split
    · next after heq => exact absurd (List.cons.inj heq).1 hdollar
    · simp [hdigit]

theorem readTagged_append {member : List Char} (hmember : isIdentifier member = true)
    {text : List Char} {x : Except ActionFault (Target × List Char)}
    (hread : readTarget text = x.map some) : readTagged (member ++ '>' :: text) =
      x.map fun found => (.placeholder (some member) found.1, found.2) := by
  rw [readTagged, cutAt_gt (not_mem_of_isIdentifier_gt hmember)]
  simp only [hmember, if_true, hread]
  cases x <;> rfl

/-- A dollar sign that opens nothing is code. -/
theorem readDollar_alone {text : List Char} (hlt : text.head? ≠ some '<')
    (hending : ¬ BeginsEnding text.head?) : readDollar text = .ok (.verbatim ['$'], text) := by
  unfold readDollar
  split
  · simp at hlt
  · rw [readTarget_of_not_begins hending]

/-- Behind its dollar sign and its tag a placeholder is read by its ending. -/
theorem readDollar_append {member : Option (List Char)}
    (hmember : ∀ m ∈ member, isIdentifier m = true) {text : List Char}
    (htext : BeginsEnding text.head?) {x : Except ActionFault (Target × List Char)}
    (hread : readTarget text = x.map some) : readDollar (tag member ++ text) =
      x.map fun found => (.placeholder member found.1, found.2) := by
  cases member with
  | some m =>
    have heq : tag (some m) ++ text = '<' :: (m ++ '>' :: text) := by simp [tag]
    rw [heq, readDollar, readTagged_append (hmember m rfl) hread]
  | none =>
    show readDollar text = _
    unfold readDollar
    split
    · exact absurd htext not_beginsEnding_lt
    · rw [hread]
      cases x <;> rfl

end Piece

/-- How a region is read. -/
def Region.piece : Region → Piece
  | .shielded text => .verbatim text
  | .placeholder member digits => .placeholder member (target digits)
  | .other c => .verbatim [c]

namespace Piece

variable {r : Region} {rest : List Char}

theorem next_quoted {quote : Char} (hquote : quote = '"' ∨ quote = '\'') {text : List Char}
    (htext : Quoted quote text) (rest : List Char) :
    next quote (text ++ rest) = .ok (.verbatim (quote :: text), rest) := by
  rw [next, if_pos hquote, closeQuote_of_quoted (ne_backslash_of_quote hquote) htext]

theorem next_comment {line : List Char} (hline : '\n' ∉ line) {rest : List Char}
    (hrest : ∀ c, rest.head? = some c → c = '\n') :
    next '/' ('/' :: (line ++ rest)) = .ok (.verbatim ('/' :: '/' :: line), rest) := by
  have hall : ∀ c ∈ '/' :: line, (c != '\n') = true := by
    intro c hc
    rcases List.mem_cons.1 hc with rfl | hc
    · decide
    · simpa using ne_of_mem_of_not_mem hc hline
  have hend : ∀ d, rest.head? = some d → (d != '\n') = false := by
    intro d hd
    rw [hrest d hd]
    rfl
  rw [next, if_neg (by decide), if_pos rfl, readSlash]
  rw [← List.cons_append, takeWhile_append_eq hall hend, dropWhile_append_eq hall hend]

theorem next_slash {rest : List Char} (hslash : rest.head? ≠ some '/')
    (hstar : rest.head? ≠ some '*') : next '/' rest = .ok (.verbatim ['/'], rest) := by
  rw [next, if_neg (by decide), if_pos rfl, readSlash]
  · intro after heq
    simp [heq] at hstar
  · intro after heq
    simp [heq] at hslash

theorem next_dollar (text : List Char) : next '$' text = readDollar text := by
  rw [next, if_neg (by decide), if_neg (by decide), if_pos rfl]

/-- What stands at a place is read, unless it is a placeholder with a number that is too
    large. -/
theorem next_of_stands (h : r.Stands rest.head?) (hsmall : ∀ n ∈ r.number?, n < indexLimit) :
    ∃ c tail, r.chars ++ rest = c :: tail ∧ next c tail = .ok (r.piece, rest) := by
  cases h with
  | @quoted quote text _ hquote htext =>
    exact ⟨quote, text ++ rest, rfl, next_quoted hquote htext rest⟩
  | @comment body _ hbody =>
    refine ⟨'/', '*' :: (body ++ ['*', '/'] ++ rest), by simp [chars], ?_⟩
    -- The mark at the end is the first one, so the comment is cut there.
    have hfirst : ¬ ['*', '/'] <:+: body ++ ['*', '/'].dropLast := by
      simpa [closes_concat_star_iff] using hbody
    rw [next, if_neg (by decide), if_pos rfl, readSlash, cutAt_append hfirst (by simp) rest]
    rfl
  | @lineComment line _ hline hend =>
    exact ⟨'/', '/' :: (line ++ rest), rfl, next_comment hline hend⟩
  | @result member _ hmember =>
    refine ⟨'$', tag member ++ '$' :: rest, by simp [chars, ending], ?_⟩
    have hread : readTarget ('$' :: rest) = (Except.ok (.result, rest)).map some := rfl
    rw [next_dollar, readDollar_append hmember ⟨'$', rfl, .inl rfl⟩ hread]
    rfl
  | @argument member digits _ hmember hdigits =>
    refine ⟨'$', tag member ++ (digits ++ rest), by simp [chars, ending], ?_⟩
    have hread : readTarget (digits ++ rest)
        = (Except.ok (.argument (decimalValue digits), rest)).map some := by
      rw [readTarget_number hdigits, if_pos (hsmall _ rfl)]
      rfl
    rw [next_dollar, readDollar_append hmember hdigits.beginsEnding hread]
    rfl
  | @other c _ hdouble hsingle hslash hdollar =>
    refine ⟨c, rest, rfl, ?_⟩
    -- A slash or a dollar sign could begin something longer, but not in front of this rest.
    by_cases hc : c = '/'
    · subst hc
      exact next_slash (hslash rfl).1 (hslash rfl).2
    · rw [next, if_neg (not_or.2 ⟨hdouble, hsingle⟩), if_neg hc]
      by_cases heq : c = '$'
      · subst heq
        rw [if_pos rfl]
        exact readDollar_alone (hdollar rfl).1 (hdollar rfl).2
      · rw [if_neg heq]
        rfl

theorem next_of_tooLarge {n : Nat} (h : r.Stands rest.head?) (hnumber : r.number? = some n)
    (hlarge : indexLimit ≤ n) :
    ∃ c tail, r.chars ++ rest = c :: tail ∧ next c tail = .error .indexTooLarge := by
  cases h with
  | @argument member digits _ hmember hdigits =>
    obtain rfl : decimalValue digits = n := Option.some.inj hnumber
    refine ⟨'$', tag member ++ (digits ++ rest), by simp [chars, ending], ?_⟩
    have hread : readTarget (digits ++ rest) = (Except.error .indexTooLarge).map some := by
      rw [readTarget_number hdigits, if_neg (by omega)]
      rfl
    rw [next_dollar, readDollar_append hmember hdigits.beginsEnding hread]
    rfl
  | quoted | comment | lineComment | result | other => simp [number?] at hnumber

theorem next_of_malformed {text : List Char} {fault : ActionFault} (h : Malformed text fault) :
    ∃ c tail, text = c :: tail ∧ next c tail = .error fault := by
  cases h with
  | @quoted quote rest hquote hopen =>
    refine ⟨quote, rest, rfl, ?_⟩
    have hnone : closeQuote quote rest = none := by
      rw [Option.eq_none_iff_forall_ne_some]
      rintro ⟨text, after⟩ hclose
      exact hopen text after (quoted_of_closeQuote hclose) (eq_of_closeQuote hclose)
    rw [next, if_pos hquote, hnone]
  | @comment rest hopen =>
    refine ⟨'/', '*' :: rest, rfl, ?_⟩
    rw [next, if_neg (by decide), if_pos rfl, readSlash, (cutAt_eq_none_iff (by simp)).2 hopen]
  | @openTag rest hopen =>
    refine ⟨'$', '<' :: rest, rfl, ?_⟩
    have hnone : cutAt ['>'] rest = none := by
      rw [cutAt_eq_none_iff (by simp), List.singleton_infix_iff]
      exact hopen
    rw [next_dollar, readDollar, readTagged, hnone]
  | @tag member rest hgt hmember =>
    refine ⟨'$', '<' :: (member ++ '>' :: rest), rfl, ?_⟩
    rw [next_dollar, readDollar, readTagged, cutAt_gt hgt]
    simp [hmember]
  | @strayTag member rest hmember hending =>
    refine ⟨'$', '<' :: (member ++ '>' :: rest), rfl, ?_⟩
    rw [next_dollar, readDollar, readTagged, cutAt_gt (not_mem_of_isIdentifier_gt hmember)]
    simp only [hmember, if_true, readTarget_of_not_begins hending]

end Piece

end SlrCompiler
