import Mathlib.Data.List.Chain
import SlrCompiler.Proofs.Specification.ActionPlaceholders

/-! # The segments of an action give back its text

    The segments of an action, written out again, are the code that they come from. Only
    one thing is lost: the zeros in front of a placeholder's number, which are no part of
    the number. So the code is to be compared not with what is written but with what the
    cut gives when these zeros are left out (`Region.trim`).

    Leaving them out changes no region's first character, and behind a region nothing but
    the first character counts. So the cut of the shorter text is the same cut
    (`Cuts.trim`), it is read as the same pieces, and the same segments come out.

    How code is gathered between placeholders is another matter: no segment of code is
    empty, and none stands next to another one (`joined_ofPieces`).
-/

namespace SlrCompiler

open Text

/-! ## Section 1: Decimal numbers -/

namespace Text

theorem digitChar_digitValue {c : Char} (h : isDigit c = true) :
    (digitValue c).digitChar = c ∧ digitValue c < 10 := by
  simp only [isDigit, Bool.and_eq_true, decide_eq_true_eq, Char.le_def] at h
  have hlow : 48 ≤ c.toNat := h.1
  have hhigh : c.toNat ≤ 57 := h.2
  have hvalue : digitValue c = c.toNat - 48 := rfl
  have hlt : digitValue c < 10 := by omega
  refine ⟨?_, hlt⟩
  apply Char.toNat_inj.1
  rw [Nat.toNat_digitChar_of_lt_ten hlt]
  omega

theorem decimalValue_concat (digits : List Char) (c : Char) :
    decimalValue (digits ++ [c]) = 10 * decimalValue digits + digitValue c := by
  unfold decimalValue
  rw [List.foldl_append]
  rfl

/-- A number without a zero in front is written with its own digits. -/
theorem toDigits_decimalValue {digits : List Char} (hne : digits ≠ [])
    (hdigit : ∀ c ∈ digits, isDigit c = true) (hzero : digits.head? ≠ some '0') :
    Nat.toDigits 10 (decimalValue digits) = digits := by
  -- the induction is from the last digit on, as numbers are read
  induction digits using List.reverseRecOn with
  | nil => exact absurd rfl hne
  | append_singleton digits c ih =>
    obtain ⟨hchar, hlt⟩ := digitChar_digitValue (hdigit c (by simp))
    have hlast : Nat.toDigits 10 (digitValue c) = [c] := by
      rw [Nat.toDigits_of_lt_base hlt, hchar]
    by_cases hnil : digits = []
    · subst hnil
      simpa [decimalValue] using hlast
    · have hfront := ih hnil (fun d hd => hdigit d (by simp [hd])) (by
        rwa [List.head?_append_of_ne_nil _ hnil] at hzero)
      have hpos : 0 < decimalValue digits := by
        by_contra hnone
        have heq : decimalValue digits = 0 := by omega
        rw [heq, Nat.toDigits_zero] at hfront
        rw [← hfront] at hzero
        simp at hzero
      rw [decimalValue_concat, ← Nat.toDigits_append_toDigits (by omega) hpos hlt, hfront, hlast]

/-- Zeros in front of a number do not count. -/
theorem decimalValue_dropWhile (digits : List Char) :
    decimalValue (digits.dropWhile (· == '0')) = decimalValue digits := by
  induction digits with
  | nil => rfl
  | cons c digits ih =>
    by_cases hc : c = '0'
    · rw [List.dropWhile_cons_of_pos (by simp [hc]), ih, hc]
      rfl
    · rw [List.dropWhile_cons_of_neg (by simp [hc])]

/-- What is left of a number without the zeros in front is its decimal form. -/
theorem toDigits_decimalValue_eq {digits : List Char} (hdigit : ∀ c ∈ digits, isDigit c = true)
    (hpos : 0 < decimalValue digits) : digits.dropWhile (· == '0') ≠ [] ∧
      Nat.toDigits 10 (decimalValue digits) = digits.dropWhile (· == '0') := by
  have hne : digits.dropWhile (· == '0') ≠ [] := by
    intro hnil
    rw [← decimalValue_dropWhile, hnil] at hpos
    exact absurd hpos (by decide)
  refine ⟨hne, ?_⟩
  rw [← decimalValue_dropWhile]
  apply toDigits_decimalValue hne
  · intro c hc
    exact hdigit c ((List.dropWhile_suffix _).mem hc)
  · intro hhead
    simpa using eq_false_of_head?_dropWhile hhead

end Text

/-! ## Section 2: Without zeros in front -/

namespace Region

/-- A region without the zeros in front of its number. -/
def trim : Region → Region
  | .placeholder member (some digits) => .placeholder member (some (digits.dropWhile (· == '0')))
  | r => r

theorem piece_trim (r : Region) : r.trim.piece = r.piece := by
  cases r with
  | shielded | other => rfl
  | placeholder member digits =>
    cases digits with
    | none => rfl
    | some digits =>
      show Piece.placeholder member (.argument (decimalValue _)) = _
      rw [decimalValue_dropWhile]
      rfl

theorem head?_chars_trim (r : Region) : r.trim.chars.head? = r.chars.head? := by
  cases r with
  | shielded | other => rfl
  | placeholder member digits => cases digits <;> rfl

theorem InRange.trim {arity : Nat} {r : Region} (h : r.InRange arity) : r.trim.InRange arity := by
  unfold InRange
  rw [number?_eq_of_piece_eq r.piece_trim]
  exact h

theorem Stands.trim {arity : Nat} {r : Region} {next : Option Char} (h : r.Stands next)
    (hrange : r.InRange arity) : r.trim.Stands next := by
  cases h with
  | quoted hquote htext => exact .quoted hquote htext
  | comment hbody => exact .comment hbody
  | lineComment hline hend => exact .lineComment hline hend
  | result hmember => exact .result hmember
  | other hdouble hsingle hslash hdollar => exact .other hdouble hsingle hslash hdollar
  | argument hmember hdigits =>
    refine .argument hmember ⟨?_, ?_, hdigits.ends⟩
    · exact (toDigits_decimalValue_eq hdigits.digit (hrange _ rfl).2.1).1
    · intro c hc
      exact hdigits.digit c ((List.dropWhile_suffix _).mem hc)

variable {rule arity : Nat} {text : List Char} {regions : List Region}

/-- **The same cut**: a text is cut where it was when the zeros are left out. -/
theorem Cuts.trim (h : Cuts text regions []) (hrange : ∀ r ∈ regions, r.InRange arity) :
    Cuts ((regions.map Region.trim).flatMap chars) (regions.map Region.trim) [] ∧
      ((regions.map Region.trim).flatMap chars).head? = text.head? := by
  generalize hrest : ([] : List Char) = rest at h
  induction h with
  | nil =>
    subst hrest
    exact ⟨.nil, rfl⟩
  | @cons r regions tail rest hstands _ ih =>
    obtain ⟨hr, hregions⟩ := List.forall_mem_cons.1 hrange
    obtain ⟨hcuts, hhead⟩ := ih hregions hrest
    have htrim := hstands.trim hr
    rw [← hhead] at htrim
    refine ⟨.cons htrim hcuts, ?_⟩
    rw [List.map_cons, List.flatMap_cons, List.head?_append_of_ne_nil _ htrim.chars_ne_nil,
      head?_chars_trim, List.head?_append_of_ne_nil _ hstands.chars_ne_nil]

/-- A text that is cut as a whole, with numbers of symbols, is read. -/
theorem Cuts.readAll_eq (h : Cuts text regions []) (hrange : ∀ r ∈ regions, r.InRange arity) :
    Piece.readAll rule arity text = .ok (regions.map piece) := by
  generalize hrest : ([] : List Char) = rest at h
  induction h with
  | nil =>
    rw [← hrest, Piece.readAll]
    rfl
  | cons hstands _ ih =>
    obtain ⟨hr, hregions⟩ := List.forall_mem_cons.1 hrange
    rw [Piece.readAll_of_stands hstands hr, ih hregions hrest]
    rfl

end Region

/-! ## Section 3: Segments -/

open Region

namespace Segment

/-- How a segment is written. -/
def source : Segment → List Char
  | .text value => value.toList
  | .result => ['$', '$']
  | .argument index => '$' :: Nat.toDigits 10 index
  | .typedResult member => '$' :: '<' :: (member.toList ++ ['>', '$'])
  | .typedArgument member index => '$' :: '<' :: (member.toList ++ '>' :: Nat.toDigits 10 index)

/-- The number of a placeholder that has one. -/
def index? : Segment → Option Nat
  | .argument index => some index
  | .typedArgument _ index => some index
  | _ => none

/-- A text in front of segments is written in front of them. -/
theorem flatMap_withCode (code : List Char) (segments : List Segment) :
    (withCode code segments).flatMap source = code ++ segments.flatMap source := by
  unfold withCode
  split
  · next hempty => rw [List.isEmpty_iff.1 hempty, List.nil_append]
  · rw [List.flatMap_cons, source, String.toList_ofList]

end Segment

/-- How a piece is written. -/
def Piece.source : Piece → List Char
  | .verbatim code => code
  | .placeholder member target => (Segment.ofPlaceholder member target).source

namespace Segment

/-- Gathering the code between placeholders loses nothing of it. -/
theorem flatMap_ofPieces (pieces : List Piece) :
    (ofPieces pieces).flatMap source = pieces.flatMap Piece.source := by
  show (withCode _ _).flatMap source = _
  rw [flatMap_withCode]
  induction pieces with
  | nil => rfl
  | cons piece pieces ih =>
    rw [List.flatMap_cons, ← ih]
    cases piece with
    | verbatim code => exact List.append_assoc ..
    | placeholder member target =>
      show (ofPlaceholder member target :: withCode _ _).flatMap source = _
      rw [List.flatMap_cons, flatMap_withCode]
      rfl

variable (segments : List Segment)

/-- No segment of code is empty, and none stands next to another one. -/
structure Joined : Prop where
  ne_empty : ∀ s ∈ segments, s ≠ .text ""
  apart : segments.IsChain fun s t => ¬ (s.isCode = true ∧ t.isCode = true)

variable {segments}

theorem Joined.cons {s : Segment} (h : Joined segments) (hs : s.isCode = false) :
    Joined (s :: segments) where
  ne_empty := by
    refine List.forall_mem_cons.2 ⟨?_, h.ne_empty⟩
    rintro rfl
    simp [isCode] at hs
  apart := by
    rw [List.isChain_cons]
    refine ⟨?_, h.apart⟩
    intro t _ hcode
    simp [hs] at hcode

/-- Code may come first if no code does yet. -/
theorem Joined.withCode (h : Joined segments) (hhead : ∀ s ∈ segments.head?, s.isCode = false)
    (code : List Char) : Joined (withCode code segments) := by
  unfold Segment.withCode
  split
  · exact h
  · next hcode =>
    constructor
    · refine List.forall_mem_cons.2 ⟨?_, h.ne_empty⟩
      intro heq
      have hnil : code = [] := by simpa using heq
      simp [hnil] at hcode
    · rw [List.isChain_cons]
      refine ⟨?_, h.apart⟩
      intro t ht hboth
      simp [hhead t ht] at hboth

/-- What is gathered begins with a placeholder. -/
theorem head?_gather (pieces : List Piece) :
    ∀ s ∈ (gather pieces).2.head?, s.isCode = false := by
  induction pieces with
  | nil => simp [gather]
  | cons piece pieces ih =>
    cases piece with
    | verbatim code => exact ih
    | placeholder member target =>
      intro s hs
      obtain rfl : ofPlaceholder member target = s := Option.some.inj hs
      exact isCode_ofPlaceholder member target

theorem joined_ofPieces (pieces : List Piece) : Joined (ofPieces pieces) := by
  have hgather : Joined (gather pieces).2 := by
    induction pieces with
    | nil => exact ⟨by simp [gather], .nil⟩
    | cons piece pieces ih =>
      cases piece with
      | verbatim code => exact ih
      | placeholder member target =>
        exact (ih.withCode (head?_gather pieces) _).cons (isCode_ofPlaceholder member target)
  exact hgather.withCode (head?_gather pieces) _

end Segment

namespace Region

variable {arity : Nat}

/-- A region is written without the zeros, once it has been read. -/
theorem source_piece {r : Region} {next : Option Char} (h : r.Stands next)
    (hrange : r.InRange arity) : r.piece.source = r.trim.chars := by
  cases h with
  | quoted | comment | lineComment | other => rfl
  | @result member =>
    cases member <;>
      simp [piece, Piece.source, target, Segment.ofPlaceholder, Segment.source, trim, chars, tag,
        ending, String.toList_ofList]
  | @argument member digits _ _ hdigits =>
    have hsource := (toDigits_decimalValue_eq hdigits.digit (hrange _ rfl).2.1).2
    cases member <;>
      simp [piece, Piece.source, target, Segment.ofPlaceholder, Segment.source, trim, chars, tag,
        ending, String.toList_ofList, hsource]

/-- The segments of a cut text, written out, are the text without the zeros. -/
theorem Cuts.flatMap_source {text rest : List Char} {regions : List Region}
    (h : Cuts text regions rest) (hrange : ∀ r ∈ regions, r.InRange arity) :
    (Segment.ofPieces (regions.map piece)).flatMap Segment.source
      = (regions.map Region.trim).flatMap chars := by
  rw [Segment.flatMap_ofPieces]
  induction h with
  | nil => rfl
  | cons hstands _ ih =>
    obtain ⟨hr, hregions⟩ := List.forall_mem_cons.1 hrange
    rw [List.map_cons, List.map_cons, List.flatMap_cons, List.flatMap_cons, ih hregions,
      source_piece hstands hr]

end Region

/-! ## Section 4: The text of an action -/

namespace SemanticAction

/-- The segments of an action, written one after the other. -/
def source (a : SemanticAction) : List Char := a.segments.flatMap Segment.source

/-- A number among the segments is that of a placeholder of the cut. -/
theorem index?_mem {regions : List Region} {s : Segment}
    (hs : s ∈ Segment.ofPieces (regions.map piece)) {n : Nat} (hn : s.index? = some n) :
    ∃ r ∈ regions, r.number? = some n := by
  have hcode : s.isCode = false := by
    cases s with
    | text => simp [Segment.index?] at hn
    | result | argument | typedResult | typedArgument => rfl
  have hmem : s ∈ (Segment.ofPieces (regions.map piece)).filter (!·.isCode) :=
    List.mem_filter.2 ⟨hs, by simp [hcode]⟩
  rw [Segment.filter_ofPieces] at hmem
  obtain ⟨r, hr, hsegment⟩ := List.mem_filterMap.1 hmem
  refine ⟨r, hr, ?_⟩
  cases r with
  | shielded | other => simp [segment?] at hsegment
  | placeholder member digits =>
    obtain rfl := Option.some.inj hsegment
    cases digits with
    | none => cases member <;> simp [Segment.ofPlaceholder, target, Segment.index?] at hn
    | some digits => cases member <;> exact hn

/-- **Segments reproduce the text.** Written out again, the segments of an action are its text
    without the zeros in front of numbers, and that text has the same segments. No code among
    them is empty or could be joined, and every number is that of a symbol. -/
theorem segments_reproduce {text : List Char} {rule arity : Nat} {a : SemanticAction}
    (h : parse text rule arity = .ok a) :
    (∃ regions, Cuts text regions [] ∧ text = regions.flatMap chars ∧
      a.source = (regions.map Region.trim).flatMap chars) ∧
    parse a.source rule arity = .ok ⟨String.ofList a.source, a.segments⟩ ∧
    (∀ s ∈ a.segments, s ≠ .text "") ∧
    a.segments.IsChain (fun s t => ¬ (s.isCode = true ∧ t.isCode = true)) ∧
    ∀ s ∈ a.segments, ∀ n, s.index? = some n → 1 ≤ n ∧ n ≤ arity := by
  obtain ⟨pieces, hread, rfl⟩ := map_eq_ok_iff.1 h
  obtain ⟨regions, hcuts, hrange⟩ := exists_cuts_of_readAll hread
  obtain rfl := eq_map_piece_of_readAll hread hcuts
  have hsource : source ⟨String.ofList text, Segment.ofPieces (regions.map piece)⟩
      = (regions.map Region.trim).flatMap chars := hcuts.flatMap_source hrange
  have hjoined := Segment.joined_ofPieces (regions.map piece)
  refine ⟨⟨regions, hcuts, ?_, hsource⟩, ?_, hjoined.ne_empty, hjoined.apart, ?_⟩
  · have htext := hcuts.eq_append
    rwa [List.append_nil] at htext
  · -- The source is cut into the trimmed regions, and these are read like the others.
    have htrim : ∀ r ∈ regions.map Region.trim, r.InRange arity := by
      intro r hr
      obtain ⟨q, hq, rfl⟩ := List.mem_map.1 hr
      exact (hrange q hq).trim
    have hpieces : (regions.map Region.trim).map piece = regions.map piece := by
      rw [List.map_map]
      exact List.map_congr_left fun r _ => r.piece_trim
    rw [hsource, parse, (hcuts.trim hrange).1.readAll_eq htrim, hpieces]
    rfl
  · intro s hs n hn
    obtain ⟨r, hr, hnumber⟩ := index?_mem hs hn
    exact (hrange r hr n hnumber).2

/-- Zeros are lost in front of the `7` and the `10`, but not in quotes, and the code in quotes
    and in the comment is one segment with what is around it. -/
theorem segments_reproduce_zeros :
    ∃ a, parse "x$007 '$01' $<n>010+$$ /*$2*/;".toList 1 10 = .ok a ∧
      a.segments = [.text "x", .argument 7, .text " '$01' ", .typedArgument "n" 10, .text "+",
        .result, .text " /*$2*/;"] ∧
      a.source = "x$7 '$01' $<n>10+$$ /*$2*/;".toList ∧
      parse a.source 1 10 = .ok ⟨String.ofList a.source, a.segments⟩ ∧
      ∃ regions, Cuts "x$007 '$01' $<n>010+$$ /*$2*/;".toList regions [] ∧
        a.source = (regions.map Region.trim).flatMap chars := by
  have hread : (parse "x$007 '$01' $<n>010+$$ /*$2*/;".toList 1 10).map (fun a => decide
      (a.segments = [.text "x", .argument 7, .text " '$01' ", .typedArgument "n" 10, .text "+",
        .result, .text " /*$2*/;"] ∧
      a.source = "x$7 '$01' $<n>10+$$ /*$2*/;".toList)) = .ok true := by
    decide +kernel
  obtain ⟨a, ha, hsegments, hsource⟩ := exists_of_map_decide hread
  obtain ⟨⟨regions, hcuts, -, htrim⟩, hagain, -⟩ := segments_reproduce ha
  exact ⟨a, ha, hsegments, hsource, hagain, regions, hcuts, htrim⟩

end SemanticAction

end SlrCompiler
