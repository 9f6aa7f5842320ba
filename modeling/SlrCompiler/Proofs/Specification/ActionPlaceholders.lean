import SlrCompiler.Proofs.Specification.ActionRegions

/-! # Where the placeholders of an action count

    The code of an action, cut from left to right into regions (`Region.Cuts`), as far as
    regions stand in it. At a place of the cut something may be wrong (`Fault`): there is
    no region, or there is a placeholder whose number is no symbol's. In the second case
    the cut goes on behind the placeholder all the same, so there may be many faults, and
    it must be said that the reader reports the leftmost.

    Where a region stands and its number is a symbol's, the reader goes on behind it, and
    so does every cut (`Cuts.of_stands`). By induction along the cut (`cut_induction`)
    code that is read has no fault, and code that is refused has one before which there is
    none (`exists_fault_of_readAll`).
-/

namespace SlrCompiler

open Text Region

/-! ## Section 1: Cuts and faults -/

namespace Region

/-- A text is cut into regions from left to right, up to a rest. -/
inductive Cuts : List Char → List Region → List Char → Prop
  | nil {rest : List Char} : Cuts rest [] rest
  | cons {r : Region} {regions : List Region} {tail rest : List Char} : r.Stands tail.head? →
      Cuts tail regions rest → Cuts (r.chars ++ tail) (r :: regions) rest

/-- A rest of a text at which a region is due. -/
def Place (text rest : List Char) : Prop := ∃ regions, Cuts text regions rest

/-- The number of a placeholder is that of a symbol. -/
def InRange (arity : Nat) (r : Region) : Prop :=
  ∀ n ∈ r.number?, n < Piece.indexLimit ∧ 1 ≤ n ∧ n ≤ arity

/-- The segment of a placeholder. -/
def segment? : Region → Option Segment
  | .placeholder member digits => some (.ofPlaceholder member (target digits))
  | _ => none

end Region

/-- What is wrong at the beginning of a text: something malformed, or a placeholder with
    a number that is too large or that no symbol has. -/
inductive Fault (rule arity : Nat) : List Char → GrammarError → Prop
  | malformed {text : List Char} {fault : ActionFault} : Malformed text fault →
      Fault rule arity text (.malformedAction rule fault)
  | tooLarge {r : Region} {rest : List Char} {n : Nat} : r.Stands rest.head? →
      r.number? = some n → Piece.indexLimit ≤ n →
      Fault rule arity (r.chars ++ rest) (.malformedAction rule .indexTooLarge)
  | outOfRange {r : Region} {rest : List Char} {n : Nat} : r.Stands rest.head? →
      r.number? = some n → n < Piece.indexLimit → ¬ (1 ≤ n ∧ n ≤ arity) →
      Fault rule arity (r.chars ++ rest) (.placeholderOutOfRange rule n arity)

/-- At all places of a text quoted texts and comments are closed, tags are names in front
    of what a placeholder can stand for, and numbers are those of symbols. -/
structure Readable (arity : Nat) (text : List Char) : Prop where
  quoted : ∀ quote rest, Place text (quote :: rest) → quote = '"' ∨ quote = '\'' →
    ∃ quoted after, Quoted quote quoted ∧ rest = quoted ++ after
  comment : ∀ rest, Place text ('/' :: '*' :: rest) → ['*', '/'] <:+: rest
  tag : ∀ rest, Place text ('$' :: '<' :: rest) → ∃ member after, rest = member ++ '>' :: after ∧
    isIdentifier member = true ∧ BeginsEnding after.head?
  number : ∀ (r : Region) rest n, Place text (r.chars ++ rest) → r.Stands rest.head? →
    r.number? = some n → n < Piece.indexLimit ∧ 1 ≤ n ∧ n ≤ arity

/-- In readable code the tag goes up to the first bracket, so this is the only one. -/
theorem Readable.tag_of_gt {arity : Nat} {text member rest : List Char} (h : Readable arity text)
    (hplace : Place text ('$' :: '<' :: (member ++ '>' :: rest))) (hgt : '>' ∉ member) :
    isIdentifier member = true ∧ BeginsEnding rest.head? := by
  obtain ⟨other, after, heq, hother, hbegins⟩ := h.tag _ hplace
  have hcut := cutAt_gt (not_mem_of_isIdentifier_gt hother) after
  rw [← heq, cutAt_gt hgt] at hcut
  obtain ⟨rfl, rfl⟩ := Prod.mk.inj (Option.some.inj hcut)
  exact ⟨hother, hbegins⟩

/-- Nothing is wrong at the places of readable code. -/
theorem Readable.not_fault {rule arity : Nat} {text rest : List Char} {e : GrammarError}
    (h : Readable arity text) (hplace : Place text rest) : ¬ Fault rule arity rest e := by
  intro hfault
  cases hfault with
  | malformed hmalformed =>
    cases hmalformed with
    | quoted hquote hopen =>
      obtain ⟨quoted, after, hquoted, heq⟩ := h.quoted _ _ hplace hquote
      exact hopen quoted after hquoted heq
    | comment hopen => exact hopen (h.comment _ hplace)
    | openTag hopen =>
      obtain ⟨member, after, rfl, -, -⟩ := h.tag _ hplace
      simp at hopen
    | tag hgt hmember =>
      have hname := (h.tag_of_gt hplace hgt).1
      simp [hmember] at hname
    | strayTag hmember hending =>
      exact hending (h.tag_of_gt hplace (not_mem_of_isIdentifier_gt hmember)).2
  | tooLarge hstands hnumber hlarge =>
    have hsmall := (h.number _ _ _ hplace hstands hnumber).1
    omega
  | outOfRange hstands hnumber _ hrange =>
    exact hrange (h.number _ _ _ hplace hstands hnumber).2

/-- A text is readable if nothing is wrong at any of its places. -/
theorem readable_iff {rule arity : Nat} {text : List Char} :
    Readable arity text ↔ ∀ rest e, Place text rest → ¬ Fault rule arity rest e := by
  constructor
  · intro h rest e hplace
    exact h.not_fault hplace
  · intro h
    constructor
    case quoted =>
      intro quote rest hplace hquote
      by_contra hopen
      push Not at hopen
      exact h _ _ hplace (.malformed (.quoted hquote hopen))
    case comment =>
      intro rest hplace
      by_contra hopen
      exact h _ _ hplace (.malformed (.comment hopen))
    case tag =>
      intro rest hplace
      by_cases hgt : '>' ∈ rest
      · obtain ⟨member, after, rfl, hmember⟩ := List.eq_append_cons_of_mem hgt
        have hname : isIdentifier member = true := by
          by_contra hname
          exact h _ _ hplace (.malformed (.tag hmember (by simpa using hname)))
        refine ⟨member, after, rfl, hname, ?_⟩
        by_contra hending
        exact h _ _ hplace (.malformed (.strayTag hname hending))
      · exact absurd (.malformed (.openTag hgt)) (h _ _ hplace)
    case number =>
      intro r rest n hplace hstands hnumber
      by_cases hlarge : Piece.indexLimit ≤ n
      · exact absurd (.tooLarge hstands hnumber hlarge) (h _ _ hplace)
      · refine ⟨by omega, ?_⟩
        by_contra hrange
        exact h _ _ hplace (.outOfRange hstands hnumber (by omega) hrange)

/-! ## Section 2: From left to right -/

namespace Region

theorem Cuts.eq_append {text rest : List Char} {regions : List Region}
    (h : Cuts text regions rest) : text = regions.flatMap chars ++ rest := by
  induction h with
  | nil => rfl
  | cons _ _ ih => rw [ih, List.flatMap_cons, List.append_assoc]

theorem Place.suffix {text rest : List Char} (h : Place text rest) : rest <:+ text := by
  obtain ⟨regions, hcuts⟩ := h
  exact ⟨regions.flatMap chars, hcuts.eq_append.symm⟩

/-- Where one region stands, and its number is that of a symbol, what another cut takes is
    read like it, and ends with it. -/
theorem Stands.read_alike {arity : Nat} {r other : Region} {rest tail : List Char}
    (h : r.Stands rest.head?) (hrange : r.InRange arity) (hother : other.Stands tail.head?)
    (heq : r.chars ++ rest = other.chars ++ tail) : other.piece = r.piece ∧ tail = rest := by
  obtain ⟨c, behind, htext, hread⟩ := Piece.next_of_stands h (fun n hn => (hrange n hn).1)
  have halike : ∀ d others, other.chars ++ tail = d :: others → d = c ∧ others = behind := by
    intro d others hd
    rw [← heq, htext] at hd
    exact ⟨(List.cons.inj hd).1.symm, (List.cons.inj hd).2.symm⟩
  by_cases hsmall : ∀ n ∈ other.number?, n < Piece.indexLimit
  · obtain ⟨d, others, hd, hreadother⟩ := Piece.next_of_stands hother hsmall
    obtain ⟨rfl, rfl⟩ := halike d others hd
    rw [hread] at hreadother
    obtain ⟨hpiece, hrest⟩ := Prod.mk.inj (Except.ok.inj hreadother)
    exact ⟨hpiece.symm, hrest.symm⟩
  · push Not at hsmall
    obtain ⟨n, hn, hlarge⟩ := hsmall
    obtain ⟨d, others, hd, hreadother⟩ := Piece.next_of_tooLarge hother hn hlarge
    obtain ⟨rfl, rfl⟩ := halike d others hd
    simp [hread] at hreadother

/-- **From left to right**: what holds at the end of a text and where something is wrong,
    and goes from what is behind a region to what begins with it, holds of every text. -/
theorem cut_induction (rule arity : Nat) {P : List Char → Prop} (nil : P [])
    (region : ∀ r rest, r.Stands rest.head? → InRange arity r → P rest → P (r.chars ++ rest))
    (fault : ∀ text e, Fault rule arity text e → P text) (text : List Char) : P text := by
  -- The induction is on the length of the text, since a region is never empty.
  induction hlength : text.length using Nat.strongRecOn generalizing text with
  | ind length ih =>
    rcases place_cases text with rfl | ⟨r, rest, rfl, hstands⟩ | ⟨f, hmalformed⟩
    · exact nil
    · by_cases hrange : r.InRange arity
      · refine region r rest hstands hrange (ih rest.length ?_ rest rfl)
        have hpos := List.length_pos_of_ne_nil hstands.chars_ne_nil
        rw [List.length_append] at hlength
        omega
      · unfold InRange at hrange
        push Not at hrange
        obtain ⟨n, hn, hbad⟩ := hrange
        by_cases hlarge : Piece.indexLimit ≤ n
        · exact fault _ _ (.tooLarge hstands hn hlarge)
        · refine fault _ _ (.outOfRange hstands hn (by omega) ?_)
          rintro ⟨hone, harity⟩
          have := hbad (by omega) hone
          omega
    · exact fault text _ (.malformed hmalformed)

end Region

/-! ## Section 3: All places -/

namespace Piece

variable {rule arity : Nat} {text rest : List Char} {r : Region}

theorem readAll_of_next {c : Char} {piece : Piece} (h : next c rest = .ok (piece, text)) :
    readAll rule arity (c :: rest) = match piece.excess? arity with
      | some index => .error (.placeholderOutOfRange rule index arity)
      | none => (readAll rule arity text).map (piece :: ·) := by
  rw [readAll]
  split
  · simp_all
  · next piece' after heq =>
    rw [h] at heq
    obtain ⟨rfl, rfl⟩ := Prod.mk.inj (Except.ok.inj heq)
    rfl

theorem excess?_piece : r.piece.excess? arity =
    r.number?.bind fun n => if 1 ≤ n ∧ n ≤ arity then none else some n := by
  cases r with
  | shielded text => rfl
  | other c => rfl
  | placeholder member digits => cases digits <;> rfl

/-- **One region**: it is read, and then what is behind it. -/
theorem readAll_of_stands (h : r.Stands rest.head?) (hrange : r.InRange arity) :
    readAll rule arity (r.chars ++ rest) = (readAll rule arity rest).map (r.piece :: ·) := by
  obtain ⟨c, tail, htext, hread⟩ := next_of_stands h (fun n hn => (hrange n hn).1)
  have hexcess : r.piece.excess? arity = none := by
    rw [excess?_piece, Option.bind_eq_none_iff]
    intro n hn
    rw [if_pos (hrange n hn).2]
  rw [htext, readAll_of_next hread, hexcess]

/-- **One fault**: it is reported. -/
theorem readAll_of_fault {e : GrammarError} (h : Fault rule arity text e) :
    readAll rule arity text = .error e := by
  have hnext : ∀ {c : Char} {tail : List Char} {fault : ActionFault},
      next c tail = .error fault →
      readAll rule arity (c :: tail) = .error (.malformedAction rule fault) := by
    intro c tail fault hread
    rw [readAll]
    split <;> simp_all
  cases h with
  | malformed hmalformed =>
    obtain ⟨c, tail, rfl, hread⟩ := next_of_malformed hmalformed
    exact hnext hread
  | tooLarge hstands hnumber hlarge =>
    obtain ⟨c, tail, htext, hread⟩ := next_of_tooLarge hstands hnumber hlarge
    rw [htext]
    exact hnext hread
  | @outOfRange r rest n hstands hnumber hsmall hrange =>
    obtain ⟨c, tail, htext, hread⟩ := next_of_stands hstands (by simp [hnumber, hsmall])
    have hexcess : r.piece.excess? arity = some n := by
      rw [excess?_piece, hnumber, Option.bind_some, if_neg hrange]
    rw [htext, readAll_of_next hread, hexcess]

end Piece

namespace Region

variable {rule arity : Nat} {text rest : List Char}

/-- Where a region stands, every cut begins with one that is read like it, unless it does not
    begin at all. -/
theorem Cuts.of_stands {r : Region} {regions : List Region} {tail : List Char}
    (h : r.Stands rest.head?) (hrange : r.InRange arity)
    (hcuts : Cuts (r.chars ++ rest) regions tail) : (regions = [] ∧ tail = r.chars ++ rest) ∨
      ∃ other more, regions = other :: more ∧ other.piece = r.piece ∧ Cuts rest more tail := by
  generalize htext : r.chars ++ rest = text at hcuts
  cases hcuts with
  | nil => exact .inl ⟨rfl, rfl⟩
  | cons hother hmore =>
    obtain ⟨hpiece, rfl⟩ := h.read_alike hrange hother htext
    exact .inr ⟨_, _, rfl, hpiece, hmore⟩

/-- For an empty right side every number is in excess. -/
theorem number?_eq_excess? (r : Region) : r.number? = r.piece.excess? 0 := by
  rw [Piece.excess?_piece]
  cases r.number? with
  | none => rfl
  | some n =>
    have hnone : ¬ (1 ≤ n ∧ n ≤ 0) := by omega
    rw [Option.bind_some, if_neg hnone]

theorem number?_eq_of_piece_eq {r other : Region} (h : other.piece = r.piece) :
    other.number? = r.number? := by
  rw [number?_eq_excess?, number?_eq_excess?, h]

/-- Nothing is wrong where a region stands with the number of a symbol. -/
theorem Stands.not_fault {r : Region} (h : r.Stands rest.head?) (hrange : r.InRange arity)
    {e : GrammarError} : ¬ Fault rule arity (r.chars ++ rest) e := by
  intro hfault
  generalize htext : r.chars ++ rest = text at hfault
  cases hfault with
  | malformed hmalformed =>
    obtain ⟨c, tail, heq, hread⟩ := Piece.next_of_stands h (fun n hn => (hrange n hn).1)
    obtain ⟨d, others, rfl, hrefused⟩ := Piece.next_of_malformed hmalformed
    rw [heq] at htext
    obtain ⟨rfl, rfl⟩ := List.cons.inj htext
    simp [hread] at hrefused
  | tooLarge hother hnumber hlarge =>
    obtain ⟨hpiece, -⟩ := h.read_alike hrange hother htext
    rw [number?_eq_of_piece_eq hpiece] at hnumber
    have hsmall := (hrange _ hnumber).1
    omega
  | outOfRange hother hnumber _ hbad =>
    obtain ⟨hpiece, -⟩ := h.read_alike hrange hother htext
    rw [number?_eq_of_piece_eq hpiece] at hnumber
    exact hbad (hrange _ hnumber).2

theorem Cuts.of_nil {regions : List Region} (h : Cuts [] regions rest) :
    regions = [] ∧ rest = [] := by
  generalize htext : ([] : List Char) = text at h
  cases h with
  | nil => exact ⟨rfl, rfl⟩
  | cons hstands _ =>
    exact absurd (List.append_eq_nil_iff.1 htext.symm).1 hstands.chars_ne_nil

theorem Place.refl : Place text text := ⟨[], .nil⟩

theorem Place.of_stands {r : Region} (h : r.Stands rest.head?) {tail : List Char}
    (hplace : Place rest tail) : Place (r.chars ++ rest) tail := by
  obtain ⟨regions, hcuts⟩ := hplace
  exact ⟨r :: regions, .cons h hcuts⟩

/-- A text that is read can be cut as a whole. -/
theorem exists_cuts_of_readAll {pieces : List Piece}
    (h : Piece.readAll rule arity text = .ok pieces) :
    ∃ regions, Cuts text regions [] ∧ ∀ r ∈ regions, InRange arity r := by
  induction text using cut_induction rule arity generalizing pieces with
  | nil => exact ⟨[], .nil, by simp⟩
  | region r rest hstands hrange ih =>
    rw [Piece.readAll_of_stands hstands hrange] at h
    obtain ⟨behind, hread, -⟩ := map_eq_ok_iff.1 h
    obtain ⟨regions, hcuts, hregions⟩ := ih hread
    exact ⟨r :: regions, .cons hstands hcuts, List.forall_mem_cons.2 ⟨hrange, hregions⟩⟩
  | fault text e hfault => simp [Piece.readAll_of_fault hfault] at h

/-- It is read region by region. -/
theorem eq_map_piece_of_readAll {pieces : List Piece} {regions : List Region}
    (h : Piece.readAll rule arity text = .ok pieces) (hcuts : Cuts text regions []) :
    pieces = regions.map piece := by
  induction text using cut_induction rule arity generalizing pieces regions with
  | nil =>
    obtain ⟨rfl, -⟩ := hcuts.of_nil
    rw [Piece.readAll] at h
    exact (Except.ok.inj h).symm
  | region r rest hstands hrange ih =>
    rw [Piece.readAll_of_stands hstands hrange] at h
    obtain ⟨behind, hread, rfl⟩ := map_eq_ok_iff.1 h
    rcases hcuts.of_stands hstands hrange with ⟨-, hnil⟩ | ⟨other, more, rfl, hpiece, hmore⟩
    · exact absurd (List.append_eq_nil_iff.1 hnil.symm).1 hstands.chars_ne_nil
    · rw [List.map_cons, hpiece, ih hread hmore]
  | fault text e hfault => simp [Piece.readAll_of_fault hfault] at h

/-- Nothing is wrong at any place of a text that is read. -/
theorem not_fault_of_readAll {pieces : List Piece} (h : Piece.readAll rule arity text = .ok pieces)
    {e : GrammarError} (hplace : Place text rest) : ¬ Fault rule arity rest e := by
  intro hfault
  obtain ⟨regions, hcuts⟩ := hplace
  have hrefused := Piece.readAll_of_fault hfault
  induction text using cut_induction rule arity generalizing pieces regions with
  | nil =>
    obtain ⟨-, rfl⟩ := hcuts.of_nil
    simp [h] at hrefused
  | region r tail hstands hrange ih =>
    rcases hcuts.of_stands hstands hrange with ⟨-, rfl⟩ | ⟨other, more, -, -, hmore⟩
    · simp [h] at hrefused
    · rw [Piece.readAll_of_stands hstands hrange] at h
      obtain ⟨behind, hread, -⟩ := map_eq_ok_iff.1 h
      exact ih hread more hmore
  | fault text f hother => simp [Piece.readAll_of_fault hother] at h

/-- **The leftmost fault** is reported. -/
theorem exists_fault_of_readAll {e : GrammarError} (h : Piece.readAll rule arity text = .error e) :
    ∃ rest, Place text rest ∧ Fault rule arity rest e ∧ ∀ other f, Place text other →
      Fault rule arity other f → other.length ≤ rest.length := by
  -- The induction is along the cut: a place is the text itself, or one behind its first region.
  induction text using cut_induction rule arity with
  | nil => simp [Piece.readAll] at h
  | region r tail hstands hrange ih =>
    rw [Piece.readAll_of_stands hstands hrange] at h
    obtain ⟨rest, hplace, hfault, hleftmost⟩ := ih (map_eq_error_iff.1 h)
    refine ⟨rest, hplace.of_stands hstands, hfault, ?_⟩
    intro other f hother hf
    obtain ⟨regions, hcuts⟩ := hother
    rcases hcuts.of_stands hstands hrange with ⟨-, rfl⟩ | ⟨-, more, -, -, hmore⟩
    · exact absurd hf (hstands.not_fault hrange)
    · exact hleftmost other f ⟨more, hmore⟩ hf
  | fault text f hfault =>
    rw [Piece.readAll_of_fault hfault] at h
    obtain rfl := Except.error.inj h
    refine ⟨text, .refl, hfault, ?_⟩
    intro other g hother _
    exact hother.suffix.length_le

end Region

/-! ## Section 4: Placeholders -/

namespace Segment

/-- Whether a segment is code. -/
def isCode : Segment → Bool
  | .text _ => true
  | _ => false

theorem isCode_ofPlaceholder (member : Option (List Char)) (target : Target) :
    (ofPlaceholder member target).isCode = false := by
  cases member <;> cases target <;> rfl

theorem filter_withCode (code : List Char) (segments : List Segment) :
    (withCode code segments).filter (!·.isCode) = segments.filter (!·.isCode) := by
  unfold withCode
  split
  · rfl
  · rw [List.filter_cons_of_neg (by simp [isCode])]

/-- The segments that are no code are the placeholders, in their order. -/
theorem filter_ofPieces (regions : List Region) :
    (ofPieces (regions.map piece)).filter (!·.isCode) = regions.filterMap segment? := by
  show (withCode _ _).filter _ = _
  rw [filter_withCode]
  induction regions with
  | nil => rfl
  | cons r regions ih =>
    cases r with
    | shielded text => exact ih
    | other c => exact ih
    | placeholder member digits =>
      have hplaceholder := isCode_ofPlaceholder member (target digits)
      show (ofPlaceholder member (target digits) :: withCode _ _).filter _ = _
      rw [List.filter_cons_of_pos (by simp [hplaceholder]), filter_withCode, ih]
      rfl

end Segment

namespace SemanticAction

/-- **Placeholders are found exactly where they count.** An action is read if and only if
    quoted texts and comments are closed, tags are in order and numbers are those of symbols,
    wherever the cut comes to one. Then the text can be cut as a whole, and the segments that
    are no code are the placeholders of the cut. Otherwise the leftmost fault is reported. -/
theorem parse_iff_readable (text : List Char) (rule arity : Nat) :
    ((∃ a, parse text rule arity = .ok a) ↔ Readable arity text) ∧
      (∀ a, parse text rule arity = .ok a → (∃ regions, Cuts text regions []) ∧
        ∀ regions, Cuts text regions [] →
          a.segments.filter (!·.isCode) = regions.filterMap segment?) ∧
      ∀ e, parse text rule arity = .error e ↔ ∃ rest, Place text rest ∧ Fault rule arity rest e ∧
        ∀ other f, Place text other → Fault rule arity other f → other.length ≤ rest.length := by
  refine ⟨⟨?_, ?_⟩, ?_, ?_⟩
  · intro h
    obtain ⟨a, ha⟩ := h
    obtain ⟨pieces, hread, -⟩ := map_eq_ok_iff.1 ha
    apply readable_iff.2
    intro rest e hplace
    exact not_fault_of_readAll hread hplace
  · intro h
    cases hparse : parse text rule arity with
    | ok a => exact ⟨a, rfl⟩
    | error e =>
      obtain ⟨rest, hplace, hfault, -⟩ := exists_fault_of_readAll (map_eq_error_iff.1 hparse)
      exact absurd hfault (readable_iff.1 h rest e hplace)
  · intro a ha
    obtain ⟨pieces, hread, rfl⟩ := map_eq_ok_iff.1 ha
    obtain ⟨regions, hcuts, -⟩ := exists_cuts_of_readAll hread
    refine ⟨⟨regions, hcuts⟩, ?_⟩
    intro others hothers
    rw [eq_map_piece_of_readAll hread hothers]
    exact Segment.filter_ofPieces others
  · intro e
    constructor
    · intro h
      exact exists_fault_of_readAll (map_eq_error_iff.1 h)
    · intro h
      obtain ⟨rest, hplace, hfault, hleftmost⟩ := h
      cases hparse : parse text rule arity with
      | ok a =>
        obtain ⟨pieces, hread, -⟩ := map_eq_ok_iff.1 hparse
        exact absurd hfault (not_fault_of_readAll hread hplace)
      | error f =>
        -- no place is left of the one that is reported either, so the two are the same
        obtain ⟨other, hother, hf, hleft⟩ := exists_fault_of_readAll (map_eq_error_iff.1 hparse)
        have hsuffix : rest <:+ other :=
          List.suffix_of_suffix_length_le hplace.suffix hother.suffix (hleft rest e hplace hfault)
        obtain rfl := hsuffix.eq_of_length_le (hleftmost other f hother hf)
        have hsame := Piece.readAll_of_fault hf
        rw [Piece.readAll_of_fault hfault] at hsame
        rw [Except.error.inj hsame]

/-- Dollar signs in both kinds of comment and behind an escaped quote do not count; two
    dollar signs do before a third one. In the second text a number is out of range and a
    quoted text is left open behind it. -/
theorem parse_iff_readable_shielded :
    (∃ a, parse "/*/$1*/ '\\'$2' $<n>02 $$$1 // $7".toList 1 2 = .ok a ∧
      a.segments.filter (!·.isCode) = [.typedArgument "n" 2, .result, .argument 1] ∧
      Readable 2 "/*/$1*/ '\\'$2' $<n>02 $$$1 // $7".toList ∧
      ∃ regions, Cuts "/*/$1*/ '\\'$2' $<n>02 $$$1 // $7".toList regions [] ∧
        regions.filterMap segment? = [.typedArgument "n" 2, .result, .argument 1]) ∧
    parse "$1$3'".toList 1 2 = .error (.placeholderOutOfRange 1 3 2) ∧
    ¬ Readable 2 "$1$3'".toList ∧
    ∃ rest, Place "$1$3'".toList rest ∧ Fault 1 2 rest (.placeholderOutOfRange 1 3 2) ∧
      ∀ other f, Place "$1$3'".toList other → Fault 1 2 other f → other.length ≤ rest.length := by
  have hread : (parse "/*/$1*/ '\\'$2' $<n>02 $$$1 // $7".toList 1 2).map (fun a => decide
      (a.segments.filter (!·.isCode) = [.typedArgument "n" 2, .result, .argument 1]))
        = .ok true := by
    decide +kernel
  have hrefused : parse "$1$3'".toList 1 2 = .error (.placeholderOutOfRange 1 3 2) := by
    decide +kernel
  obtain ⟨a, ha, hsegments⟩ := exists_of_map_decide hread
  obtain ⟨hreadable, hcut, -⟩ := parse_iff_readable "/*/$1*/ '\\'$2' $<n>02 $$$1 // $7".toList 1 2
  obtain ⟨hunreadable, -, hleftmost⟩ := parse_iff_readable "$1$3'".toList 1 2
  obtain ⟨⟨regions, hcuts⟩, hall⟩ := hcut a ha
  refine ⟨⟨a, ha, hsegments, hreadable.1 ⟨a, ha⟩, regions, hcuts, ?_⟩, hrefused, ?_,
    (hleftmost _).1 hrefused⟩
  · rw [← hall regions hcuts]
    exact hsegments
  · intro h
    obtain ⟨b, hb⟩ := hunreadable.2 h
    rw [hb] at hrefused
    exact nomatch hrefused

end SemanticAction

end SlrCompiler
