import SlrCompiler.Text.AlphanumericRanges

/-! # Character classes

    Three classes of characters decide how a grammar specification is cut into words:

    * `isBlank`: the Unicode property White_Space;
    * `isIdentifierChar`: letters, numbers and the underscore;
    * `isDigit`: the ten ASCII digits, the only ones that count in a placeholder.

    `inRanges_iff` says that the search through an ascending table finds exactly the
    members of its ranges.
-/

namespace SlrCompiler.Text

/-! ## Range tables -/

/-- Looks `n` up in ascending closed ranges; the first range that lies above `n` ends the
    search. -/
def inRanges (n : Nat) : List (Nat × Nat) → Bool
  | [] => false
  | (low, high) :: ranges => if n < low then false else if n ≤ high then true else inRanges n ranges

/-- Ranges that ascend without touching, so that an early end of the search loses nothing. -/
def Ascending (ranges : List (Nat × Nat)) : Prop :=
  (∀ r ∈ ranges, r.1 ≤ r.2) ∧ ranges.Pairwise (fun r s => r.2 < s.1)

theorem inRanges_iff {n : Nat} {ranges : List (Nat × Nat)} (h : Ascending ranges) :
    inRanges n ranges = true ↔ ∃ r ∈ ranges, r.1 ≤ n ∧ n ≤ r.2 := by
  induction ranges with
  | nil => simp [inRanges]
  | cons r ranges ih =>
    obtain ⟨low, high⟩ := r
    obtain ⟨hle, hpair⟩ := h
    rw [List.pairwise_cons] at hpair
    have htail : Ascending ranges := ⟨fun s hs => hle s (List.mem_cons_of_mem _ hs), hpair.2⟩
    have hlow : low ≤ high := hle (low, high) List.mem_cons_self
    simp only [inRanges]
    split
    · -- The ranges ascend, so none of the others reaches down to the number.
      rename_i hn
      simp only [Bool.false_eq_true, List.mem_cons, false_iff, not_exists, not_and]
      rintro s (rfl | hs) h1 h2
      · exact absurd h1 (by simpa using hn)
      · have := hpair.1 s hs
        simp only at this
        omega
    · split
      · simp only [List.mem_cons, true_iff]
        exact ⟨(low, high), .inl rfl, by omega, by omega⟩
      · rw [ih htail]
        constructor
        · rintro ⟨s, hs, hb⟩
          exact ⟨s, List.mem_cons_of_mem _ hs, hb⟩
        · rintro ⟨s, hs, hb⟩
          rcases List.mem_cons.1 hs with rfl | hs
          · simp only at hb; omega
          · exact ⟨s, hs, hb⟩

/-! ## The classes -/

/-- The code points with the Unicode property White_Space. -/
def blankRanges : List (Nat × Nat) := [
  (0x0009, 0x000D), (0x0020, 0x0020), (0x0085, 0x0085), (0x00A0, 0x00A0), (0x1680, 0x1680),
  (0x2000, 0x200A), (0x2028, 0x2029), (0x202F, 0x202F), (0x205F, 0x205F), (0x3000, 0x3000)]

/-- Characters that separate words. -/
def isBlank (c : Char) : Bool := inRanges c.toNat blankRanges

/-- Characters of names: letters, numbers and the underscore. -/
def isIdentifierChar (c : Char) : Bool := inRanges c.toNat alphanumericRanges || c == '_'

/-- The digits of a placeholder index. -/
def isDigit (c : Char) : Bool := '0' ≤ c && c ≤ '9'

/-- Every digit of an index. -/
def digitValue (c : Char) : Nat := c.toNat - '0'.toNat

/-- The number that a run of decimal digits writes. -/
def decimalValue (digits : List Char) : Nat := digits.foldl (fun n c => 10 * n + digitValue c) 0

/-- A name is a nonempty run of name characters. -/
def isIdentifier (text : List Char) : Bool := !text.isEmpty && text.all isIdentifierChar

theorem ascending_blankRanges : Ascending blankRanges := by
  constructor <;> decide

end SlrCompiler.Text
