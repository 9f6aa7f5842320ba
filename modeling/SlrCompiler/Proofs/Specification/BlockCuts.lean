import SlrCompiler.Proofs.Specification.CommentMarks
import SlrCompiler.Proofs.Specification.Marks
import SlrCompiler.Proofs.Success
import SlrCompiler.Specification.Blocks

/-! # What is cut out of the declarations

    Before its lines are read, a declarations section loses its literal block, its
    union and its comments, in this order. Each of them is said here by marks alone,
    without the reader: the first literal block (`LiteralCut`), the first union, up to
    the brace that closes it (`UnionCut`, `Text.Closes`), and one comment after the
    other (`Text.Uncommented`). Where each of them is closed, the reader cuts out
    exactly that, and only there does it succeed (`ofText_eq_ok_iff`).
-/

namespace SlrCompiler

open Text

/-! ## Section 1: Comments -/

namespace Text

/-- The comments are taken out, one after the other: each runs from the first mark that
    opens one to the first mark after it that closes one, and leaves a blank and its
    line ends. -/
inductive Uncommented : List Char → List Char → Prop
  | plain {text : List Char} : ¬ HasCommentMark text → Uncommented text text
  | comment {text before rest body after out : List Char} :
      FirstMark ['/', '*'] text before rest → FirstMark ['*', '/'] rest body after →
      Uncommented after out → Uncommented text (before ++ ' ' :: (lineEnds body ++ out))

/-- Inside of a comment the text is cut at the mark that closes it. -/
theorem dropComments_inside_eq (text : List Char) :
    dropComments .inside text = (cutAt ['*', '/'] text).bind fun cut =>
      (dropComments .outside cut.2).map (lineEnds cut.1 ++ ·) := by
  induction text with
  | nil => rfl
  | cons c rest ih =>
    rw [cutAt]
    cases hmark : afterMark? ['*', '/'] (c :: rest) with
    | some after =>
      rw [eq_of_afterMark? hmark]
      simp [dropComments, lineEnds]
    | none =>
      have hnot := afterMark?_eq_none_iff.1 hmark
      have hopen : ∀ after, c = '*' → rest = '/' :: after → False := by
        rintro after rfl rfl
        exact hnot (List.prefix_append ['*', '/'] after)
      by_cases hc : c = '\n'
      · subst hc
        rw [dropComments, ih]
        cases cutAt ['*', '/'] rest <;> simp [lineEnds, Function.comp_def]
      · rw [dropComments, ih]
        · cases cutAt ['*', '/'] rest <;> simp [lineEnds, hc]
        · exact hopen
        · exact hc

/-- Outside of comments the text is cut at the mark that opens one. -/
theorem dropComments_outside_eq (text : List Char) :
    dropComments .outside text = match cutAt ['/', '*'] text with
      | none => some text
      | some (before, rest) => (dropComments .inside rest).map (before ++ ' ' :: ·) := by
  induction text with
  | nil => rfl
  | cons c rest ih =>
    rw [cutAt]
    cases hmark : afterMark? ['/', '*'] (c :: rest) with
    | some after =>
      rw [eq_of_afterMark? hmark]
      simp [dropComments]
    | none =>
      have hnot := afterMark?_eq_none_iff.1 hmark
      have hopen : ∀ after, c = '/' → rest = '*' :: after → False := by
        rintro after rfl rfl
        exact hnot (List.prefix_append ['/', '*'] after)
      rw [dropComments, ih]
      · cases cutAt ['/', '*'] rest <;> simp [Function.comp_def]
      · exact hopen

/-- **Comments**: what is left is the text with each comment replaced. -/
theorem stripComments_eq_some_iff {text out : List Char} :
    stripComments text = some out ↔ Uncommented text out := by
  unfold stripComments
  constructor
  · intro h
    -- The induction is on the length, since what follows a comment is read like a new text.
    induction hlength : text.length using Nat.strongRecOn generalizing text out with
    | ind _ ih =>
      rw [dropComments_outside_eq] at h
      split at h
      · rename_i hcut
        obtain rfl := Option.some.inj h
        exact .plain ((cutAt_eq_none_iff (by simp)).1 hcut)
      · rename_i before rest hcut
        rw [dropComments_inside_eq] at h
        simp only [Option.map_eq_some_iff, Option.bind_eq_some_iff, Prod.exists] at h
        obtain ⟨_, ⟨body, after, hclose, out, hout, rfl⟩, rfl⟩ := h
        have hopened := (cutAt_eq_some_iff (by simp)).1 hcut
        have hclosed := (cutAt_eq_some_iff (by simp)).1 hclose
        have hshorter : after.length < text.length := by
          have hrest := hopened.length_le
          have hafter := hclosed.length_le
          simp only [List.length_cons] at hrest
          omega
        exact .comment hopened hclosed (ih _ (hlength ▸ hshorter) hout rfl)
  · intro h
    induction h with
    | plain hnone =>
      rw [dropComments_outside_eq, (cutAt_eq_none_iff (by simp)).2 hnone]
    | comment hopened hclosed _ ih =>
      rw [dropComments_outside_eq, (cutAt_eq_some_iff (by simp)).2 hopened]
      simp [dropComments_inside_eq, (cutAt_eq_some_iff (by simp)).2 hclosed, ih]

/-! ## Section 2: Braces -/

/-- With some braces open, and one more, the text closes them all, and not before its
    end. -/
structure Closes (depth : Nat) (text : List Char) : Prop where
  count_eq : text.count '}' = text.count '{' + depth + 1
  count_le : ∀ u, u <+: text → u ≠ text → u.count '}' ≤ u.count '{' + depth

/-- A character that is not the last one opens a brace, closes one, or does neither. -/
theorem closes_cons_iff {depth left : Nat} {c : Char} {text : List Char}
    (h : [c].count '{' + depth = [c].count '}' + left) :
    Closes depth (c :: text) ↔ Closes left text := by
  have hcount (b : Char) (u : List Char) : (c :: u).count b = [c].count b + u.count b := by
    rw [← List.singleton_append, List.count_append]
  constructor
  · rintro ⟨heq, hle⟩
    rw [hcount '}' text, hcount '{' text] at heq
    refine ⟨by omega, fun u hu hne => ?_⟩
    have hcons := hle (c :: u) (List.cons_prefix_cons.2 ⟨rfl, hu⟩) (by simpa using hne)
    rw [hcount '}' u, hcount '{' u] at hcons
    omega
  · rintro ⟨heq, hle⟩
    refine ⟨by rw [hcount '}' text, hcount '{' text]; omega, fun u hu hne => ?_⟩
    obtain rfl | ⟨v, rfl, hv⟩ := List.prefix_cons_iff.1 hu
    · simp
    · have htail := hle v hv (by simpa using hne)
      rw [hcount '}' v, hcount '{' v]
      omega

theorem closes_zero_cons_iff {text : List Char} : Closes 0 ('}' :: text) ↔ text = [] := by
  constructor
  · rintro ⟨-, hle⟩
    by_contra hne
    have hfirst := hle ['}'] (List.prefix_append ['}'] text) (by simpa using Ne.symm hne)
    simp at hfirst
  · rintro rfl
    refine ⟨by simp, fun u hu hne => ?_⟩
    obtain rfl | ⟨v, rfl, hv⟩ := List.prefix_cons_iff.1 hu
    · simp
    · rw [List.prefix_nil] at hv
      simp [hv] at hne

/-- A text that closes braces has a first character. -/
theorem append_and_closes_iff {depth : Nat} {c : Char} {rest inner after : List Char} :
    c :: rest = inner ++ after ∧ Closes depth inner ↔
      ∃ tail, inner = c :: tail ∧ rest = tail ++ after ∧ Closes depth (c :: tail) := by
  constructor
  · rintro ⟨htext, hcloses⟩
    cases inner with
    | nil => simpa using hcloses.count_eq
    | cons d tail =>
      obtain ⟨rfl, hrest⟩ := List.cons.inj htext
      exact ⟨tail, rfl, hrest, hcloses⟩
  · rintro ⟨tail, rfl, rfl, hcloses⟩
    exact ⟨rfl, hcloses⟩

end Text

namespace Blocks

/-- The braces are closed where the reader says. -/
theorem closeBraces_eq_some_iff {depth : Nat} {text inner after : List Char} :
    closeBraces depth text = some (inner, after) ↔ text = inner ++ after ∧ Closes depth inner := by
  have hmap : ∀ (c : Char) (cut : Option (List Char × List Char)) (inner : List Char),
      (cut.map fun x => (c :: x.1, x.2)) = some (inner, after) ↔
        ∃ tail, inner = c :: tail ∧ cut = some (tail, after) := by
    intro c cut inner
    cases cut <;> simp [Prod.ext_iff, eq_comm]
  -- Each character changes the number of open braces, and the count for the rest starts there.
  fun_induction closeBraces depth text generalizing inner with
  | case1 =>
    simp only [reduceCtorEq, false_iff, not_and]
    intro htext hcloses
    obtain ⟨rfl, -⟩ := List.append_eq_nil_iff.1 htext.symm
    simpa using hcloses.count_eq
  | case2 depth rest ih =>
    have hopen (tail : List Char) : Closes depth ('{' :: tail) ↔ Closes (depth + 1) tail :=
      closes_cons_iff (by simp [Nat.add_comm])
    rw [hmap, append_and_closes_iff]
    simp only [ih, hopen]
  | case3 rest =>
    rw [append_and_closes_iff]
    simp only [closes_zero_cons_iff, Option.some.injEq, Prod.mk.injEq]
    constructor
    · rintro ⟨rfl, rfl⟩
      exact ⟨[], rfl, rfl, rfl⟩
    · rintro ⟨_, rfl, rfl, rfl⟩
      exact ⟨rfl, rfl⟩
  | case4 depth rest ih =>
    have hclose (tail : List Char) : Closes (depth + 1) ('}' :: tail) ↔ Closes depth tail :=
      closes_cons_iff (by simp [Nat.add_comm])
    rw [hmap, append_and_closes_iff]
    simp only [ih, hclose]
  | case5 depth c rest hopen hzero hclose ih =>
    have hbrace : c ≠ '}' := by
      rintro rfl
      cases depth with
      | zero => exact hzero rfl rfl
      | succ depth => exact hclose depth rfl rfl
    have hopening : c ≠ '{' := hopen
    have hother (tail : List Char) : Closes depth (c :: tail) ↔ Closes depth tail :=
      closes_cons_iff (by simp [hopening, hbrace])
    rw [hmap, append_and_closes_iff]
    simp only [ih, hother]

/-! ## Section 3: Blocks -/

/-- A text without its first literal block, which leaves its line ends. -/
inductive LiteralCut : List Char → List Char → List Char → Prop
  | none {text : List Char} : ¬ ['%', '{'] <:+: text → LiteralCut text [] text
  | some {text before rest block after : List Char} :
      FirstMark ['%', '{'] text before rest → FirstMark ['%', '}'] rest block after →
      LiteralCut text block (before ++ lineEnds block ++ after)

/-- A text without its first union, which leaves its line ends. The union runs from its
    keyword to the brace that closes the first one after it; its own text begins with
    that brace. -/
inductive UnionCut : List Char → Option (List Char) → List Char → Prop
  | none {text : List Char} : ¬ "%union".toList <:+: text → UnionCut text .none text
  | some {text before rest gap inner after : List Char} :
      FirstMark "%union".toList text before rest → FirstMark ['{'] rest gap (inner ++ after) →
      Closes 0 inner →
      UnionCut text (.some ('{' :: inner)) (before ++ lineEnds (gap ++ inner) ++ after)

/-- What is cut out of a section: the literal block, then the union, then the comments. -/
def Cuts (text : List Char) (b : Blocks) : Prop :=
  ∃ first second, LiteralCut text b.literalBlock first ∧ UnionCut first b.union second ∧
    Uncommented second b.directives

theorem takeLiteralBlock_eq_ok_iff {text block rest : List Char} :
    takeLiteralBlock text = .ok (block, rest) ↔ LiteralCut text block rest := by
  constructor
  · intro h
    unfold takeLiteralBlock at h
    split at h
    · rename_i hopen
      obtain ⟨rfl, rfl⟩ := Prod.mk.inj (Except.ok.inj h)
      exact .none ((cutAt_eq_none_iff (by simp)).1 hopen)
    · rename_i before tail hopen
      split at h
      · simp at h
      · rename_i inner after hclose
        obtain ⟨rfl, rfl⟩ := Prod.mk.inj (Except.ok.inj h)
        exact .some ((cutAt_eq_some_iff (by simp)).1 hopen) ((cutAt_eq_some_iff (by simp)).1 hclose)
  · intro h
    unfold takeLiteralBlock
    cases h with
    | none hnone => rw [(cutAt_eq_none_iff (by simp)).2 hnone]
    | some hopen hclose =>
      simp only [(cutAt_eq_some_iff (by simp)).2 hopen, (cutAt_eq_some_iff (by simp)).2 hclose]

theorem takeUnion_eq_ok_iff {text rest : List Char} {union : Option (List Char)} :
    takeUnion text = .ok (union, rest) ↔ UnionCut text union rest := by
  constructor
  · intro h
    unfold takeUnion at h
    split at h
    · rename_i hkeyword
      obtain ⟨rfl, rfl⟩ := Prod.mk.inj (Except.ok.inj h)
      exact .none ((cutAt_eq_none_iff (by simp)).1 hkeyword)
    · rename_i before tail hkeyword
      split at h
      · simp at h
      · rename_i gap body hopen
        split at h
        · simp at h
        · rename_i inner after hclose
          obtain ⟨rfl, rfl⟩ := Prod.mk.inj (Except.ok.inj h)
          obtain ⟨rfl, hcloses⟩ := closeBraces_eq_some_iff.1 hclose
          exact .some ((cutAt_eq_some_iff (by simp)).1 hkeyword)
            ((cutAt_eq_some_iff (by simp)).1 hopen) hcloses
  · intro h
    unfold takeUnion
    cases h with
    | none hnone => rw [(cutAt_eq_none_iff (by simp)).2 hnone]
    | some hkeyword hopen hcloses =>
      simp only [(cutAt_eq_some_iff (by simp)).2 hkeyword, (cutAt_eq_some_iff (by simp)).2 hopen,
        closeBraces_eq_some_iff.2 ⟨rfl, hcloses⟩]

/-- **What is cut out**: the reader succeeds with exactly the cuts of the section. -/
theorem ofText_eq_ok_iff {text : List Char} {b : Blocks} : ofText text = .ok b ↔ Cuts text b := by
  constructor
  · intro h
    obtain ⟨⟨block, first⟩, hliteral, h⟩ := bind_eq_ok_iff.1 h
    obtain ⟨⟨union, second⟩, hunion, h⟩ := bind_eq_ok_iff.1 h
    simp only at h
    split at h
    · simp at h
    · rename_i directives hcomments
      obtain rfl := Except.ok.inj h
      exact ⟨first, second, takeLiteralBlock_eq_ok_iff.1 hliteral, takeUnion_eq_ok_iff.1 hunion,
        stripComments_eq_some_iff.1 hcomments⟩
  · rintro ⟨first, second, hliteral, hunion, hcomments⟩
    apply bind_eq_ok_iff.2
    refine ⟨_, takeLiteralBlock_eq_ok_iff.2 hliteral, bind_eq_ok_iff.2 ?_⟩
    refine ⟨_, takeUnion_eq_ok_iff.2 hunion, ?_⟩
    simp only [stripComments_eq_some_iff.2 hcomments]

end Blocks

end SlrCompiler
