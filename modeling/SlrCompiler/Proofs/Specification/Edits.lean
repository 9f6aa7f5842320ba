import SlrCompiler.Proofs.Specification.BlockCuts

/-! # What survives when text is cut out

    A text that is cut down is followed character by character: each stays, goes, or
    is put in (`Text.Edit`). The literal block, the union and the comments of a
    section go but for their line ends, and a blank is put in for each comment
    (`Blocks.LiteralEdits`, `Blocks.UnionEdits`, `Text.CommentEdits`).

    None of these edits takes a line end out or puts one in (`Edit.KeepsLines`), and
    neither do edits that follow on others (`Followed.keepsLines`). So, wherever the
    edits are stopped, as many lines have been left as there were
    (`KeepsLines.lineCount_eq`).
-/

namespace SlrCompiler

open Text

/-! ## Section 1: Edits -/

namespace Text

/-- What becomes of a character: it stays, it goes, or it is put in. -/
inductive Edit where
  | keep (c : Char)
  | drop (c : Char)
  | add (c : Char)
  deriving DecidableEq

namespace Edit

/-- The character as it stood in the text. -/
@[simp] def source? : Edit → Option Char
  | keep c => some c
  | drop c => some c
  | add _ => none

/-- The character as it stands in what is left. -/
@[simp] def result? : Edit → Option Char
  | keep c => some c
  | drop _ => none
  | add c => some c

/-- The text that is edited. -/
def source (edits : List Edit) : List Char := edits.filterMap source?

/-- What is left of it. -/
def result (edits : List Edit) : List Char := edits.filterMap result?

/-- No line end goes, and none is put in. -/
def KeepsLines (edits : List Edit) : Prop := drop '\n' ∉ edits ∧ add '\n' ∉ edits

/-- All of the text stays. -/
def keepAll (text : List Char) : List Edit := text.map keep

/-- Of the text only the line ends stay. -/
def keepLineEnds (text : List Char) : List Edit :=
  text.map fun c => if c = '\n' then keep c else drop c

/-- What becomes of a text by the first edits, and then of what they leave by the second. What
    stays at first may stay or go after that, and so may what is put in at first. -/
inductive Followed : List Edit → List Edit → List Edit → Prop
  | nil : Followed [] [] []
  | drop (c : Char) {us vs both : List Edit} : Followed us vs both →
      Followed (drop c :: us) vs (drop c :: both)
  | add (c : Char) {us vs both : List Edit} : Followed us vs both →
      Followed us (add c :: vs) (add c :: both)
  | keep (c : Char) {us vs both : List Edit} : Followed us vs both →
      Followed (keep c :: us) (keep c :: vs) (keep c :: both)
  | dropKept (c : Char) {us vs both : List Edit} : Followed us vs both →
      Followed (keep c :: us) (drop c :: vs) (drop c :: both)
  | keepAdded (c : Char) {us vs both : List Edit} : Followed us vs both →
      Followed (add c :: us) (keep c :: vs) (add c :: both)
  | dropAdded (c : Char) {us vs both : List Edit} : Followed us vs both →
      Followed (add c :: us) (drop c :: vs) both

variable {edits us vs both : List Edit} {text : List Char}

@[simp] theorem source_nil : source [] = [] := rfl

@[simp] theorem result_nil : result [] = [] := rfl

@[simp] theorem source_keep (c : Char) (edits : List Edit) :
    source (keep c :: edits) = c :: source edits := rfl

@[simp] theorem result_keep (c : Char) (edits : List Edit) :
    result (keep c :: edits) = c :: result edits := rfl

@[simp] theorem source_drop (c : Char) (edits : List Edit) :
    source (drop c :: edits) = c :: source edits := rfl

@[simp] theorem result_drop (c : Char) (edits : List Edit) :
    result (drop c :: edits) = result edits := rfl

@[simp] theorem source_add (c : Char) (edits : List Edit) :
    source (add c :: edits) = source edits := rfl

@[simp] theorem result_add (c : Char) (edits : List Edit) :
    result (add c :: edits) = c :: result edits := rfl

@[simp] theorem source_append (us vs : List Edit) : source (us ++ vs) = source us ++ source vs :=
  List.filterMap_append

@[simp] theorem result_append (us vs : List Edit) : result (us ++ vs) = result us ++ result vs :=
  List.filterMap_append

@[simp] theorem source_keepAll (text : List Char) : source (keepAll text) = text := by
  simp [source, keepAll, List.filterMap_map, Function.comp_def]

@[simp] theorem result_keepAll (text : List Char) : result (keepAll text) = text := by
  simp [result, keepAll, List.filterMap_map, Function.comp_def]

@[simp] theorem source_keepLineEnds (text : List Char) : source (keepLineEnds text) = text := by
  induction text with
  | nil => rfl
  | cons c text ih =>
    rw [keepLineEnds, List.map_cons, ← keepLineEnds]
    split <;> simp [ih]

@[simp] theorem result_keepLineEnds (text : List Char) :
    result (keepLineEnds text) = lineEnds text := by
  induction text with
  | nil => rfl
  | cons c text ih =>
    rw [keepLineEnds, List.map_cons, ← keepLineEnds, lineEnds]
    split <;> simp [*, lineEnds]

/-! ## Section 2: Line ends -/

theorem keepsLines_append_iff : KeepsLines (us ++ vs) ↔ KeepsLines us ∧ KeepsLines vs := by
  simp only [KeepsLines, List.mem_append, not_or]
  tauto

theorem keepsLines_keepAll (text : List Char) : KeepsLines (keepAll text) := by
  simp [KeepsLines, keepAll]

theorem keepsLines_keepLineEnds (text : List Char) : KeepsLines (keepLineEnds text) := by
  have hline : ∀ e ∈ keepLineEnds text, e ≠ drop '\n' ∧ e ≠ add '\n' := by
    intro e he
    obtain ⟨c, -, rfl⟩ := List.mem_map.1 he
    by_cases hc : c = '\n' <;> simp [hc]
  exact ⟨fun h => (hline _ h).1 rfl, fun h => (hline _ h).2 rfl⟩

theorem keepsLines_cons_iff {e : Edit} :
    KeepsLines (e :: edits) ↔ e ≠ drop '\n' ∧ e ≠ add '\n' ∧ KeepsLines edits := by
  simp only [KeepsLines, List.mem_cons, not_or, ne_eq, @eq_comm _ e]
  tauto

/-- **Line numbers**: there are as many line ends before an edit as there are after it. -/
theorem KeepsLines.lineCount_eq (h : KeepsLines edits) :
    lineCount (result edits) = lineCount (source edits) := by
  induction edits with
  | nil => rfl
  | cons e edits ih =>
    obtain ⟨hdrop, hadd, hrest⟩ := keepsLines_cons_iff.1 h
    have heq : List.count '\n' (result edits) = List.count '\n' (source edits) := ih hrest
    cases e with
    | keep c => simp [lineCount, List.count_cons, heq]
    | drop c =>
      have hc : c ≠ '\n' := fun hc => hdrop (hc ▸ rfl)
      simp [lineCount, heq, hc]
    | add c =>
      have hc : c ≠ '\n' := fun hc => hadd (hc ▸ rfl)
      simp [lineCount, heq, hc]

/-! ## Section 3: Edits that follow on others -/

/-- Edits lead from the text of the first to what the second leave. -/
theorem Followed.source_and_result (h : Followed us vs both) :
    source both = source us ∧ result both = result vs := by
  induction h <;> simp_all

/-- Where neither the one nor the other take out or put in line ends, they do not together. -/
theorem Followed.keepsLines (h : Followed us vs both) (hus : KeepsLines us)
    (hvs : KeepsLines vs) : KeepsLines both := by
  induction h <;> simp_all [keepsLines_cons_iff]

/-- Edits can be followed by others of what they leave. -/
theorem exists_followed (h : result us = source vs) : ∃ both, Followed us vs both := by
  induction us generalizing vs with
  | nil =>
    -- all of the second edits put something in
    induction vs with
    | nil => exact ⟨[], .nil⟩
    | cons e vs ih =>
      cases e with
      | add c =>
        obtain ⟨both, hboth⟩ := ih h
        exact ⟨_, .add c hboth⟩
      | keep c | drop c => simp at h
  | cons e us ihus =>
    cases e with
    | drop c =>
      obtain ⟨both, hboth⟩ := ihus h
      exact ⟨_, .drop c hboth⟩
    | keep c | add c =>
      -- what is put in by the second edits comes before what becomes of the character
      induction vs with
      | nil => simp at h
      | cons e vs ihvs =>
        cases e with
        | add d =>
          obtain ⟨both, hboth⟩ := ihvs h
          exact ⟨_, .add d hboth⟩
        | keep d | drop d =>
          obtain ⟨rfl, hrest⟩ : c = d ∧ result us = source vs := by simpa using h
          obtain ⟨both, hboth⟩ := ihus hrest
          exact ⟨_, by constructor; exact hboth⟩

/-! ## Section 4: Places -/

/-- Every place of what is left is met on the way through the edits. -/
theorem exists_of_result_eq_append {u v : List Char} (h : result edits = u ++ v) :
    ∃ us vs, edits = us ++ vs ∧ result us = u ∧ result vs = v :=
  List.filterMap_eq_append_iff.1 h

/-- Every character that is left has stayed or was put in. -/
theorem exists_of_result_eq_cons {u v : List Char} {c : Char} (h : result edits = u ++ c :: v) :
    ∃ us vs, (edits = us ++ keep c :: vs ∨ edits = us ++ add c :: vs) ∧ result us = u := by
  obtain ⟨us, rest, rfl, hus, hrest⟩ := exists_of_result_eq_append h
  obtain ⟨ws, e, vs, rfl, hnone, he, -⟩ := List.filterMap_eq_cons_iff.1 hrest
  have hws : result ws = [] := List.filterMap_eq_nil_iff.2 hnone
  refine ⟨us ++ ws, vs, ?_, by simp [hus, hws]⟩
  cases e with
  | keep d | add d =>
    obtain rfl := Option.some.inj he
    simp
  | drop d => simp at he

end Edit

/-! ## Section 5: Comments -/

open Edit

/-- The comments go but for their line ends, one after the other, and a blank is put in for
    each. -/
inductive CommentEdits : List Char → List Edit → Prop
  | plain {text : List Char} : ¬ HasCommentMark text → CommentEdits text (keepAll text)
  | comment {text before rest body after : List Char} {edits : List Edit} :
      FirstMark ['/', '*'] text before rest → FirstMark ['*', '/'] rest body after →
      CommentEdits after edits →
      CommentEdits text
        (keepAll before ++ .add ' ' :: (keepLineEnds (['/', '*'] ++ body ++ ['*', '/']) ++ edits))

theorem Uncommented.exists_edits {text out : List Char} (h : Uncommented text out) :
    ∃ edits, CommentEdits text edits ∧ result edits = out := by
  induction h with
  | plain hnone => exact ⟨_, .plain hnone, result_keepAll _⟩
  | comment hopened hclosed _ ih =>
    obtain ⟨edits, hedits, rfl⟩ := ih
    exact ⟨_, .comment hopened hclosed hedits, by simp [lineEnds]⟩

namespace CommentEdits

variable {text : List Char} {edits : List Edit} (h : CommentEdits text edits)
include h

theorem source_eq : source edits = text := by
  induction h with
  | plain => exact source_keepAll _
  | comment hopened hclosed _ ih => simp [hopened.text_eq, hclosed.text_eq, ih]

theorem keepsLines : KeepsLines edits := by
  induction h with
  | plain => exact keepsLines_keepAll _
  | comment _ _ _ ih =>
    rw [keepsLines_append_iff, keepsLines_cons_iff, keepsLines_append_iff]
    exact ⟨keepsLines_keepAll _, by simp, by simp, keepsLines_keepLineEnds _, ih⟩

/-- Only blanks are put in. -/
theorem eq_of_mem_add {c : Char} (hc : .add c ∈ edits) : c = ' ' := by
  induction h with
  | plain => simp [keepAll] at hc
  | comment _ _ _ ih =>
    have hkept : ∀ u, .add c ∉ keepAll u := by simp [keepAll]
    have hcut : ∀ u, .add c ∉ keepLineEnds u := by
      intro u hmem
      obtain ⟨d, -, hd⟩ := List.mem_map.1 hmem
      split at hd <;> simp at hd
    simp only [List.mem_append, List.mem_cons, hkept, hcut, false_or] at hc
    rcases hc with hblank | hlater
    · exact Edit.add.inj hblank
    · exact ih hlater

end CommentEdits

end Text

/-! ## Section 6: Blocks -/

namespace Blocks

open Edit

/-- The first literal block goes but for its line ends. -/
inductive LiteralEdits : List Char → List Edit → Prop
  | none {text : List Char} : ¬ ['%', '{'] <:+: text → LiteralEdits text (keepAll text)
  | some {text before rest block after : List Char} :
      FirstMark ['%', '{'] text before rest → FirstMark ['%', '}'] rest block after →
      LiteralEdits text
        (keepAll before ++ keepLineEnds (['%', '{'] ++ block ++ ['%', '}']) ++ keepAll after)

/-- The first union goes but for its line ends, from its keyword to the brace that closes it. -/
inductive UnionEdits : List Char → List Edit → Prop
  | none {text : List Char} : ¬ "%union".toList <:+: text → UnionEdits text (keepAll text)
  | some {text before rest gap inner after : List Char} :
      FirstMark "%union".toList text before rest → FirstMark ['{'] rest gap (inner ++ after) →
      Closes 0 inner →
      UnionEdits text
        (keepAll before ++ keepLineEnds ("%union".toList ++ (gap ++ '{' :: inner)) ++ keepAll after)

/-- What becomes of a section: the literal block goes, then the union, then the comments. -/
def Edits (text : List Char) (edits : List Edit) : Prop :=
  ∃ literal union comments blocks, LiteralEdits text literal ∧ UnionEdits (result literal) union ∧
    CommentEdits (result union) comments ∧ Followed literal union blocks ∧
    Followed blocks comments edits

variable {text first : List Char} {edits : List Edit}

theorem LiteralCut.exists_edits {block : List Char} (h : LiteralCut text block first) :
    ∃ edits, LiteralEdits text edits ∧ result edits = first := by
  cases h with
  | none hnone => exact ⟨_, .none hnone, result_keepAll _⟩
  | some hopened hclosed => exact ⟨_, .some hopened hclosed, by simp [lineEnds]⟩

theorem UnionCut.exists_edits {union : Option (List Char)} (h : UnionCut text union first) :
    ∃ edits, UnionEdits text edits ∧ result edits = first := by
  cases h with
  | none hnone => exact ⟨_, .none hnone, result_keepAll _⟩
  | some hkeyword hopened hcloses =>
    have hword : lineEnds "%union".toList = [] := by decide
    refine ⟨_, .some hkeyword hopened hcloses, ?_⟩
    rw [lineEnds] at hword
    simp only [result_append, result_keepAll, result_keepLineEnds, lineEnds, List.filter_append,
      hword]
    simp

theorem keepsLines_cut (before block after : List Char) :
    KeepsLines (keepAll before ++ keepLineEnds block ++ keepAll after) := by
  simp [keepsLines_append_iff, keepsLines_keepAll, keepsLines_keepLineEnds]

theorem LiteralEdits.source_and_lines (h : LiteralEdits text edits) :
    source edits = text ∧ KeepsLines edits := by
  cases h with
  | none => exact ⟨source_keepAll _, keepsLines_keepAll _⟩
  | some hopened hclosed =>
    exact ⟨by simp [hopened.text_eq, hclosed.text_eq], keepsLines_cut _ _ _⟩

theorem UnionEdits.source_and_lines (h : UnionEdits text edits) :
    source edits = text ∧ KeepsLines edits := by
  cases h with
  | none => exact ⟨source_keepAll _, keepsLines_keepAll _⟩
  | some hkeyword hopened _ =>
    exact ⟨by simp [hkeyword.text_eq, hopened.text_eq], keepsLines_cut _ _ _⟩

/-- **Cutting a section**: what becomes of it keeps its lines. -/
theorem Edits.source_and_lines (h : Edits text edits) :
    source edits = text ∧ KeepsLines edits := by
  obtain ⟨literal, union, comments, blocks, hliteral, hunion, hcomments, hblocks, hedits⟩ := h
  obtain ⟨hfirst, hfirstLines⟩ := hliteral.source_and_lines
  have hblocksLines := hblocks.keepsLines hfirstLines hunion.source_and_lines.2
  refine ⟨?_, hedits.keepsLines hblocksLines hcomments.keepsLines⟩
  rw [hedits.source_and_result.1, hblocks.source_and_result.1, hfirst]

/-- The directives are what is left of their section. -/
theorem exists_edits_of_ofText {b : Blocks} (h : ofText text = .ok b) :
    ∃ edits, Edits text edits ∧ result edits = b.directives := by
  obtain ⟨first, second, hliteralCut, hunionCut, huncommented⟩ := ofText_eq_ok_iff.1 h
  obtain ⟨literal, hliteral, rfl⟩ := hliteralCut.exists_edits
  obtain ⟨union, hunion, rfl⟩ := hunionCut.exists_edits
  obtain ⟨comments, hcomments, hresult⟩ := huncommented.exists_edits
  obtain ⟨blocks, hblocks⟩ := exists_followed hunion.source_and_lines.1.symm
  have hleft : result blocks = source comments := by
    rw [hblocks.source_and_result.2, hcomments.source_eq]
  obtain ⟨edits, hedits⟩ := exists_followed hleft
  refine ⟨edits, ⟨_, _, _, _, hliteral, hunion, hcomments, hblocks, hedits⟩, ?_⟩
  rw [hedits.source_and_result.2, hresult]

end Blocks

end SlrCompiler
