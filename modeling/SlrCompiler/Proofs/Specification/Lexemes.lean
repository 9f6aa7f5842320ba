import SlrCompiler.Proofs.Specification.ActionBlocks
import SlrCompiler.Specification.Rule

/-! # How lexemes are written

    The texts of the lexemes, and the texts that a sequence of lexemes spells.
    A name, and the word of a `%prec` clause, ends where its run of name
    characters ends (`RunEnds`); that is all that a lexeme asks of the text behind
    it.

    Each reader of a lexeme has one lemma that says what it finds and when
    (`finds_readLiteral_iff` and its like). They give what is found next
    (`exists_written_of_finds_next`, `finds_next_of_written`), and by induction on
    the text, what a whole text is cut into (`spelled_iff_scan`).
-/

namespace SlrCompiler

open Text

/-! ## Section 1: Runs of name characters -/

namespace Text

theorem isIdentifier_iff {text : List Char} :
    isIdentifier text = true ↔ text ≠ [] ∧ ∀ c ∈ text, isIdentifierChar c = true := by
  simp [isIdentifier]

/-- No blank is a character of a name. -/
theorem isIdentifierChar_eq_false_of_isBlank {c : Char} (h : isBlank c = true) :
    isIdentifierChar c = false := by
  have htable : ∀ r ∈ blankRanges, ∀ n ∈ List.range' r.1 (r.2 + 1 - r.1),
      inRanges n alphanumericRanges = false ∧ n ≠ '_'.toNat := by
    decide +kernel
  obtain ⟨r, hr, hlow, hhigh⟩ := (inRanges_iff ascending_blankRanges).1 h
  obtain ⟨hnot, hne⟩ := htable r hr c.toNat (List.mem_range'_1.2 ⟨hlow, by omega⟩)
  have hc : (c == '_') = false := by
    rw [beq_eq_false_iff_ne]
    exact fun heq => hne (heq ▸ rfl)
  simp [isIdentifierChar, hnot, hc]

/-- No character of a name is a blank. -/
theorem isBlank_eq_false_of_isIdentifierChar {c : Char} (h : isIdentifierChar c = true) :
    isBlank c = false := by
  by_contra hblank
  simp [isIdentifierChar_eq_false_of_isBlank (by simpa using hblank)] at h

/-- No character of a name is a mark. -/
theorem ne_of_isIdentifierChar {c : Char} (h : isIdentifierChar c = true) :
    c ∉ [':', '|', ';', '\'', '{', '}', '%'] := by
  have hmarks : [':', '|', ';', '\'', '{', '}', '%'].all (!isIdentifierChar ·) = true := by
    decide +kernel
  intro hc
  have hc := List.all_eq_true.1 hmarks c hc
  simp [h] at hc

/-- A run is taken as a whole, if what stands behind it does not belong to it. -/
theorem takeWhile_append_eq {p : Char → Bool} {u v : List Char} (hu : ∀ c ∈ u, p c = true)
    (hv : ∀ d, v.head? = some d → p d = false) : (u ++ v).takeWhile p = u := by
  rw [List.takeWhile_append_of_pos hu]
  cases v with
  | nil => simp
  | cons d v => simp [hv d rfl]

theorem dropWhile_append_eq {p : Char → Bool} {u v : List Char} (hu : ∀ c ∈ u, p c = true)
    (hv : ∀ d, v.head? = some d → p d = false) : (u ++ v).dropWhile p = v := by
  rw [List.dropWhile_append_of_pos hu]
  cases v with
  | nil => simp
  | cons d v => simp [hv d rfl]

/-- The end of a text is not within a run of name characters that goes on in what
    stands behind it. -/
def RunEnds (text rest : List Char) : Prop :=
  ∀ c d, text.getLast? = some c → rest.head? = some d → isIdentifierChar c = true →
    isIdentifierChar d = false

theorem RunEnds.of_head {text rest : List Char}
    (h : ∀ d, rest.head? = some d → isIdentifierChar d = false) : RunEnds text rest :=
  fun _ d _ hd _ => h d hd

theorem RunEnds.of_getLast {c : Char} (hc : isIdentifierChar c = false) (text rest : List Char) :
    RunEnds (text ++ [c]) rest := by
  intro d e hd _ hid
  obtain rfl : c = d := by simpa using hd
  simp [hc] at hid

theorem RunEnds.head {text rest : List Char} (h : RunEnds text rest)
    (htext : isIdentifier text = true) : ∀ d, rest.head? = some d → isIdentifierChar d = false := by
  intro d hd
  obtain ⟨hne, hall⟩ := isIdentifier_iff.1 htext
  exact h _ d (List.getLast?_eq_some_getLast hne) hd (hall _ (List.getLast_mem hne))

theorem runEnds_append_iff (pre : List Char) {text rest : List Char} (hne : text ≠ []) :
    RunEnds (pre ++ text) rest ↔ RunEnds text rest := by
  have hlast : (pre ++ text).getLast? = text.getLast? := by
    rw [List.getLast?_append, List.getLast?_eq_some_getLast hne, Option.some_or]
  rw [RunEnds, RunEnds, hlast]

theorem Quoted.exists_append {quote : Char} {text : List Char} (h : Quoted quote text) :
    ∃ pre, text = pre ++ [quote] := by
  induction h with
  | closing => exact ⟨[], rfl⟩
  | escape c _ ih =>
    obtain ⟨pre, rfl⟩ := ih
    exact ⟨'\\' :: c :: pre, rfl⟩
  | @plain c _ _ _ _ ih =>
    obtain ⟨pre, rfl⟩ := ih
    exact ⟨c :: pre, rfl⟩

theorem Quoted.runEnds {text : List Char} (h : Quoted '\'' text) (pre rest : List Char) :
    RunEnds (pre ++ text) rest := by
  obtain ⟨init, rfl⟩ := h.exists_append
  rw [← List.append_assoc]
  exact .of_getLast (by decide +kernel) _ _

end Text

/-! ## Section 2: One lexeme -/

/-- A symbol as a lexeme. -/
def RuleSymbol.toLexeme : RuleSymbol → Lexeme
  | .literal text => .literal text
  | .name text => .name text

/-- The texts of the symbols. -/
inductive RuleSymbol.Written : RuleSymbol → List Char → Prop
  | name {text : List Char} : isIdentifier text = true → Written (.name (String.ofList text)) text
  | literal {text : List Char} : Quoted '\'' text →
      Written (.literal (String.ofList ('\'' :: text))) ('\'' :: text)

theorem RuleSymbol.Written.exists_cons {s : RuleSymbol} {text : List Char} (h : s.Written text) :
    ∃ c tail, text = c :: tail ∧ isBlank c = false := by
  cases h with
  | name hname =>
    obtain ⟨hne, hall⟩ := isIdentifier_iff.1 hname
    obtain ⟨c, tail, rfl⟩ := List.exists_cons_of_ne_nil hne
    exact ⟨c, tail, rfl, isBlank_eq_false_of_isIdentifierChar (hall c List.mem_cons_self)⟩
  | literal _ => exact ⟨_, _, rfl, by decide⟩

theorem RuleSymbol.Written.ne_nil {s : RuleSymbol} {text : List Char} (h : s.Written text) :
    text ≠ [] := by
  obtain ⟨c, tail, rfl, -⟩ := h.exists_cons
  exact List.cons_ne_nil c tail

namespace Lexeme

/-- The texts of the lexemes. Blanks may stand between the word of a `%prec` clause and
    its argument. -/
inductive Written : Lexeme → List Char → Prop
  | colon : Written .colon [':']
  | bar : Written .bar ['|']
  | semicolon : Written .semicolon [';']
  | symbol {s : RuleSymbol} {text : List Char} : s.Written text → Written s.toLexeme text
  | action {body : List Char} : BraceBalanced body →
      Written (.action (String.ofList ('{' :: (body ++ ['}'])))) ('{' :: (body ++ ['}']))
  | prec {s : RuleSymbol} {gap text : List Char} : (∀ c ∈ gap, isBlank c = true) →
      s.Written text → RunEnds "%prec".toList (gap ++ text) →
      Written (.prec s.text) ("%prec".toList ++ (gap ++ text))

theorem Written.exists_cons {lexeme : Lexeme} {text : List Char} (h : Written lexeme text) :
    ∃ c tail, text = c :: tail ∧ isBlank c = false := by
  cases h with
  | symbol hs => exact hs.exists_cons
  | colon | bar | semicolon | action | prec => exact ⟨_, _, rfl, by decide⟩

/-- What is found next, but for its line. -/
def Next.Finds (n : Next) (lexeme : Lexeme) (rest : List Char) : Prop :=
  ∃ line, n = .found ⟨lexeme, line⟩ rest

variable {line : Nat} {text rest : List Char} {lexeme : Lexeme}

@[simp] theorem not_finds_fault {e : GrammarError} : ¬ (Next.fault e).Finds lexeme rest := by
  simp [Next.Finds]

@[simp] theorem finds_found_iff {placed : PlacedLexeme} {after : List Char} :
    (Next.found placed after).Finds lexeme rest ↔ placed.lexeme = lexeme ∧ after = rest := by
  cases placed
  simp [Next.Finds]

theorem finds_readLiteral_iff {wrap : String → Lexeme} :
    (readLiteral wrap line text).Finds lexeme rest ↔
      ∃ quoted, Quoted '\'' quoted ∧ wrap (String.ofList ('\'' :: quoted)) = lexeme ∧
        text = quoted ++ rest := by
  unfold readLiteral
  constructor
  · intro h
    split at h
    · simp at h
    · rename_i quoted after hclose
      obtain ⟨hlexeme, rfl⟩ := finds_found_iff.1 h
      obtain ⟨hquoted, htext⟩ := (closeQuote_eq_some_iff (by decide)).1 hclose
      exact ⟨quoted, hquoted, hlexeme, htext⟩
  · rintro ⟨quoted, hquoted, rfl, rfl⟩
    rw [closeQuote_of_quoted (by decide) hquoted]
    exact ⟨_, rfl⟩

theorem finds_readName_iff {wrap : String → Lexeme} {c : Char} (hc : isIdentifierChar c = true) :
    (readName wrap line c text).Finds lexeme rest ↔
      ∃ name, isIdentifier name = true ∧ wrap (String.ofList name) = lexeme ∧
        c :: text = name ++ rest ∧ ∀ d, rest.head? = some d → isIdentifierChar d = false := by
  rw [readName, finds_found_iff]
  constructor
  · rintro ⟨hlexeme, rfl⟩
    refine ⟨_, ?_, hlexeme, ?_, fun d => eq_false_of_head?_dropWhile⟩
    · simp [isIdentifier, hc]
    · rw [List.cons_append, List.takeWhile_append_dropWhile]
  · rintro ⟨name, hname, rfl, htext, hends⟩
    obtain ⟨hne, hall⟩ := isIdentifier_iff.1 hname
    obtain ⟨d, name, rfl⟩ := List.exists_cons_of_ne_nil hne
    rw [List.cons_append, List.cons.injEq] at htext
    obtain ⟨rfl, rfl⟩ := htext
    have hrun : ∀ d ∈ name, isIdentifierChar d = true :=
      fun d hd => hall d (List.mem_cons_of_mem c hd)
    rw [takeWhile_append_eq hrun hends, dropWhile_append_eq hrun hends]
    exact ⟨rfl, rfl⟩

theorem finds_readAction_iff : (readAction line text).Finds lexeme rest ↔
    ∃ body, BraceBalanced body ∧ .action (String.ofList ('{' :: (body ++ ['}']))) = lexeme ∧
      text = body ++ ['}'] ++ rest := by
  unfold readAction
  constructor
  · intro h
    split at h
    · simp at h
    · rename_i inner after hclose
      obtain ⟨hlexeme, rfl⟩ := finds_found_iff.1 h
      obtain ⟨body, hbody, rfl, htext⟩ := closeBlock_zero_eq_ok_iff.1 hclose
      exact ⟨body, hbody, hlexeme, htext⟩
  · rintro ⟨body, hbody, rfl, rfl⟩
    rw [closeBlock_zero_eq_ok_iff.2 ⟨body, hbody, rfl, rfl⟩]
    exact ⟨_, rfl⟩

theorem finds_readPrecArgument_iff : (readPrecArgument line text).Finds lexeme rest ↔
    ∃ gap s chars, (∀ c ∈ gap, isBlank c = true) ∧ RuleSymbol.Written s chars ∧
      RunEnds chars rest ∧ .prec s.text = lexeme ∧ text = gap ++ (chars ++ rest) := by
  constructor
  · intro h
    have htext := List.takeWhile_append_dropWhile (p := isBlank) (l := text)
    have hgap : ∀ c ∈ text.takeWhile isBlank, isBlank c = true :=
      fun c => List.mem_takeWhile_imp
    simp only [readPrecArgument] at h
    split at h
    · simp at h
    rename_i c tail hdrop
    rw [hdrop] at htext
    split at h
    · simp at h
    split at h
    · rename_i hc
      obtain ⟨quoted, hquoted, hlexeme, rfl⟩ := finds_readLiteral_iff.1 h
      refine ⟨_, _, _, hgap, .literal hquoted, hquoted.runEnds ['\''] _, hlexeme, ?_⟩
      rw [List.cons_append, ← hc, htext]
    split at h
    · rename_i hc
      obtain ⟨name, hname, hlexeme, htail, hends⟩ := (finds_readName_iff hc).1 h
      exact ⟨_, _, _, hgap, .name hname, .of_head hends, hlexeme, by rw [← htail, htext]⟩
    · simp at h
  · rintro ⟨gap, s, chars, hgap, hs, hends, rfl, rfl⟩
    obtain ⟨c, tail, rfl, hblank⟩ := hs.exists_cons
    have hhead : ∀ d, (c :: tail ++ rest).head? = some d → isBlank d = false := by
      simp [hblank]
    simp only [readPrecArgument, takeWhile_append_eq hgap hhead, dropWhile_append_eq hgap hhead]
    rw [List.cons_append]
    cases hs with
    | literal hquoted =>
      simp only
      rw [if_neg (by decide), if_pos trivial]
      exact finds_readLiteral_iff.2 ⟨tail, hquoted, rfl, rfl⟩
    | name hname =>
      have hc := (isIdentifier_iff.1 hname).2 c List.mem_cons_self
      -- A name begins with no mark, so the cases before that of names do not apply.
      have hmarks := ne_of_isIdentifierChar hc
      simp only
      rw [if_neg (by grind), if_neg (by grind), if_pos hc]
      exact (finds_readName_iff hc).2 ⟨c :: tail, hname, rfl, rfl, hends.head hname⟩

theorem finds_readDirective_iff : (readDirective line text).Finds lexeme rest ↔
    ∃ gap s chars, (∀ c ∈ gap, isBlank c = true) ∧ RuleSymbol.Written s chars ∧
      RunEnds "%prec".toList (gap ++ chars) ∧ RunEnds chars rest ∧ .prec s.text = lexeme ∧
      text = "prec".toList ++ (gap ++ (chars ++ rest)) := by
  have hname : ∀ c ∈ "prec".toList, isIdentifierChar c = true := by
    have hall : "prec".toList.all isIdentifierChar = true := by decide +kernel
    exact fun c => List.all_eq_true.1 hall c
  constructor
  · intro h
    have htext := List.takeWhile_append_dropWhile (p := isIdentifierChar) (l := text)
    simp only [readDirective] at h
    split at h
    · rename_i hprec
      obtain ⟨gap, s, chars, hgap, hs, hends, hlexeme, hdrop⟩ := finds_readPrecArgument_iff.1 h
      refine ⟨gap, s, chars, hgap, hs, .of_head fun d hd => ?_, hends, hlexeme, ?_⟩
      · have hhead : (text.dropWhile isIdentifierChar).head? = some d := by
          rw [hdrop, ← List.append_assoc, List.head?_append, hd, Option.some_or]
        exact eq_false_of_head?_dropWhile hhead
      · rw [← hdrop, ← htext, ← hprec]
        simp
    · simp at h
  · rintro ⟨gap, s, chars, hgap, hs, hword, hends, hlexeme, rfl⟩
    -- The word ends behind `prec`: with a blank, or with an argument that is a literal.
    have hhead : ∀ d, (gap ++ (chars ++ rest)).head? = some d → isIdentifierChar d = false := by
      obtain ⟨c, tail, rfl, -⟩ := hs.exists_cons
      intro d hd
      refine hword 'c' d (by decide) ?_ (by decide +kernel)
      cases gap <;> simpa using hd
    simp only [readDirective, takeWhile_append_eq hname hhead, dropWhile_append_eq hname hhead]
    rw [if_pos (by decide)]
    exact finds_readPrecArgument_iff.2 ⟨gap, s, chars, hgap, hs, hends, hlexeme, rfl⟩

/-- Blanks in front of a text are passed over. -/
theorem next_append {gap : List Char} (hgap : ∀ c ∈ gap, isBlank c = true) (line : Nat)
    (text : List Char) : next line (gap ++ text) = next (line + lineCount gap) text := by
  simp only [next, List.takeWhile_append_of_pos hgap, List.dropWhile_append_of_pos hgap,
    lineCount_append, Nat.add_assoc]

/-- What is found next is a lexeme in its text. -/
theorem exists_written_of_finds_next {c : Char} (hblank : isBlank c = false)
    (h : (next line (c :: text)).Finds lexeme rest) :
    ∃ chars, Written lexeme chars ∧ RunEnds chars rest ∧ c :: text = chars ++ rest := by
  have hnot : ¬ isBlank c = true := by simp [hblank]
  -- A mark ends where it stands, whatever comes behind it.
  have hmark : ∀ {d : Char}, isIdentifierChar d = false → RunEnds [d] rest :=
    fun hd => .of_getLast hd [] rest
  -- The cases are those of the reader, in its order.
  simp only [next, List.takeWhile_cons_of_neg hnot, List.dropWhile_cons_of_neg hnot] at h
  split at h
  · obtain ⟨rfl, rfl⟩ := finds_found_iff.1 h
    exact ⟨[':'], .colon, hmark (by decide +kernel), by simp [*]⟩
  split at h
  · obtain ⟨rfl, rfl⟩ := finds_found_iff.1 h
    exact ⟨['|'], .bar, hmark (by decide +kernel), by simp [*]⟩
  split at h
  · obtain ⟨rfl, rfl⟩ := finds_found_iff.1 h
    exact ⟨[';'], .semicolon, hmark (by decide +kernel), by simp [*]⟩
  split at h
  · obtain ⟨quoted, hquoted, rfl, rfl⟩ := finds_readLiteral_iff.1 h
    exact ⟨_, .symbol (.literal hquoted), hquoted.runEnds ['\''] _, by simp [*]⟩
  split at h
  · obtain ⟨body, hbody, rfl, rfl⟩ := finds_readAction_iff.1 h
    exact ⟨_, .action hbody, .of_getLast (by decide +kernel) ('{' :: body) _, by simp [*]⟩
  split at h
  · simp at h
  split at h
  · obtain ⟨gap, s, chars, hgap, hs, hword, hends, rfl, rfl⟩ := finds_readDirective_iff.1 h
    refine ⟨_, .prec hgap hs hword, ?_, by simp [*]⟩
    rwa [← List.append_assoc, runEnds_append_iff _ hs.ne_nil]
  split at h
  · rename_i hc
    obtain ⟨name, hname, rfl, htext, hends⟩ := (finds_readName_iff hc).1 h
    exact ⟨name, .symbol (.name hname), .of_head hends, htext⟩
  · simp at h

/-- A lexeme in its text is found. -/
theorem finds_next_of_written {chars : List Char} (h : Written lexeme chars)
    (hends : RunEnds chars rest) (line : Nat) : (next line (chars ++ rest)).Finds lexeme rest := by
  obtain ⟨c, tail, rfl, hblank⟩ := h.exists_cons
  have hnot : ¬ isBlank c = true := by simp [hblank]
  rw [List.cons_append]
  simp only [next, List.takeWhile_cons_of_neg hnot, List.dropWhile_cons_of_neg hnot]
  -- The first character decides which of the readers goes on.
  generalize htext : c :: tail = chars at *
  cases h with
  | colon | bar | semicolon => obtain ⟨rfl, rfl⟩ := List.cons.inj htext; simp
  | @symbol s _ hs =>
    cases hs with
    | literal hquoted =>
      obtain ⟨rfl, rfl⟩ := List.cons.inj htext
      simp only [Char.reduceEq, if_true, if_false]
      exact finds_readLiteral_iff.2 ⟨_, hquoted, rfl, rfl⟩
    | name hname =>
      subst htext
      have hc := (isIdentifier_iff.1 hname).2 c List.mem_cons_self
      have hmarks := ne_of_isIdentifierChar hc
      simp only [List.mem_cons, List.not_mem_nil, or_false, not_or] at hmarks
      simp only [hmarks, hc, if_true, if_false]
      exact (finds_readName_iff hc).2 ⟨c :: tail, hname, rfl, rfl, hends.head hname⟩
  | @action body hbody =>
    obtain ⟨rfl, rfl⟩ := List.cons.inj htext
    simp only [Char.reduceEq, if_true, if_false]
    exact finds_readAction_iff.2 ⟨_, hbody, rfl, rfl⟩
  | @prec s gap chars hgap hs hword =>
    have hcons : "%prec".toList = '%' :: "prec".toList := by decide
    rw [hcons] at htext
    obtain ⟨rfl, rfl⟩ := List.cons.inj htext
    simp only [Char.reduceEq, if_true, if_false]
    rw [← List.append_assoc, runEnds_append_iff _ hs.ne_nil] at hends
    exact finds_readDirective_iff.2 ⟨gap, s, chars, hgap, hs, hword, hends, rfl, by simp⟩

/-! ## Section 3: All lexemes -/

/-- The lexemes that are written one after the other, with blanks in between. -/
inductive Spelled : List Lexeme → List Char → Prop
  | nil : Spelled [] []
  | blank {c : Char} {lexemes : List Lexeme} {text : List Char} : isBlank c = true →
      Spelled lexemes text → Spelled lexemes (c :: text)
  | lexeme {lexeme : Lexeme} {lexemes : List Lexeme} {text rest : List Char} :
      Written lexeme text → RunEnds text rest → Spelled lexemes rest →
      Spelled (lexeme :: lexemes) (text ++ rest)

theorem Spelled.append {gap : List Char} (hgap : ∀ c ∈ gap, isBlank c = true)
    {lexemes : List Lexeme} (h : Spelled lexemes text) : Spelled lexemes (gap ++ text) := by
  induction gap with
  | nil => exact h
  | cons c gap ih =>
    exact .blank (hgap c List.mem_cons_self) (ih fun d hd => hgap d (List.mem_cons_of_mem c hd))

theorem readDirective_ne_finished {last : Nat} : readDirective line text ≠ .finished last := by
  simp only [readDirective, readPrecArgument, readLiteral, readName]
  split
  · split
    · simp
    split
    · simp
    split
    · split <;> simp
    split <;> simp
  · simp

/-- Nothing is left to be found where only blanks are left. -/
theorem next_eq_finished_iff (line : Nat) : (∃ last, next line text = .finished last) ↔
    text.dropWhile isBlank = [] := by
  simp only [next, readLiteral, readName, readAction]
  constructor
  · rintro ⟨last, h⟩
    split at h
    · assumption
    · grind [readDirective_ne_finished]
  · intro h
    simp [h]

theorem scan_of_next {placed : PlacedLexeme} (h : next line text = .found placed rest) :
    scan line text =
      ⟨placed :: (scan placed.line rest).lexemes, (scan placed.line rest).ending⟩ := by
  rw [scan]
  split <;> simp_all

theorem scan_nil : scan line [] = ⟨[], .ok line⟩ := by
  have hnext : next line [] = .finished line := rfl
  rw [scan]
  split <;> simp_all

theorem scan_cons {c : Char} (hc : isBlank c = true) (line : Nat) (text : List Char) :
    scan line (c :: text) = scan (line + lineCount [c]) text := by
  have hgap : ∀ d ∈ [c], isBlank d = true := by simpa using hc
  have hnext := next_append hgap line text
  rw [List.singleton_append] at hnext
  rw [scan, scan]
  split <;> split <;> simp_all

/-- A lexeme that is found stands behind blanks, in its text. -/
theorem exists_written_of_next {placed : PlacedLexeme} (h : next line text = .found placed rest) :
    ∃ gap chars, (∀ c ∈ gap, isBlank c = true) ∧ Written placed.lexeme chars ∧
      RunEnds chars rest ∧ text = gap ++ (chars ++ rest) := by
  have htext := List.takeWhile_append_dropWhile (p := isBlank) (l := text)
  have hgap : ∀ c ∈ text.takeWhile isBlank, isBlank c = true :=
    fun c => List.mem_takeWhile_imp
  cases hdrop : text.dropWhile isBlank with
  | nil =>
    obtain ⟨last, hfinished⟩ := (next_eq_finished_iff line).2 hdrop
    simp [hfinished] at h
  | cons c body =>
    have hhead : (text.dropWhile isBlank).head? = some c := by rw [hdrop, List.head?_cons]
    have hc := eq_false_of_head?_dropWhile hhead
    rw [← htext, next_append hgap, hdrop] at h
    obtain ⟨chars, hwritten, hends, hbody⟩ := exists_written_of_finds_next hc ⟨_, h⟩
    exact ⟨_, chars, hgap, hwritten, hends, by rw [← hbody, ← hdrop, htext]⟩

/-- What a text is cut into is what it spells. -/
theorem spelled_of_scan {last : Nat} (h : (scan line text).ending = .ok last) :
    Spelled ((scan line text).lexemes.map PlacedLexeme.lexeme) text := by
  fun_induction scan line text with
  | case1 line text after hnext =>
    have hblank := List.dropWhile_eq_nil_iff.1 ((next_eq_finished_iff line).1 ⟨after, hnext⟩)
    simpa using Spelled.append hblank .nil
  | case2 => simp at h
  | case3 line text placed rest hnext tail ih =>
    obtain ⟨gap, chars, hgap, hwritten, hends, rfl⟩ := exists_written_of_next hnext
    exact .append hgap (.lexeme hwritten hends (ih h))

/-- What a text spells is what it is cut into. -/
theorem scan_of_spelled {lexemes : List Lexeme} (h : Spelled lexemes text) (line : Nat) :
    ∃ last, (scan line text).ending = .ok last ∧
      (scan line text).lexemes.map PlacedLexeme.lexeme = lexemes := by
  induction h generalizing line with
  | nil => exact ⟨line, by simp [scan_nil]⟩
  | @blank c lexemes text hc h ih => exact scan_cons hc line text ▸ ih _
  | @lexeme lexeme lexemes chars rest hwritten hends _ ih =>
    obtain ⟨after, hnext⟩ := finds_next_of_written hwritten hends line
    obtain ⟨last, hending, hlexemes⟩ := ih after
    rw [scan_of_next hnext]
    exact ⟨last, hending, by rw [List.map_cons, hlexemes]⟩

/-- **All lexemes**: a text is cut to its end, and into some lexemes, exactly if it
    spells them. -/
theorem spelled_iff_scan (line : Nat) {lexemes : List Lexeme} : Spelled lexemes text ↔
    ∃ last, (scan line text).ending = .ok last ∧
      (scan line text).lexemes.map PlacedLexeme.lexeme = lexemes := by
  constructor
  · intro h
    exact scan_of_spelled h line
  · rintro ⟨last, hending, rfl⟩
    exact spelled_of_scan hending

end Lexeme

end SlrCompiler
