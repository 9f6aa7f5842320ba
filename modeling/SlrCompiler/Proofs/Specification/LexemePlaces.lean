import SlrCompiler.Proofs.Specification.Lexemes
import SlrCompiler.Proofs.Success

/-! # The places of lexemes

    A rules section is read from its front, and lines are counted on the way. The
    count is kept by what is found next: its line, and the lines of the text behind
    it, are the lines of the text in front of which it was found (`line_of_next`).

    So the line of a lexeme is the number of line ends up to its end, and what stands
    in front of it is what the earlier lexemes spell (`exists_place_of_scan`). A text
    that cannot be cut up has a place too: `Fails` lists what is wrong at a place, and
    one such fault is there (`exists_fails_of_scan`).
-/

namespace SlrCompiler

open Text

/-! ## Section 1: Faults of a text -/

namespace Text

/-- No text that the quote opens ends in what stands behind it. -/
def NeverClosed (quote : Char) (rest : List Char) : Prop :=
  ∀ text after, Quoted quote text → rest ≠ text ++ after

/-- A text that closes none but the inner `depth` of `depth + 1` open braces. Quoted texts and
    comments do not count. -/
inductive Within : Nat → List Char → Prop
  | nil {depth : Nat} : Within depth []
  | plain {depth : Nat} {c : Char} {rest : List Char} : c ∉ ['{', '}', '"', '\''] →
      (c = '/' → rest.head? ≠ some '/') → Within depth rest → Within depth (c :: rest)
  | quoted {depth : Nat} {quote : Char} {text rest : List Char} : quote = '"' ∨ quote = '\'' →
      Quoted quote text → Within depth rest → Within depth (quote :: (text ++ rest))
  | comment {depth : Nat} {line rest : List Char} : '\n' ∉ line → rest.head? = some '\n' →
      Within depth rest → Within depth ('/' :: '/' :: (line ++ rest))
  | opening {depth : Nat} {rest : List Char} : Within (depth + 1) rest → Within depth ('{' :: rest)
  | closing {depth : Nat} {rest : List Char} : Within depth rest → Within (depth + 1) ('}' :: rest)

end Text

namespace Lexeme

/-- A text cannot be cut up at a place: what has been read there of a lexeme, what stands behind,
    and what is wrong, by the line of the place. -/
inductive Fails : List Char → List Char → (Nat → GrammarError) → Prop
  /-- A literal is not closed; the place is its quote. -/
  | quote {rest : List Char} : NeverClosed '\'' rest → Fails [] ('\'' :: rest) .unmatchedQuote
  /-- An action block is not closed; the place is its brace. -/
  | block {rest : List Char} : (∀ body after, BraceBalanced body → rest ≠ body ++ '}' :: after) →
      Fails [] ('{' :: rest) .unmatchedBrace
  /-- A quoted text in an action block is not closed; the place is its quote. -/
  | quoteInBlock {inner rest : List Char} {quote : Char} : Within 0 inner →
      quote = '"' ∨ quote = '\'' → NeverClosed quote rest →
      Fails ('{' :: inner) (quote :: rest) .unmatchedQuote
  /-- A brace is closed that is not open. -/
  | brace {rest : List Char} : Fails [] ('}' :: rest) .unexpectedCloseBrace
  /-- No lexeme begins with the character. -/
  | character {c : Char} {rest : List Char} : c ∉ [':', '|', ';', '\'', '{', '}', '%'] →
      isBlank c = false → isIdentifierChar c = false →
      Fails [] (c :: rest) (.malformedRule · (.strayCharacter c))
  /-- A directive other than `%prec`; the place is its end. -/
  | directive {word rest : List Char} : word ≠ "prec".toList →
      (∀ c ∈ word, isIdentifierChar c = true) →
      (∀ d, rest.head? = some d → isIdentifierChar d = false) →
      Fails ('%' :: word) rest (.malformedRule · (.unknownDirective (String.ofList word)))
  /-- A `%prec` clause has no argument where one is due. -/
  | noArgument {gap rest : List Char} : (∀ c ∈ gap, isBlank c = true) →
      (∀ d, rest.head? = some d → d ∈ [';', '|', '{']) →
      Fails ("%prec".toList ++ gap) rest .missingPrecArgument
  /-- The literal of a `%prec` clause is not closed; the place is its quote. -/
  | quotedArgument {gap rest : List Char} : (∀ c ∈ gap, isBlank c = true) → NeverClosed '\'' rest →
      Fails ("%prec".toList ++ gap) ('\'' :: rest) .unmatchedQuote
  /-- The argument of a `%prec` clause is neither a name nor a literal; the place is its
      beginning. -/
  | argument {gap word rest : List Char} {c : Char} : (∀ d ∈ gap, isBlank d = true) →
      c ∉ [';', '|', '{', '\''] → isIdentifierChar c = false →
      (∀ d ∈ c :: word, isBlank d = false) → (∀ d, rest.head? = some d → isBlank d = true) →
      Fails ("%prec".toList ++ gap) (c :: word ++ rest)
        (.malformedPrec · (String.ofList (c :: word)))

/-- The lexemes make up the text in front of a place, and the last of them ends there. -/
structure ReadTo (lexemes : List Lexeme) (before after : List Char) : Prop where
  spelled : Spelled lexemes before
  ends : RunEnds before after

end Lexeme

/-! ## Section 2: Lines are counted -/

namespace Text

theorem ne_newline_of_isIdentifierChar {c : Char} (h : isIdentifierChar c = true) : c ≠ '\n' := by
  have hline : isIdentifierChar '\n' = false := by decide +kernel
  rintro rfl
  simp [hline] at h

theorem lineCount_of_identifierChars {text : List Char}
    (h : ∀ c ∈ text, isIdentifierChar c = true) : lineCount text = 0 :=
  List.count_eq_zero.2 fun hmem => ne_newline_of_isIdentifierChar (h _ hmem) rfl

/-- No line ends within a name. -/
theorem lineCount_dropWhile_isIdentifierChar (text : List Char) :
    lineCount (text.dropWhile isIdentifierChar) = lineCount text := by
  have htext := List.takeWhile_append_dropWhile (p := isIdentifierChar) (l := text)
  have hcount := congrArg lineCount htext
  rwa [lineCount_append, lineCount_of_identifierChars fun c => List.mem_takeWhile_imp,
    Nat.zero_add] at hcount

theorem lineCount_cons {c : Char} (hc : c ≠ '\n') (text : List Char) :
    lineCount (c :: text) = lineCount text :=
  List.count_cons_of_ne hc

theorem RunEnds.of_append {text u v : List Char} (h : RunEnds text (u ++ v)) : RunEnds text u := by
  intro c d hc hd
  exact h c d hc (by rw [List.head?_append, hd, Option.some_or])

end Text

namespace Lexeme

variable {line : Nat} {text rest : List Char} {placed : PlacedLexeme}

theorem line_of_readLiteral {wrap : String → Lexeme}
    (h : readLiteral wrap line text = .found placed rest) :
    placed.line + lineCount rest = line + lineCount text := by
  simp only [readLiteral] at h
  split at h
  · simp at h
  · rename_i quoted after hclose
    obtain ⟨rfl, rfl⟩ := Next.found.inj h
    rw [eq_of_closeQuote hclose, lineCount_append, Nat.add_assoc]

theorem line_of_readName {wrap : String → Lexeme} {c : Char}
    (h : readName wrap line c text = .found placed rest) :
    placed.line + lineCount rest = line + lineCount text := by
  obtain ⟨rfl, rfl⟩ := Next.found.inj h
  rw [lineCount_dropWhile_isIdentifierChar]

theorem line_of_readAction (h : readAction line text = .found placed rest) :
    placed.line + lineCount rest = line + lineCount text := by
  simp only [readAction] at h
  split at h
  · simp at h
  · rename_i inner after hclose
    obtain ⟨rfl, rfl⟩ := Next.found.inj h
    rw [eq_of_closeBlock hclose, lineCount_append, Nat.add_assoc]

theorem line_of_readPrecArgument (h : readPrecArgument line text = .found placed rest) :
    placed.line + lineCount rest = line + lineCount text := by
  have htext := List.takeWhile_append_dropWhile (p := isBlank) (l := text)
  simp only [readPrecArgument] at h
  split at h
  · simp at h
  rename_i c tail hdrop
  rw [hdrop] at htext
  rw [← htext, lineCount_append, ← Nat.add_assoc]
  split at h
  · simp at h
  split at h
  · rename_i hc
    rw [line_of_readLiteral h, hc, lineCount_cons (by decide)]
  split at h
  · rename_i hc
    rw [line_of_readName h, lineCount_cons (ne_newline_of_isIdentifierChar hc)]
  · simp at h

theorem line_of_readDirective (h : readDirective line text = .found placed rest) :
    placed.line + lineCount rest = line + lineCount text := by
  simp only [readDirective] at h
  split at h
  · rw [line_of_readPrecArgument h, lineCount_dropWhile_isIdentifierChar]
  · simp at h

/-- **One lexeme**: its line, and the lines behind it, are the lines of the text. -/
theorem line_of_next (h : next line text = .found placed rest) :
    placed.line + lineCount rest = line + lineCount text := by
  have htext := List.takeWhile_append_dropWhile (p := isBlank) (l := text)
  simp only [next] at h
  split at h
  · simp at h
  rename_i c tail hdrop
  rw [hdrop] at htext
  rw [← htext, lineCount_append, ← Nat.add_assoc]
  split at h
  · obtain ⟨rfl, rfl⟩ := Next.found.inj h
    rw [lineCount_cons (by grind)]
  split at h
  · obtain ⟨rfl, rfl⟩ := Next.found.inj h
    rw [lineCount_cons (by grind)]
  split at h
  · obtain ⟨rfl, rfl⟩ := Next.found.inj h
    rw [lineCount_cons (by grind)]
  split at h
  · rw [line_of_readLiteral h, lineCount_cons (by grind)]
  split at h
  · rw [line_of_readAction h, lineCount_cons (by grind)]
  split at h
  · simp at h
  split at h
  · rw [line_of_readDirective h, lineCount_cons (by grind)]
  split at h
  · rename_i hc
    rw [line_of_readName h, lineCount_cons (ne_newline_of_isIdentifierChar hc)]
  · simp at h

theorem line_of_finished {last : Nat} (h : next line text = .finished last) :
    last = line + lineCount text := by
  have hdrop := (next_eq_finished_iff line).1 ⟨last, h⟩
  have htake : text.takeWhile isBlank = text := by
    simpa [hdrop] using List.takeWhile_append_dropWhile (p := isBlank) (l := text)
  simp only [next, hdrop, htake] at h
  exact (Next.finished.inj h).symm

/-! ## Section 3: Faults have a place -/

theorem neverClosed_of_closeQuote {quote : Char} (hquote : quote ≠ '\\')
    (h : closeQuote quote text = none) : NeverClosed quote text := by
  rintro quoted after hquoted rfl
  simp [closeQuote_of_quoted hquote hquoted] at h

/-- A block is not closed, or a quote in it is not. -/
def BlockFault (opened line depth : Nat) (text : List Char) (e : GrammarError) : Prop :=
  e = .unmatchedBrace opened ∨ ∃ inner quote rest, text = inner ++ quote :: rest ∧
    Within depth inner ∧ (quote = '"' ∨ quote = '\'') ∧ NeverClosed quote rest ∧
    e = .unmatchedQuote (line + lineCount inner)

/-- What is wrong in a block is wrong in it when something goes before. -/
theorem BlockFault.prepend (pre : List Char) {opened line depth : Nat} (lower : Nat)
    {text : List Char} {e : GrammarError}
    (h : BlockFault opened (line + lineCount pre) lower text e)
    (hpre : ∀ inner quote rest, text = inner ++ quote :: rest → quote = '"' ∨ quote = '\'' →
      Within lower inner → Within depth (pre ++ inner)) :
    BlockFault opened line depth (pre ++ text) e := by
  rcases h with hopen | ⟨inner, quote, rest, htext, hinner, hquote, hnever, he⟩
  · exact .inl hopen
  · refine .inr ⟨pre ++ inner, quote, rest, ?_, hpre inner quote rest htext hquote hinner, hquote,
      hnever, ?_⟩
    · rw [htext, List.append_assoc]
    · rw [he, lineCount_append, Nat.add_assoc]

theorem blockFault_of_closeBlock {opened depth : Nat} {e : GrammarError}
    (h : closeBlock opened line depth text = .error e) : BlockFault opened line depth text e := by
  fun_induction closeBlock opened line depth text with
  | case1 => exact .inl (Except.error.inj h).symm
  | case2 line depth c rest hc hclose =>
    have hnever := neverClosed_of_closeQuote (ne_backslash_of_quote hc) hclose
    exact .inr ⟨[], c, rest, rfl, .nil, hc, hnever, (Except.error.inj h).symm⟩
  | case3 line depth c rest hc quoted after hclose ih =>
    have hquoted := quoted_of_closeQuote hclose
    have hline : c ≠ '\n' := by rcases hc with rfl | rfl <;> decide
    rw [eq_of_closeQuote hclose, ← List.cons_append]
    refine .prepend (c :: quoted) depth ?_ fun inner _ _ _ _ hinner => .quoted hc hquoted hinner
    rw [lineCount_cons hline]
    exact ih (map_eq_error_iff.1 h)
  | case4 line depth c rest hc hslash ih =>
    -- The comment is the rest of its line.
    obtain ⟨rfl, hnext⟩ := hslash
    obtain ⟨tail, rfl⟩ := List.head?_eq_some_iff.1 hnext
    have hrun : ('/' :: tail).takeWhile (· != '\n') = '/' :: tail.takeWhile (· != '\n') := rfl
    have hdrop : ('/' :: tail).dropWhile (· != '\n') = tail.dropWhile (· != '\n') := rfl
    have hnone := newline_notMem_takeWhile tail
    have hline : lineCount ('/' :: '/' :: tail.takeWhile (· != '\n')) = 0 :=
      List.count_eq_zero.2 (by simpa using hnone)
    rw [hdrop] at ih h
    have htext : '/' :: '/' :: tail
        = '/' :: '/' :: tail.takeWhile (· != '\n') ++ tail.dropWhile (· != '\n') := by
      rw [List.cons_append, List.cons_append, List.takeWhile_append_dropWhile]
    rw [htext]
    refine .prepend _ depth ?_ fun inner quote rest heq hquote hinner =>
      .comment hnone ?_ hinner
    · rw [hline]
      exact ih (map_eq_error_iff.1 h)
    · -- Some of the text is left, so the line ends behind the comment.
      have hnewline : ∀ d, (inner ++ quote :: rest).head? = some d → d = '\n' := by
        rw [← heq]
        exact fun d => eq_newline_of_head?_dropWhile tail
      cases inner with
      | nil =>
        have hquoteLine := hnewline quote rfl
        rcases hquote with rfl | rfl <;> simp at hquoteLine
      | cons d inner => rw [hnewline d rfl, List.head?_cons]
  | case5 line depth rest hc hslash ih =>
    exact .prepend ['{'] (depth + 1) (ih (map_eq_error_iff.1 h)) fun _ _ _ _ _ => .opening
  | case6 => simp at h
  | case7 line rest depth hc hslash hne ih =>
    exact .prepend ['}'] depth (ih (map_eq_error_iff.1 h)) fun _ _ _ _ _ => .closing
  | case8 line depth c rest hc hslash hne hne' ih =>
    have hplain : c ∉ ['{', '}', '"', '\''] := by
      simp [hne, hne', not_or.1 hc]
    refine .prepend [c] depth (ih (map_eq_error_iff.1 h)) fun inner quote after hrest _ hinner =>
      .plain hplain (fun hc hnext => hslash ⟨hc, ?_⟩) hinner
    have hhead : inner.head? = some '/' := hnext
    rw [hrest, List.head?_append, hhead, Option.some_or]

theorem exists_fails_of_readAction {e : GrammarError} (h : readAction line text = .fault e) :
    ∃ u v fault, '{' :: text = u ++ v ∧ Fails u v fault ∧ e = fault (line + lineCount u) := by
  simp only [readAction] at h
  split at h
  · rename_i e' hclose
    obtain rfl := Next.fault.inj h
    rcases blockFault_of_closeBlock hclose with
      rfl | ⟨inner, quote, rest, rfl, hinner, hquote, hnever, rfl⟩
    · refine ⟨[], '{' :: text, .unmatchedBrace, rfl, .block ?_, rfl⟩
      rintro body after hbody rfl
      have hclosed : closeBlock line line 0 (body ++ '}' :: after) = .ok (body ++ ['}'], after) :=
        closeBlock_zero_eq_ok_iff.2 ⟨body, hbody, rfl, by simp⟩
      simp [hclosed] at hclose
    · refine ⟨'{' :: inner, quote :: rest, .unmatchedQuote, rfl, .quoteInBlock hinner hquote hnever,
        ?_⟩
      rw [lineCount_cons (by decide)]
  · simp at h

theorem fault_of_readLiteral {wrap : String → Lexeme} {e : GrammarError}
    (h : readLiteral wrap line text = .fault e) :
    NeverClosed '\'' text ∧ e = .unmatchedQuote line := by
  simp only [readLiteral] at h
  split at h
  · rename_i hclose
    exact ⟨neverClosed_of_closeQuote (by decide) hclose, (Next.fault.inj h).symm⟩
  · simp at h

theorem exists_fails_of_readPrecArgument {e : GrammarError}
    (h : readPrecArgument line text = .fault e) : ∃ gap rest fault, text = gap ++ rest ∧
      Fails ("%prec".toList ++ gap) rest fault ∧ e = fault (line + lineCount gap) := by
  have htext := (List.takeWhile_append_dropWhile (p := isBlank) (l := text)).symm
  have hgap : ∀ c ∈ text.takeWhile isBlank, isBlank c = true := fun c => List.mem_takeWhile_imp
  simp only [readPrecArgument] at h
  refine ⟨text.takeWhile isBlank, text.dropWhile isBlank, ?_⟩
  split at h
  · rename_i hdrop
    rw [hdrop] at htext ⊢
    exact ⟨.missingPrecArgument, htext, .noArgument hgap (by simp), (Next.fault.inj h).symm⟩
  rename_i c tail hdrop
  have hhead : (text.dropWhile isBlank).head? = some c := by rw [hdrop, List.head?_cons]
  have hblank := eq_false_of_head?_dropWhile hhead
  rw [hdrop] at htext ⊢
  split at h
  · rename_i hc
    exact ⟨.missingPrecArgument, htext, .noArgument hgap (by simpa using hc),
      (Next.fault.inj h).symm⟩
  rename_i hmarks
  split at h
  · rename_i hc
    obtain ⟨hnever, rfl⟩ := fault_of_readLiteral h
    rw [hc] at htext ⊢
    exact ⟨.unmatchedQuote, htext, .quotedArgument hgap hnever, rfl⟩
  rename_i hquote
  split at h
  · simp [readName] at h
  · rename_i hc
    -- What stands there is a word that begins with no mark and no name character.
    have hword := List.takeWhile_append_dropWhile (p := (!isBlank ·)) (l := tail)
    refine ⟨(.malformedPrec · (String.ofList (c :: tail.takeWhile (!isBlank ·)))), htext, ?_,
      (Next.fault.inj h).symm⟩
    have hfails : Fails ("%prec".toList ++ text.takeWhile isBlank)
        (c :: tail.takeWhile (!isBlank ·) ++ tail.dropWhile (!isBlank ·))
        (.malformedPrec · (String.ofList (c :: tail.takeWhile (!isBlank ·)))) := by
      refine .argument hgap ?_ (by simpa using hc) ?_ ?_
      · simp only [not_or] at hmarks
        simp [hmarks, hquote]
      · refine List.forall_mem_cons.2 ⟨hblank, fun d hd => ?_⟩
        simpa using List.mem_takeWhile_imp hd
      · intro d hd
        simpa using eq_false_of_head?_dropWhile hd
    rwa [List.cons_append, hword] at hfails

theorem exists_fails_of_readDirective {e : GrammarError} (h : readDirective line text = .fault e) :
    ∃ u v fault, '%' :: text = u ++ v ∧ Fails u v fault ∧ e = fault (line + lineCount u) := by
  have htext := (List.takeWhile_append_dropWhile (p := isIdentifierChar) (l := text)).symm
  have hrun : ∀ c ∈ text.takeWhile isIdentifierChar, isIdentifierChar c = true :=
    fun c => List.mem_takeWhile_imp
  simp only [readDirective] at h
  split at h
  · rename_i hprec
    obtain ⟨gap, rest, fault, hdrop, hfails, rfl⟩ := exists_fails_of_readPrecArgument h
    have hword : "%prec".toList = '%' :: text.takeWhile isIdentifierChar := by
      rw [← String.toList_ofList (l := text.takeWhile isIdentifierChar), hprec]
      decide
    have hline : lineCount "%prec".toList = 0 := by decide
    refine ⟨_, rest, fault, ?_, hfails, by rw [lineCount_append, hline, Nat.zero_add]⟩
    rw [hword, List.append_assoc, ← hdrop, List.cons_append, ← htext]
  · rename_i hprec
    refine ⟨'%' :: text.takeWhile isIdentifierChar, text.dropWhile isIdentifierChar, _, ?_,
      .directive ?_ hrun fun d => eq_false_of_head?_dropWhile, ?_⟩
    · rw [List.cons_append, ← htext]
    · intro hword
      exact hprec (by rw [hword, String.ofList_toList])
    · rw [← Next.fault.inj h, lineCount_cons (by decide), lineCount_of_identifierChars hrun]
      rfl

/-- **A fault** of what comes next is at a place behind blanks. -/
theorem exists_fails_of_next {e : GrammarError} (h : next line text = .fault e) :
    ∃ gap u v fault, (∀ c ∈ gap, isBlank c = true) ∧ text = gap ++ (u ++ v) ∧ Fails u v fault ∧
      e = fault (line + lineCount (gap ++ u)) := by
  have htext := (List.takeWhile_append_dropWhile (p := isBlank) (l := text)).symm
  refine ⟨text.takeWhile isBlank, ?_⟩
  suffices ∃ u v fault, text.dropWhile isBlank = u ++ v ∧ Fails u v fault ∧
      e = fault (line + lineCount (text.takeWhile isBlank) + lineCount u) by
    obtain ⟨u, v, fault, hdrop, hfails, he⟩ := this
    refine ⟨u, v, fault, fun c => List.mem_takeWhile_imp, ?_, hfails, ?_⟩
    · rw [← hdrop, ← htext]
    · rw [he, lineCount_append, Nat.add_assoc]
  -- The cases are those of the reader; the marks `:`, `|` and `;` are never at fault.
  simp only [next] at h
  split at h
  · simp at h
  rename_i c tail hdrop
  have hhead : (text.dropWhile isBlank).head? = some c := by rw [hdrop, List.head?_cons]
  have hblank := eq_false_of_head?_dropWhile hhead
  rw [hdrop]
  split at h
  · simp at h
  split at h
  · simp at h
  split at h
  · simp at h
  split at h
  · rename_i hc
    obtain ⟨hnever, rfl⟩ := fault_of_readLiteral h
    exact ⟨[], _, .unmatchedQuote, rfl, hc ▸ .quote hnever, rfl⟩
  split at h
  · rename_i hc
    exact hc ▸ exists_fails_of_readAction h
  split at h
  · rename_i hc
    exact ⟨[], _, .unexpectedCloseBrace, rfl, hc ▸ .brace, (Next.fault.inj h).symm⟩
  split at h
  · rename_i hc
    exact hc ▸ exists_fails_of_readDirective h
  split at h
  · simp [readName] at h
  · refine ⟨[], _, _, rfl, .character ?_ hblank ?_, (Next.fault.inj h).symm⟩
    · simp [*]
    · simpa using ‹¬ isIdentifierChar c = true›

/-! ## Section 4: All lexemes -/

/-- A lexeme in front of the place, behind blanks, is the first that was read. -/
theorem ReadTo.cons {lexeme : Lexeme} {lexemes : List Lexeme} {gap chars before after : List Char}
    (hgap : ∀ c ∈ gap, isBlank c = true) (hchars : Written lexeme chars)
    (hends : RunEnds chars (before ++ after)) (h : ReadTo lexemes before after) :
    ReadTo (lexeme :: lexemes) (gap ++ (chars ++ before)) after where
  spelled := .append hgap (.lexeme hchars hends.of_append h.spelled)
  ends := by
    cases before with
    | nil =>
      obtain ⟨c, tail, rfl, -⟩ := hchars.exists_cons
      rw [List.append_nil]
      exact (runEnds_append_iff gap (by simp)).2 hends
    | cons c before =>
      rw [← List.append_assoc]
      exact (runEnds_append_iff _ (by simp)).2 h.ends

theorem readTo_gap {gap : List Char} (hgap : ∀ c ∈ gap, isBlank c = true) (after : List Char) :
    ReadTo [] gap after := by
  refine ⟨by simpa using Spelled.append hgap .nil, fun c d hc _ hrun => ?_⟩
  have hblank := hgap c (List.mem_of_getLast? hc)
  simp [isIdentifierChar_eq_false_of_isBlank hblank] at hrun

/-- The first lexeme of a text is what is found next. -/
theorem next_of_scan_cons {later : List PlacedLexeme}
    (h : (scan line text).lexemes = placed :: later) :
    ∃ rest, next line text = .found placed rest ∧ (scan placed.line rest).lexemes = later := by
  rw [scan] at h
  split at h
  · simp at h
  · simp at h
  · rename_i first rest hnext
    obtain ⟨rfl, hlater⟩ := List.cons.inj h
    exact ⟨rest, hnext, hlater⟩

/-- **The line of a lexeme** is that of its end, and the earlier lexemes make up what stands in
    front of it. -/
theorem exists_place_of_scan {earlier later : List PlacedLexeme}
    (h : (scan line text).lexemes = earlier ++ placed :: later) :
    ∃ before chars after, text = before ++ (chars ++ after) ∧
      ReadTo (earlier.map PlacedLexeme.lexeme) before (chars ++ after) ∧
      Written placed.lexeme chars ∧ RunEnds chars after ∧
      placed.line = line + lineCount (before ++ chars) := by
  induction earlier generalizing line text with
  | nil =>
    obtain ⟨rest, hnext, -⟩ := next_of_scan_cons h
    obtain ⟨gap, chars, hgap, hwritten, hends, rfl⟩ := exists_written_of_next hnext
    have hline := line_of_next hnext
    refine ⟨gap, chars, rest, rfl, readTo_gap hgap _, hwritten, hends, ?_⟩
    simp only [lineCount_append] at hline ⊢
    omega
  | cons first earlier ih =>
    obtain ⟨rest, hnext, hlater⟩ := next_of_scan_cons h
    obtain ⟨gap, chars, hgap, hwritten, hends, rfl⟩ := exists_written_of_next hnext
    have hline := line_of_next hnext
    obtain ⟨before, word, after, rfl, hbefore, hword, hwordEnds, hplaced⟩ := ih hlater
    refine ⟨gap ++ (chars ++ before), word, after, by simp, hbefore.cons hgap hwritten hends,
      hword, hwordEnds, ?_⟩
    simp only [lineCount_append] at hline hplaced ⊢
    omega

/-- **The line of a fault** is that of its place, and the lexemes make up what stands in front
    of it. -/
theorem exists_fails_of_scan {e : GrammarError} (h : (scan line text).ending = .error e) :
    ∃ before u v fault, text = before ++ (u ++ v) ∧
      ReadTo ((scan line text).lexemes.map PlacedLexeme.lexeme) before (u ++ v) ∧
      Fails u v fault ∧ e = fault (line + lineCount (before ++ u)) := by
  fun_induction scan line text with
  | case1 => simp at h
  | case2 line text e' hnext =>
    obtain rfl := Except.error.inj h
    obtain ⟨gap, u, v, fault, hgap, htext, hfails, he⟩ := exists_fails_of_next hnext
    exact ⟨gap, u, v, fault, htext, readTo_gap hgap _, hfails, he⟩
  | case3 line text first rest hnext tail ih =>
    obtain ⟨gap, chars, hgap, hwritten, hends, rfl⟩ := exists_written_of_next hnext
    have hline := line_of_next hnext
    obtain ⟨before, u, v, fault, rfl, hbefore, hfails, rfl⟩ := ih h
    refine ⟨gap ++ (chars ++ before), u, v, fault, by simp, hbefore.cons hgap hwritten hends,
      hfails, ?_⟩
    simp only [lineCount_append] at hline ⊢
    congr 1
    omega

/-- A text that can be cut up ends on its last line. -/
theorem line_of_scan {last : Nat} (h : (scan line text).ending = .ok last) :
    last = line + lineCount text := by
  fun_induction scan line text with
  | case1 line text last' hnext =>
    obtain rfl := Except.ok.inj h
    exact line_of_finished hnext
  | case2 => simp at h
  | case3 line text first rest hnext tail ih => rw [ih h, line_of_next hnext]

end Lexeme

end SlrCompiler
