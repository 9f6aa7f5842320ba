import SlrCompiler.Grammar.Resolution
import SlrCompiler.Proofs.Specification.CommentMarks
import SlrCompiler.Proofs.Specification.RulesGrammar
import SlrCompiler.Proofs.Success

/-! # Comment marks inside of quotes

    Comments are taken out of a rules section before it is read, by position alone,
    while the reader of rules passes over quoted texts. The two disagree about a
    `/*` that is quoted: the reader takes it for a part of a literal or of an
    action's text, and what compiles has lost it (`parseStripped_eq_iff`).

    No rule that is read once comments are out bears a mark. So it suffices that the
    marks of a section show in the rules that are read from it as it stands. A mark
    in a literal or in an action does (`Marked`). One in the argument of a `%prec`
    clause shows in the rule's precedence, if a precedence is declared for just the
    names with marks (`markedLevel`). There is no other place for a mark
    (`hasCommentMark_iff_of_parse`).
-/

namespace SlrCompiler

open Text

namespace Rule

/-! ## Section 1: Rules that bear marks -/

/-- A literal or the action of the rule bears a mark. -/
def Marked (r : Rule) : Prop :=
  (∃ text, .literal text ∈ r.right ∧ HasCommentMark text.toList) ∨
    ∃ text, r.action = some text ∧ HasCommentMark text.toList

/-- A part of the alternative bears a mark. -/
def Alternative.Marked (a : Alternative) : Prop :=
  ∃ part ∈ a.parts, HasCommentMark part.toLexeme.content

theorem Part.symbol?_eq_some_iff {part : Part} {s : RuleSymbol} :
    part.symbol? = some s ↔ part = .symbol s := by
  cases part <;> simp

theorem Part.precArgument?_eq_some_iff {part : Part} {argument : String} :
    part.precArgument? = some argument ↔ part = .prec argument := by
  cases part <;> simp

theorem Part.action?_eq_some_iff {part : Part} {text : String} :
    part.action? = some text ↔ part = .action text := by
  cases part <;> simp

theorem Alternative.mem_symbols {a : Alternative} {s : RuleSymbol} :
    s ∈ a.symbols ↔ .symbol s ∈ a.parts := by
  simp only [symbols, List.mem_filterMap, Part.symbol?_eq_some_iff, exists_eq_right]

theorem Alternative.mem_precArguments {a : Alternative} {argument : String} :
    argument ∈ a.precArguments ↔ .prec argument ∈ a.parts := by
  simp only [precArguments, List.mem_filterMap, Part.precArgument?_eq_some_iff, exists_eq_right]

theorem Alternative.action?_eq_some_iff {a : Alternative} {text : String} :
    a.action? = some text ↔ .action text ∈ a.parts := by
  have hmem : text ∈ a.parts.filterMap Part.action? ↔ .action text ∈ a.parts := by
    simp only [List.mem_filterMap, Part.action?_eq_some_iff, exists_eq_right]
  have hone := a.oneAction
  rw [← hmem, action?]
  -- there is at most one action, so the first is the only one
  generalize a.parts.filterMap Part.action? = actions at hone ⊢
  cases actions with
  | nil => simp
  | cons only others =>
    obtain rfl : others = [] := by simpa using hone
    simp [eq_comm]

/-- The marks of an alternative are those of its rule and of its `%prec` clauses. -/
theorem Alternative.marked_iff (precedence : String → Option Precedence) (left : String)
    (a : Alternative) : a.Marked ↔
      (a.rule precedence left).Marked ∨
        ∃ argument ∈ a.precArguments, HasCommentMark argument.toList := by
  constructor
  · rintro ⟨part, hpart, hmark⟩
    cases part with
    | symbol s =>
      cases s with
      | literal text => exact .inl (.inl ⟨text, mem_symbols.2 hpart, hmark⟩)
      | name text => exact absurd hmark not_hasCommentMark_nil
    | prec argument => exact .inr ⟨argument, mem_precArguments.2 hpart, hmark⟩
    | action text => exact .inl (.inr ⟨text, action?_eq_some_iff.2 hpart, hmark⟩)
  · rintro ((⟨text, htext, hmark⟩ | ⟨text, htext, hmark⟩) | ⟨argument, hargument, hmark⟩)
    · exact ⟨_, mem_symbols.1 htext, hmark⟩
    · exact ⟨_, action?_eq_some_iff.1 htext, hmark⟩
    · exact ⟨_, mem_precArguments.1 hargument, hmark⟩

theorem Alternative.exists_lexeme_iff {a : Alternative} :
    (∃ lexeme ∈ a.lexemes, HasCommentMark lexeme.content) ↔ a.Marked := by
  simp only [lexemes, List.mem_map, exists_exists_and_eq_and, Marked]

theorem Alternative.exists_following_iff {others : List Alternative} :
    (∃ lexeme ∈ following others, HasCommentMark lexeme.content) ↔ ∃ a ∈ others, a.Marked := by
  induction others with
  | nil => simp [following, Lexeme.content, not_hasCommentMark_nil]
  | cons a others ih =>
    have hlexemes : following (a :: others) = .bar :: (a.lexemes ++ following others) := by
      simp [following]
    have hbar : ¬ HasCommentMark Lexeme.bar.content := not_hasCommentMark_nil
    rw [hlexemes, List.exists_mem_cons_iff, or_iff_right hbar, List.exists_mem_cons_iff]
    simp only [List.mem_append, or_and_right, exists_or]
    rw [exists_lexeme_iff, ih]

/-- Names and punctuation bear no marks, so the marks of a rule are in its alternatives. -/
theorem Form.exists_lexeme_iff {f : Form} :
    (∃ lexeme ∈ f.lexemes, HasCommentMark lexeme.content) ↔
      ∃ x ∈ f.alternatives, x.2.Marked := by
  have hname : ¬ HasCommentMark (Lexeme.name f.left).content := not_hasCommentMark_nil
  have hcolon : ¬ HasCommentMark Lexeme.colon.content := not_hasCommentMark_nil
  rw [lexemes, List.exists_mem_cons_iff, or_iff_right hname, List.exists_mem_cons_iff,
    or_iff_right hcolon]
  simp only [List.mem_append, or_and_right, exists_or]
  rw [Alternative.exists_lexeme_iff, Alternative.exists_following_iff]
  simp [alternatives]

/-- The marks of a section are those of its alternatives. -/
theorem Form.Spelled.hasCommentMark_iff {forms : List Form} {text : List Char}
    (h : Form.Spelled forms text) :
    HasCommentMark text ↔ ∃ x ∈ forms.flatMap Form.alternatives, x.2.Marked := by
  rw [Lexeme.Spelled.hasCommentMark_iff h]
  simp only [List.mem_flatMap]
  constructor
  · rintro ⟨lexeme, ⟨f, hf, hlexeme⟩, hmark⟩
    obtain ⟨x, hx, hmarked⟩ := exists_lexeme_iff.1 ⟨lexeme, hlexeme, hmark⟩
    exact ⟨x, ⟨f, hf, hx⟩, hmarked⟩
  · rintro ⟨x, ⟨f, hf, hx⟩, hmarked⟩
    obtain ⟨lexeme, hlexeme, hmark⟩ := exists_lexeme_iff.2 ⟨x, hx, hmarked⟩
    exact ⟨lexeme, ⟨f, hf, hlexeme⟩, hmark⟩

/-! ## Section 2: Rules show the marks of their section -/

variable {startSymbol : String} {precedence : String → Option Precedence} {text : List Char}
  {rules : List Rule}

/-- One level for the names with marks, and none for the others. -/
def markedLevel (name : String) : Option Precedence :=
  if HasCommentMark name.toList then some ⟨.left, 1⟩ else none

theorem isSome_markedLevel_iff {name : String} :
    (markedLevel name).isSome ↔ HasCommentMark name.toList := by
  unfold markedLevel
  split <;> simp [*]

/-- A mark in the argument of a `%prec` clause shows in the precedence of the rule. -/
theorem Alternative.marked_iff_of_proper {left : String} {a : Alternative}
    (h : (a.rule markedLevel left).Proper) : a.Marked ↔
      (a.rule markedLevel left).Marked ∨ (a.precedence markedLevel).isSome := by
  rw [marked_iff markedLevel left]
  have hsome : (a.precedence markedLevel).isSome ↔
      (∃ argument ∈ a.precArguments, HasCommentMark argument.toList) ∨
        ∃ s ∈ a.symbols, HasCommentMark s.text.toList := by
    simp [precedence, List.findSome?_isSome_iff, isSome_markedLevel_iff]
  rw [hsome]
  constructor
  · exact Or.imp_right Or.inl
  · rintro (hrule | hprec | ⟨s, hs, hmark⟩)
    · exact .inl hrule
    · exact .inr hprec
    · cases s with
      | literal text => exact .inl (.inl ⟨text, hs, hmark⟩)
      | name text =>
        -- a name has no characters but those of names
        have hname : isIdentifier text.toList = true := h.right _ hs
        exact absurd hmark (not_hasCommentMark_of_not_mem (not_mem_of_isIdentifier hname))

section Alternatives

variable (h : parse startSymbol precedence text = .ok rules) {forms : List Form}
  (hforms : Form.Spelled forms text)
include h hforms

theorem proper_alternative {x : String × Alternative}
    (hx : x ∈ forms.flatMap Form.alternatives) : (x.2.rule precedence x.1).Proper := by
  obtain ⟨read, -, hproper, hrules⟩ := exists_read_of_parse h hforms
  have hmem : x.2.rule precedence x.1 ∈ read.map unplaced := by
    rw [hrules]
    exact List.mem_map_of_mem hx
  obtain ⟨r, hr, heq⟩ := List.mem_map.1 hmem
  rw [← heq]
  exact ⟨(hproper r hr).left, (hproper r hr).right⟩

/-- What does not depend on lines and does not hold of the augmenting rule holds of a rule that
    is read exactly if it holds of the rule of an alternative. -/
theorem exists_alternative_iff {shows : Rule → Prop} (hline : ∀ r, shows (unplaced r) ↔ shows r)
    (hstart : ¬ shows (augmenting startSymbol)) : (∃ r ∈ rules, shows r) ↔
      ∃ x ∈ forms.flatMap Form.alternatives, shows (x.2.rule precedence x.1) := by
  obtain ⟨read, rfl, -, hrules⟩ := exists_read_of_parse h hforms
  rw [List.exists_mem_cons_iff, or_iff_right hstart]
  calc (∃ r ∈ read, shows r)
      ↔ ∃ r ∈ read.map unplaced, shows r := by simp [hline]
    _ ↔ ∃ x ∈ forms.flatMap Form.alternatives, shows (x.2.rule precedence x.1) := by
        rw [hrules]
        simp only [List.mem_map, exists_exists_and_eq_and]

end Alternatives

/-- **The rules show the marks**: a section that is read bears a mark exactly if one of its rules
    does or, with a level for the names with marks, has a precedence. -/
theorem hasCommentMark_iff_of_parse (h : parse startSymbol markedLevel text = .ok rules) :
    HasCommentMark text ↔ ∃ r ∈ rules, r.Marked ∨ r.precedence.isSome := by
  obtain ⟨forms, hforms⟩ := exists_spelled_of_parse h
  have hstart : ¬ ((augmenting startSymbol).Marked ∨
      (augmenting startSymbol).precedence.isSome) := by
    simp [Marked, augmenting]
  rw [hforms.hasCommentMark_iff, exists_alternative_iff h hforms (fun _ => Iff.rfl) hstart]
  exact exists_congr fun x => and_congr_right fun hx =>
    Alternative.marked_iff_of_proper (proper_alternative h hforms hx)

/-- A rule with a mark has it from its section. -/
theorem hasCommentMark_of_parse (h : parse startSymbol precedence text = .ok rules)
    (hmark : ∃ r ∈ rules, r.Marked) : HasCommentMark text := by
  obtain ⟨forms, hforms⟩ := exists_spelled_of_parse h
  have hstart : ¬ (augmenting startSymbol).Marked := by simp [Marked, augmenting]
  obtain ⟨x, hx, hmarked⟩ :=
    (exists_alternative_iff h hforms (fun _ => Iff.rfl) hstart).1 hmark
  exact hforms.hasCommentMark_iff.2 ⟨x, hx, (x.2.marked_iff precedence x.1).2 (.inl hmarked)⟩

/-! ## Section 3: Reading what is left when comments are out -/

/-- Reads a rules section as a specification has it: its comments are taken out first. -/
def parseStripped (startSymbol : String) (precedence : String → Option Precedence)
    (text : List Char) : Except GrammarError (List Rule) :=
  match stripComments text with
  | none => .error (.unmatchedComment .rules)
  | some rest => parse startSymbol precedence rest

/-- So the rules section between the marks of a specification is read. -/
theorem exists_parseStripped_of_split {spec : List Char} {s : Sections}
    (h : Sections.split spec = .ok s) : ∃ commented,
      spec = s.declarations ++ Sections.mark ++ (commented ++ Sections.mark ++ s.support) ∧
      ∀ precedence, parse s.startSymbol precedence s.rules
        = parseStripped s.startSymbol precedence commented := by
  unfold Sections.split at h
  split at h
  · simp at h
  rename_i declarations rest hfirst
  split at h
  · simp at h
  rename_i commented support hsecond
  split at h
  · simp at h
  rename_i rules hstrip
  obtain ⟨startSymbol, -, rfl⟩ := map_eq_ok_iff.1 h
  refine ⟨commented, ?_, ?_⟩
  · rw [eq_of_cutAt hfirst, eq_of_cutAt hsecond]
  · intro precedence
    rw [parseStripped, hstrip]

/-- What is read once comments are out is read from a section without marks. -/
theorem exists_parse_of_parseStripped (h : parseStripped startSymbol precedence text = .ok rules) :
    ∃ rest, parse startSymbol precedence rest = .ok rules ∧ ¬ HasCommentMark rest := by
  unfold parseStripped at h
  split at h
  · simp at h
  · next rest hstrip => exact ⟨rest, h, not_hasCommentMark_of_stripComments hstrip⟩

theorem parseStripped_eq_self (h : ¬ HasCommentMark text) :
    parseStripped startSymbol precedence text = parse startSymbol precedence text := by
  rw [parseStripped, stripComments_eq_self h]

/-- **When taking comments out keeps the rules**: let a rules section be one that is read as it
    stands. If it bears no mark, it is read alike once comments are out. If a literal or an
    action of one of its rules bears a mark, it is not. And whichever precedences are declared,
    both ways of reading agree only if there is no mark in the section at all. -/
theorem parseStripped_eq_iff (h : parse startSymbol precedence text = .ok rules) :
    (¬ HasCommentMark text → parseStripped startSymbol precedence text = .ok rules) ∧
    ((∃ r ∈ rules, r.Marked) → parseStripped startSymbol precedence text ≠ .ok rules) ∧
    ((∀ declared, parseStripped startSymbol declared text = parse startSymbol declared text) ↔
      ¬ HasCommentMark text) := by
  refine ⟨?_, ?_, ?_, ?_⟩
  · intro hnone
    rw [parseStripped_eq_self hnone, h]
  · intro hmarked hsame
    obtain ⟨rest, hrest, hnone⟩ := exists_parse_of_parseStripped hsame
    exact hnone (hasCommentMark_of_parse hrest hmarked)
  · intro hall hmark
    -- with a level for the names with marks the two readings differ
    obtain ⟨forms, hforms⟩ := exists_spelled_of_parse h
    obtain ⟨read, hread, -⟩ := exists_parse_of_spelled startSymbol markedLevel hforms
    obtain ⟨rest, hrest, hnone⟩ := exists_parse_of_parseStripped ((hall markedLevel).trans hread)
    exact hnone ((hasCommentMark_iff_of_parse hrest).2 ((hasCommentMark_iff_of_parse hread).1 hmark))
  · intro hnone declared
    exact parseStripped_eq_self hnone

/-! ## Section 4: Marks that are quoted -/

/-- The text with every quoted text in it reduced to its quote. -/
def dropQuoted : List Char → List Char
  | [] => []
  | c :: rest =>
    if c = '\'' ∨ c = '"' then
      match _hclose : closeQuote c rest with
      | some (_, after) => c :: dropQuoted after
      | none => c :: rest
    else c :: dropQuoted rest
termination_by text => text.length
decreasing_by
  · have := (suffix_of_closeQuote _hclose).length_le
    simp only [List.length_cons]
    omega
  · simp

/-- Two actions, the first with the beginning of a comment in quotes and the second with an
    end. -/
def quotedMarks : List Char :=
  "s : 'a' \x7b x = \"/*\"; \x7d | 'b' \x7b y = \"*/\"; \x7d ;".toList

theorem parseStripped_eq_iff_quotedMarks :
    ∃ rules, parse "s" (fun _ => none) quotedMarks = .ok rules ∧ (∃ r ∈ rules, r.Marked) ∧
      parseStripped "s" (fun _ => none) quotedMarks ≠ .ok rules ∧
      ∃ declared, parseStripped "s" declared quotedMarks ≠ parse "s" declared quotedMarks := by
  have hread : (parse "s" (fun _ => none) quotedMarks).map (fun rules => decide
      (∃ r ∈ rules, ∃ code ∈ r.action, HasCommentMark code.toList)) = .ok true := by
    decide +kernel
  obtain ⟨rules, hrules, r, hr, code, hcode, hmark⟩ := exists_of_map_decide hread
  have hmarked : ∃ r ∈ rules, r.Marked := ⟨r, hr, .inr ⟨code, hcode, hmark⟩⟩
  obtain ⟨-, hdiffers, hall⟩ := parseStripped_eq_iff hrules
  have hsection : HasCommentMark quotedMarks := hasCommentMark_of_parse hrules hmarked
  exact ⟨rules, hrules, hmarked, hdiffers hmarked,
    not_forall.1 fun hsame => hall.1 hsame hsection⟩

/-- **Quotes are no shelter**: it is not so that a section whose marks are all quoted gives the
    same rules once comments are out. -/
theorem not_parseStripped_eq_of_quoted :
    ¬ ∀ (startSymbol : String) (precedence : String → Option Precedence) (text : List Char)
      (rules : List Rule), parse startSymbol precedence text = .ok rules →
      ¬ HasCommentMark (dropQuoted text) →
      parseStripped startSymbol precedence text = .ok rules := by
  intro hall
  have hread : (parse "s" (fun _ => none) quotedMarks).map (fun rules => decide
      (parseStripped "s" (fun _ => none) quotedMarks ≠ .ok rules)) = .ok true := by
    decide +kernel
  have hquoted : ¬ HasCommentMark (dropQuoted quotedMarks) := by decide +kernel
  obtain ⟨rules, hrules, hdiffers⟩ := exists_of_map_decide hread
  exact hdiffers (hall "s" _ quotedMarks rules hrules hquoted)

end Rule

end SlrCompiler
