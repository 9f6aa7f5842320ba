import SlrCompiler.Proofs.Grammar.NameResolution
import SlrCompiler.Proofs.Specification.ActionRegions
import SlrCompiler.Proofs.Specification.QuotedComments

/-! # Reading the code of an action twice

    The code of an action is read twice. The reader of rules looks for the brace that
    closes it, and passes over quoted texts and line comments on the way. Later the
    reader of actions looks for the placeholders in it, and passes over quoted texts,
    line comments and comments between marks. The two agree: where the second reader
    takes up code that the first one has found, no quoted text and no comment is left
    open, and only a placeholder can be at fault (`placeholder_at_fault_of_split`).

    What the first reader hands over is `Legible`. Its quoted texts are closed and its
    line comments end, since the closing brace is found behind them
    (`BraceBalanced.legible_append`), and it has no marks of comments outside of them,
    since comments have been taken out of the section before.

    The second reader goes on region by region, and behind each region there is legible
    code (`Legible.of_stands`): a quoted text or a line comment is taken as a whole, and a
    placeholder consists of characters that open neither. What is malformed in legible
    code is a placeholder (`Legible.of_malformed`). By induction that holds of the whole
    code (`of_readAll_eq_error`).
-/

namespace SlrCompiler

open Text

/-! ## Section 1: Legible code -/

/-- Code with its quoted texts closed and its line comments ended, and without marks of comments
    outside of these. -/
inductive Legible : List Char → Prop
  | nil : Legible []
  | plain {c : Char} {rest : List Char} : c ∉ ['"', '\''] →
      (c = '/' → rest.head? ≠ some '/' ∧ rest.head? ≠ some '*') → Legible rest →
      Legible (c :: rest)
  | quoted {quote : Char} {text rest : List Char} : quote = '"' ∨ quote = '\'' →
      Quoted quote text → Legible rest → Legible (quote :: (text ++ rest))
  | comment {line rest : List Char} : '\n' ∉ line → Legible rest →
      Legible ('/' :: '/' :: (line ++ '\n' :: rest))

theorem Text.not_hasCommentMark_of_append {u v : List Char} (h : ¬ HasCommentMark (u ++ v)) :
    ¬ HasCommentMark v :=
  fun hmark => h (hasCommentMark_append_iff.2 (.inr (.inr hmark)))

/-- A balanced text in front of legible code is legible, if no mark begins in it. -/
theorem Text.BraceBalanced.legible_append {body : List Char} (h : BraceBalanced body)
    {after : List Char} (hafter : Legible after) (hhead : after.head? ≠ some '/')
    (hmark : ¬ HasCommentMark (body ++ after)) : Legible (body ++ after) := by
  induction h generalizing after with
  | nil => exact hafter
  | @plain c rest hc hslash _ ih =>
    rw [List.cons_append, hasCommentMark_cons_iff, not_or] at hmark
    refine .plain (by simp_all) ?_ (ih hafter hhead hmark.2)
    intro heq
    refine ⟨?_, fun hstar => hmark.1 ⟨heq, hstar⟩⟩
    -- the slash may be the last character of the text
    cases rest with
    | nil => exact hhead
    | cons d rest => exact hslash heq
  | @quoted quote text rest hquote htext _ ih =>
    have heq : quote :: (text ++ rest) ++ after = quote :: (text ++ (rest ++ after)) := by simp
    rw [heq] at hmark ⊢
    exact .quoted hquote htext
      (ih hafter hhead (not_hasCommentMark_of_append (u := quote :: text) hmark))
  | @comment line rest hline _ ih =>
    have heq : '/' :: '/' :: (line ++ '\n' :: rest) ++ after
        = '/' :: '/' :: (line ++ '\n' :: (rest ++ after)) := by simp
    rw [heq] at hmark ⊢
    refine .comment hline (ih hafter hhead ?_)
    exact not_hasCommentMark_of_append (u := '/' :: '/' :: (line ++ ['\n'])) (by simpa using hmark)
  | @block inner rest _ _ ihinner ihrest =>
    have heq : '{' :: (inner ++ '}' :: rest) ++ after
        = '{' :: (inner ++ '}' :: (rest ++ after)) := by simp
    rw [heq] at hmark ⊢
    have hinside := not_hasCommentMark_of_append (u := ['{']) hmark
    have hbehind : ¬ HasCommentMark (rest ++ after) :=
      not_hasCommentMark_of_append (u := inner ++ ['}']) (by simpa using hinside)
    have hclose : Legible ('}' :: (rest ++ after)) :=
      .plain (by decide) (fun heq => absurd heq (by decide)) (ihrest hafter hhead hbehind)
    exact .plain (by decide) (fun heq => absurd heq (by decide))
      (ihinner hclose (by simp) hinside)

/-- An action block without marks is legible. -/
theorem Text.BraceBalanced.legible_block {body : List Char} (h : BraceBalanced body)
    (hmark : ¬ HasCommentMark ('{' :: (body ++ ['}']))) : Legible ('{' :: (body ++ ['}'])) := by
  have hclose : Legible ['}'] := .plain (by decide) (fun heq => absurd heq (by decide)) .nil
  have hinside := not_hasCommentMark_of_append (u := ['{']) hmark
  exact .plain (by decide) (fun heq => absurd heq (by decide))
    (h.legible_append hclose (by decide) hinside)

/-! ## Section 2: One region -/

/-- What can be wrong with a placeholder in itself: its tag, or an index that is too large. -/
def ActionFault.ofPlaceholder : List ActionFault :=
  [.unterminatedTag, .malformedTag, .strayTag, .indexTooLarge]

/-- The characters that open a quoted text or a comment. -/
def openers : List Char := ['"', '\'', '/']

theorem not_mem_openers {p : Char → Bool} (hnone : openers.any p = false) {c : Char}
    (h : p c = true) : c ∉ openers := by
  intro hmem
  exact List.any_eq_false.1 hnone c hmem h

theorem not_mem_openers_of_isDigit {c : Char} (h : isDigit c = true) : c ∉ openers :=
  not_mem_openers (by decide) h

theorem not_mem_openers_of_isIdentifierChar {c : Char} (h : isIdentifierChar c = true) :
    c ∉ openers :=
  not_mem_openers (by decide +kernel) h

theorem Legible.tail {c : Char} {rest : List Char} (h : Legible (c :: rest)) (hc : c ∉ openers) :
    Legible rest := by
  cases h with
  | plain _ _ hrest => exact hrest
  | quoted hquote => simp_all [openers]
  | comment => simp [openers] at hc

/-- Behind characters that open nothing legible code goes on. -/
theorem Legible.of_append {u v : List Char} (h : Legible (u ++ v)) (hu : ∀ c ∈ u, c ∉ openers) :
    Legible v := by
  induction u with
  | nil => exact h
  | cons c u ih =>
    have htail : Legible (u ++ v) := Legible.tail h (hu c List.mem_cons_self)
    exact ih htail fun d hd => hu d (List.mem_cons_of_mem c hd)

/-- The characters of a placeholder open nothing. -/
theorem not_mem_openers_of_placeholder {member digits : Option (List Char)}
    (hmember : ∀ m ∈ member, isIdentifier m = true)
    (hending : ∀ c ∈ Region.ending digits, c ∉ openers) :
    ∀ c ∈ (Region.placeholder member digits).chars, c ∉ openers := by
  have htag : ∀ c ∈ Region.tag member, c ∉ openers := by
    intro c hc
    cases member with
    | none => exact absurd hc List.not_mem_nil
    | some m =>
      rcases List.mem_cons.1 hc with rfl | hc
      · decide
      · rcases List.mem_append.1 hc with hc | hc
        · exact not_mem_openers_of_isIdentifierChar ((isIdentifier_iff.1 (hmember m rfl)).2 c hc)
        · rw [List.mem_singleton.1 hc]
          decide
  intro c hc
  rcases List.mem_cons.1 hc with rfl | hc
  · decide
  · exact (List.mem_append.1 hc).elim (htag c) (hending c)

theorem Legible.exists_quoted {quote : Char} {code : List Char} (h : Legible (quote :: code))
    (hquote : quote = '"' ∨ quote = '\'') :
    ∃ text rest, code = text ++ rest ∧ Quoted quote text ∧ Legible rest := by
  cases h with
  | plain hplain => simp_all
  | quoted _ htext hrest => exact ⟨_, _, rfl, htext, hrest⟩
  | comment => simp at hquote

theorem Legible.slash_cases {code : List Char} (h : Legible ('/' :: code)) :
    (code.head? ≠ some '/' ∧ code.head? ≠ some '*' ∧ Legible code) ∨
      ∃ line rest, code = '/' :: (line ++ '\n' :: rest) ∧ '\n' ∉ line ∧ Legible rest := by
  cases h with
  | plain _ hslash hrest => exact .inl ⟨(hslash rfl).1, (hslash rfl).2, hrest⟩
  | quoted hquote => simp at hquote
  | comment hline hrest => exact .inr ⟨_, _, rfl, hline, hrest⟩

/-- **One region**: behind it legible code goes on. -/
theorem Legible.of_stands {r : Region} {rest : List Char} (h : Legible (r.chars ++ rest))
    (hstands : r.Stands rest.head?) : Legible rest := by
  cases hstands with
  | quoted hquote htext =>
    obtain ⟨text, after, heq, htext', hafter⟩ := exists_quoted h hquote
    obtain ⟨-, rfl⟩ := htext.append_inj (ne_backslash_of_quote hquote) htext' heq
    exact hafter
  | comment =>
    rcases slash_cases h with ⟨-, hstar, -⟩ | ⟨line, after, heq, -⟩
    · simp at hstar
    · simp at heq
  | @lineComment line _ hline hend =>
    rcases slash_cases h with ⟨hslash, -⟩ | ⟨line', after, heq, hline', hafter⟩
    · simp at hslash
    · -- both comments go up to the end of the line, so they are the same
      have hend' : ∀ c, ('\n' :: after).head? = some c → c = '\n' := by simp
      have hread' := Piece.next_comment hline' hend'
      have hsame : line ++ rest = line' ++ '\n' :: after := (List.cons.inj heq).2
      rw [← hsame, Piece.next_comment hline hend] at hread'
      obtain ⟨-, rfl⟩ := Prod.mk.inj (Except.ok.inj hread')
      exact .plain (by decide) (fun hc => absurd hc (by decide)) hafter
  | result hmember =>
    refine h.of_append (not_mem_openers_of_placeholder hmember ?_)
    intro d hd
    rw [List.mem_singleton.1 hd]
    decide
  | argument hmember hdigits =>
    refine h.of_append (not_mem_openers_of_placeholder hmember ?_)
    intro d hd
    exact not_mem_openers_of_isDigit (hdigits.digit d hd)
  | @other c _ hdouble hsingle hslash _ =>
    by_cases hc : c = '/'
    · subst hc
      rcases slash_cases h with ⟨-, -, hrest⟩ | ⟨line, after, heq, -⟩
      · exact hrest
      · have hhead : rest = '/' :: (line ++ '\n' :: after) := heq
        simp [hhead] at hslash
    · exact h.tail (by simp [openers, hdouble, hsingle, hc])

/-- In legible code only a placeholder is malformed. -/
theorem Legible.of_malformed {code : List Char} {fault : ActionFault} (h : Legible code)
    (hfault : Malformed code fault) : fault ∈ ActionFault.ofPlaceholder := by
  cases hfault with
  | quoted hquote hopen =>
    obtain ⟨text, after, heq, htext, -⟩ := exists_quoted h hquote
    exact absurd heq (hopen text after htext)
  | comment =>
    rcases slash_cases h with ⟨-, hstar, -⟩ | ⟨line, after, heq, -⟩
    · simp at hstar
    · simp at heq
  | openTag | tag | strayTag => simp [ActionFault.ofPlaceholder]

namespace Piece

/-- Reading goes on in legible code, or a placeholder is at fault. -/
def Proceeds : Except ActionFault (Piece × List Char) → Prop
  | .ok (_, after) => Legible after
  | .error fault => fault ∈ ActionFault.ofPlaceholder

/-- **One piece**: in legible code reading goes on, or a placeholder is at fault. -/
theorem proceeds_next {c : Char} {rest : List Char} (h : Legible (c :: rest)) :
    Proceeds (next c rest) := by
  rcases Region.place_cases (c :: rest) with hnil | ⟨r, after, heq, hstands⟩ | ⟨fault, hfault⟩
  · exact nomatch hnil
  · by_cases hsmall : ∀ n ∈ r.number?, n < indexLimit
    · obtain ⟨d, tail, htext, hread⟩ := next_of_stands hstands hsmall
      obtain ⟨rfl, rfl⟩ := List.cons.inj (heq.trans htext)
      rw [hread]
      rw [heq] at h
      exact h.of_stands hstands
    · push Not at hsmall
      obtain ⟨n, hn, hlarge⟩ := hsmall
      obtain ⟨d, tail, htext, hread⟩ := next_of_tooLarge hstands hn hlarge
      obtain ⟨rfl, rfl⟩ := List.cons.inj (heq.trans htext)
      rw [hread]
      simp [Proceeds, ActionFault.ofPlaceholder]
  · obtain ⟨d, tail, htext, hread⟩ := next_of_malformed hfault
    obtain ⟨rfl, rfl⟩ := List.cons.inj htext
    rw [hread]
    exact h.of_malformed hfault

/-! ## Section 3: All pieces -/

/-- **All pieces**: in legible code only placeholders are at fault. -/
theorem of_readAll_eq_error {rule arity : Nat} {text : List Char} {e : GrammarError}
    (h : Legible text) (he : readAll rule arity text = .error e) :
    (∃ index, e = .placeholderOutOfRange rule index arity) ∨
      ∃ fault ∈ ActionFault.ofPlaceholder, e = .malformedAction rule fault := by
  fun_induction readAll rule arity text with
  | case1 => simp at he
  | case2 c rest fault hnext =>
    have hproceeds := proceeds_next h
    rw [hnext] at hproceeds
    exact .inr ⟨fault, hproceeds, (Except.error.inj he).symm⟩
  | case3 c rest piece after hnext index hindex =>
    exact .inl ⟨index, (Except.error.inj he).symm⟩
  | case4 c rest piece after hnext hindex ih =>
    have hproceeds := proceeds_next h
    rw [hnext] at hproceeds
    exact ih hproceeds (map_eq_error_iff.1 he)

end Piece

/-! ## Section 4: The actions of rules -/

/-- A lexeme that a text spells is written in it. -/
theorem Lexeme.Spelled.exists_written {lexemes : List Lexeme} {text : List Char}
    (h : Spelled lexemes text) {lexeme : Lexeme} (hmem : lexeme ∈ lexemes) :
    ∃ chars, Written lexeme chars := by
  induction h with
  | nil => exact absurd hmem List.not_mem_nil
  | blank _ _ ih => exact ih hmem
  | lexeme hwritten _ _ ih =>
    rcases List.mem_cons.1 hmem with rfl | hmem
    · exact ⟨_, hwritten⟩
    · exact ih hmem

/-- The text of an action is a block of balanced braces. -/
theorem Lexeme.Written.exists_braceBalanced {code : String} {chars : List Char}
    (h : Written (.action code) chars) :
    ∃ body, BraceBalanced body ∧ code.toList = '{' :: (body ++ ['}']) := by
  generalize heq : Lexeme.action code = lexeme at h
  cases h with
  | @action body hbody =>
    obtain rfl := Lexeme.action.inj heq
    exact ⟨body, hbody, String.toList_ofList⟩
  | @symbol s _ _ => cases s <;> simp [RuleSymbol.toLexeme] at heq
  | colon | bar | semicolon | prec => simp at heq

namespace Rule

/-- The parts of the alternatives are among the lexemes of the rules. -/
theorem Form.mem_lexemes {forms : List Form} {x : String × Alternative}
    (hx : x ∈ forms.flatMap Form.alternatives) {part : Part} (hpart : part ∈ x.2.parts) :
    part.toLexeme ∈ forms.flatMap Form.lexemes := by
  obtain ⟨f, hf, hx⟩ := List.mem_flatMap.1 hx
  obtain ⟨a, ha, rfl⟩ := List.mem_map.1 hx
  have hlexeme : part.toLexeme ∈ a.lexemes := List.mem_map_of_mem hpart
  have hparts : part.toLexeme ∈ f.first.lexemes ++ Alternative.following f.others := by
    rcases List.mem_cons.1 ha with rfl | ha
    · exact List.mem_append_left _ hlexeme
    · exact List.mem_append_right _ (List.mem_append_left _
        (List.mem_flatMap.2 ⟨a, ha, List.mem_cons_of_mem _ hlexeme⟩))
  exact List.mem_flatMap.2 ⟨f, hf, List.mem_cons_of_mem _ (List.mem_cons_of_mem _ hparts)⟩

variable {startSymbol : String} {precedence : String → Option Precedence} {text : List Char}
  {rules : List Rule}

/-- The action of a rule that is read is a block of balanced braces. -/
theorem exists_braceBalanced_of_parse (h : parse startSymbol precedence text = .ok rules)
    {r : Rule} (hr : r ∈ rules) {code : String} (hcode : r.action = some code) :
    ∃ body, BraceBalanced body ∧ code.toList = '{' :: (body ++ ['}']) := by
  obtain ⟨forms, hforms⟩ := exists_spelled_of_parse h
  have hiff : (∃ r ∈ rules, r.action = some code) ↔
      ∃ x ∈ forms.flatMap Form.alternatives, x.2.action? = some code :=
    exists_alternative_iff h hforms (fun _ => Iff.rfl) (by simp [augmenting])
  obtain ⟨x, hx, haction⟩ := hiff.1 ⟨r, hr, hcode⟩
  have hpart := Alternative.action?_eq_some_iff.1 haction
  obtain ⟨chars, hwritten⟩ := Lexeme.Spelled.exists_written hforms (Form.mem_lexemes hx hpart)
  exact hwritten.exists_braceBalanced

/-- **What is handed over**: the action of a rule is legible if its section has no marks. -/
theorem legible_of_parse (h : parse startSymbol precedence text = .ok rules)
    (hmark : ¬ HasCommentMark text) {r : Rule} (hr : r ∈ rules) {code : String}
    (hcode : r.action = some code) : Legible code.toList := by
  obtain ⟨body, hbody, heq⟩ := exists_braceBalanced_of_parse h hr hcode
  have hunmarked : ¬ HasCommentMark code.toList := by
    intro hcodemark
    exact hmark (hasCommentMark_of_parse h ⟨r, hr, .inr ⟨code, hcode, hcodemark⟩⟩)
  rw [heq] at hunmarked ⊢
  exact hbody.legible_block hunmarked

end Rule

/-! ## Section 5: Specifications -/

namespace Grammar

/-- **The two readers of actions agree**: let the rules of a specification be read. Where the
    action of one of them cannot be read, a placeholder in it is out of range or at fault in
    itself, whatever number and length the rule is given. No quoted text and no comment is left
    open; so the specification is not refused for one either. -/
theorem placeholder_at_fault_of_split {spec : String} {s : Sections} {d : Declarations}
    {rules : List Rule} (hs : Sections.split spec.toList = .ok s)
    (hd : Declarations.parse s.declarations = .ok d)
    (hrules : Rule.parse s.startSymbol d.precedence.lookup s.rules = .ok rules) :
    (∀ r ∈ rules, ∀ code, r.action = some code → ∀ (i arity : Nat) (e : GrammarError),
      SemanticAction.parse code.toList i arity = .error e →
        (∃ index, e = .placeholderOutOfRange i index arity) ∨
          ∃ fault ∈ ActionFault.ofPlaceholder, e = .malformedAction i fault) ∧
    ∀ (k : Nat) (fault : ActionFault), parse spec = .error (.malformedAction k fault) →
      fault ∈ ActionFault.ofPlaceholder := by
  have hactions : ∀ r ∈ rules, ∀ code, r.action = some code → ∀ (i arity : Nat) (e : GrammarError),
      SemanticAction.parse code.toList i arity = .error e →
        (∃ index, e = .placeholderOutOfRange i index arity) ∨
          ∃ fault ∈ ActionFault.ofPlaceholder, e = .malformedAction i fault := by
    intro r hr code hcode i arity e he
    obtain ⟨commented, -, hstripped⟩ := Rule.exists_parseStripped_of_split hs
    rw [hstripped] at hrules
    obtain ⟨text, htext, hmark⟩ := Rule.exists_parse_of_parseStripped hrules
    exact Piece.of_readAll_eq_error (Rule.legible_of_parse htext hmark hr hcode)
      (map_eq_error_iff.1 he)
  refine ⟨hactions, ?_⟩
  intro k fault hparse
  -- of what refuses a specification here only the code of an action is malformed
  rcases terminalOnLeft_or_refuses_of_parse hs hd hrules hparse with
    ⟨name, -, hname⟩ | ⟨n, r, hr, ⟨x, -, -, hx⟩ | ⟨code, hcode, hread⟩⟩
  · simp at hname
  · simp at hx
  · rcases hactions r (List.mem_of_getElem? hr) code hcode n r.right.length _ hread with
      ⟨index, hindex⟩ | ⟨other, hother, heq⟩
    · simp at hindex
    · obtain ⟨-, rfl⟩ := GrammarError.malformedAction.inj heq
      exact hother

/-- An action with a brace in quotes, a quote in a line comment, and a tag that belongs to no
    placeholder. -/
def looseTag : String :=
  "%% s : 'a' \x7b x = \"\x7d\"; // it's\n y = '\x7b'; $<n>x \x7d ; %%"

/-- The action is handed over as a whole, and refused for its tag. -/
theorem placeholder_at_fault_of_split_looseTag :
    ∃ s d rules r code, Sections.split looseTag.toList = .ok s ∧
      Declarations.parse s.declarations = .ok d ∧
      Rule.parse s.startSymbol d.precedence.lookup s.rules = .ok rules ∧ r ∈ rules ∧
      r.action = some code ∧
      SemanticAction.parse code.toList 1 1 = .error (.malformedAction 1 .strayTag) ∧
      parse looseTag = .error (.malformedAction 1 .strayTag) ∧
      .strayTag ∈ ActionFault.ofPlaceholder := by
  have hread : ((Sections.split looseTag.toList).bind fun s =>
      (Declarations.parse s.declarations).bind fun d =>
        Rule.parse s.startSymbol d.precedence.lookup s.rules).map (fun rules => decide
          (∃ r ∈ rules, ∃ code ∈ r.action,
            SemanticAction.parse code.toList 1 1 = .error (.malformedAction 1 .strayTag))) =
        .ok true := by
    decide +kernel
  have hparse : parse looseTag = .error (.malformedAction 1 .strayTag) := by decide +kernel
  obtain ⟨rules, hstages, r, hr, code, hcode, hrefused⟩ := exists_of_map_decide hread
  obtain ⟨s, hs, hstages⟩ := bind_eq_ok_iff.1 hstages
  obtain ⟨d, hd, hrules⟩ := bind_eq_ok_iff.1 hstages
  obtain ⟨-, hfaults⟩ := placeholder_at_fault_of_split hs hd hrules
  exact ⟨s, d, rules, r, code, hs, hd, hrules, hr, hcode, hrefused, hparse, hfaults 1 _ hparse⟩

end Grammar

end SlrCompiler
