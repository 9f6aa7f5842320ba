import SlrCompiler.Proofs.Specification.Edits
import SlrCompiler.Proofs.Specification.LexemePlaces
import SlrCompiler.Proofs.Specification.RulesGrammar

/-! # Line numbers

    Blocks and comments are taken out of a specification before it is read, and still
    the lines that are reported are those of the specification.

    In what is left of a section, as many lines end in front of a place as in the
    section itself (`KeepsLines.lineCount_eq`). A rule has the line of the colon or bar
    that opens it: one lexeme adds at most one line to those of the alternatives
    (`Feeds.lines_eq`), and so a run adds those of its colons and bars
    (`lines_of_feedAll`). A section that is refused is refused at a place, and with its
    line (`exists_faultAt_of_parse`). Both together give the lines of the section
    before its comments were taken out (`lines_survive`).
-/

namespace SlrCompiler

open Text

/-! ## Section 1: The places of rules and of faults -/

/-- A colon or a bar opens an alternative. -/
def Lexeme.opens : Lexeme → Bool
  | .colon => true
  | .bar => true
  | _ => false

theorem Lexeme.Written.exists_mark {lexeme : Lexeme} {chars : List Char}
    (h : lexeme.Written chars) (hopens : lexeme.opens = true) :
    ∃ mark, chars = [mark] ∧ (mark = ':' ∨ mark = '|') := by
  cases h with
  | colon => exact ⟨':', rfl, .inl rfl⟩
  | bar => exact ⟨'|', rfl, .inr rfl⟩
  | @symbol s => cases s <;> simp [RuleSymbol.toLexeme, Lexeme.opens] at hopens
  | semicolon | action | prec => simp [Lexeme.opens] at hopens

namespace Rule

/-- An alternative is opened by a mark, and in front of the mark some were opened before. -/
structure OpenedAt (earlier : Nat) (before : List Char) (mark : Char) (after : List Char) :
    Prop where
  mark_eq : mark = ':' ∨ mark = '|'
  read : ∃ lexemes, Lexeme.ReadTo lexemes before (mark :: after) ∧
    (lexemes.filter Lexeme.opens).length = earlier

/-- A section is refused at a place, for a cause with the line of the place. -/
inductive FaultAt (startSymbol : String) (precedence : String → Option Precedence) :
    List Char → List Char → (Nat → GrammarError) → Prop
  /-- A lexeme is out of place; the place is its end. -/
  | lexeme {earlier : List PlacedLexeme} {p : PlacedLexeme} {reading : Reading} {fault : RuleFault}
      {before chars after : List Char} :
      Reading.feedAll precedence (.start startSymbol) earlier = .ok reading →
      Reading.feed precedence reading p = .error fault →
      Lexeme.ReadTo (earlier.map PlacedLexeme.lexeme) before (chars ++ after) →
      p.lexeme.Written chars → RunEnds chars after →
      FaultAt startSymbol precedence (before ++ chars) after (.malformedRule · fault)
  /-- What stands behind the lexemes is none. -/
  | text {earlier : List PlacedLexeme} {reading : Reading} {before u v : List Char}
      {fault : Nat → GrammarError} :
      Reading.feedAll precedence (.start startSymbol) earlier = .ok reading →
      Lexeme.ReadTo (earlier.map PlacedLexeme.lexeme) before (u ++ v) → Lexeme.Fails u v fault →
      FaultAt startSymbol precedence (before ++ u) v fault
  /-- The section ends within a rule. -/
  | ending {earlier : List PlacedLexeme} {reading : Reading} {text : List Char} :
      Reading.feedAll precedence (.start startSymbol) earlier = .ok reading →
      reading.place ≠ .between → Lexeme.Spelled (earlier.map PlacedLexeme.lexeme) text →
      FaultAt startSymbol precedence text [] (.malformedRule · .unterminatedRule)

/-! ## Section 2: The lines of rules -/

/-- An item that is kept stands behind all items that are kept before it. -/
theorem exists_of_getElem?_filter {α : Type} {q : α → Bool} {items : List α} {k : Nat} {x : α}
    (h : (items.filter q)[k]? = some x) : ∃ earlier later, items = earlier ++ x :: later ∧
      (earlier.filter q).length = k ∧ q x = true := by
  induction items generalizing k with
  | nil => simp at h
  | cons y items ih =>
    by_cases hy : q y = true
    · rw [List.filter_cons_of_pos hy] at h
      cases k with
      | zero =>
        obtain rfl : y = x := by simpa using h
        exact ⟨[], items, rfl, rfl, hy⟩
      | succ k =>
        obtain ⟨earlier, later, rfl, hcount, hx⟩ := ih (by simpa using h)
        exact ⟨y :: earlier, later, rfl, by simp [hy, hcount], hx⟩
    · rw [List.filter_cons_of_neg hy] at h
      obtain ⟨earlier, later, rfl, hcount, hx⟩ := ih h
      exact ⟨y :: earlier, later, rfl, by simp [hy, hcount], hx⟩

/-- The line of the alternative that is being read. -/
def Place.lines : Place → List Nat
  | .inside d => [d.line]
  | _ => []

namespace Reading

variable {startSymbol : String} {precedence : String → Option Precedence}

/-- The lines of the alternatives, those that are finished and the one that is being read. -/
def lines (r : Reading) : List Nat := r.rules.map Rule.line ++ r.place.lines

/-- **One lexeme** adds its line if it opens an alternative, and else none. -/
theorem Feeds.lines_eq {r next : Reading} {p : PlacedLexeme} (h : Feeds precedence r p next) :
    next.lines = r.lines ++ if p.lexeme.opens then [p.line] else [] := by
  cases h with
  | head hr hl => simp [lines, Place.lines, hr, hl, Lexeme.opens]
  | colon hr hl => simp [lines, Place.lines, hr, hl, Lexeme.opens, Draft.opened]
  | bar hr hl => simp [lines, Place.lines, hr, hl, Lexeme.opens, Draft.opened, Draft.close]
  | semicolon hr hl => simp [lines, Place.lines, hr, hl, Lexeme.opens, Draft.close]
  | @symbol d s hr hl =>
    cases s <;>
      simp [lines, Place.lines, hr, hl, RuleSymbol.toLexeme, Lexeme.opens, Draft.addSymbol]
  | action hr hl => simp [lines, Place.lines, hr, hl, Lexeme.opens]
  | prec hr hl => simp [lines, Place.lines, hr, hl, Lexeme.opens, Draft.addPrec]

/-- A run adds the lines of the lexemes that open alternatives. -/
theorem lines_of_feedAll {r last : Reading} {placed : List PlacedLexeme}
    (h : feedAll precedence r placed = .ok last) :
    last.lines = r.lines ++ (placed.filter (·.lexeme.opens)).map PlacedLexeme.line := by
  induction placed generalizing r with
  | nil =>
    obtain rfl := Except.ok.inj h
    simp
  | cons p rest ih =>
    unfold feedAll at h
    split at h
    · simp at h
    · rename_i next hnext
      rw [ih h, (feeds_of_feed hnext).lines_eq, List.filter_cons]
      split <;> simp

/-- A run that is refused has come to a lexeme that is out of place. -/
theorem exists_feed_of_feedAll {r : Reading} {placed : List PlacedLexeme} {e : GrammarError}
    (h : feedAll precedence r placed = .error e) :
    ∃ earlier p later reading fault, placed = earlier ++ p :: later ∧
      feedAll precedence r earlier = .ok reading ∧ feed precedence reading p = .error fault ∧
      e = .malformedRule p.line fault := by
  induction placed generalizing r with
  | nil => simp [feedAll] at h
  | cons p rest ih =>
    unfold feedAll at h
    split at h
    · rename_i fault hfault
      exact ⟨[], p, rest, r, fault, rfl, rfl, hfault, (Except.error.inj h).symm⟩
    · rename_i next hnext
      obtain ⟨earlier, q, later, reading, fault, rfl, hearlier, hfault, he⟩ := ih h
      exact ⟨p :: earlier, q, later, reading, fault, rfl, by rw [feedAll, hnext]; exact hearlier,
        hfault, he⟩

end Reading

section Parse

variable {startSymbol : String} {precedence : String → Option Precedence} {text : List Char}

/-- The lines of the rules are those of the colons and bars. -/
theorem lines_of_parse {rules : List Rule} (h : parse startSymbol precedence text = .ok rules) :
    rules.map Rule.line
      = 0 :: ((Lexeme.scan 1 text).lexemes.filter (·.lexeme.opens)).map PlacedLexeme.line := by
  simp only [parse] at h
  split at h
  · simp at h
  rename_i last hlast
  split at h
  · simp at h
  unfold Reading.finish at h
  split at h
  · rename_i hplace
    obtain rfl := Except.ok.inj h
    have hlines := Reading.lines_of_feedAll hlast
    simpa [Reading.lines, hplace, Place.lines, Reading.start, augmenting] using hlines
  · simp at h

/-- **The line of a rule** is that of the mark that opens it: the rule with as many others in
    front of it as its mark has other marks. -/
theorem exists_openedAt_of_parse {rules : List Rule}
    (h : parse startSymbol precedence text = .ok rules) :
    ∃ read, rules = augmenting startSymbol :: read ∧ ∀ k r, read[k]? = some r →
      ∃ before mark after, text = before ++ mark :: after ∧ OpenedAt k before mark after ∧
        r.line = 1 + lineCount before := by
  obtain ⟨read, rfl, -⟩ := proper_of_parse h
  refine ⟨read, rfl, fun k r hr => ?_⟩
  have hlines : read.map Rule.line = ((Lexeme.scan 1 text).lexemes.filter
      (·.lexeme.opens)).map PlacedLexeme.line := (List.cons.inj (lines_of_parse h)).2
  have hline := congrArg (·[k]?) hlines
  simp only [List.getElem?_map, hr, Option.map_some] at hline
  obtain ⟨p, hp, hpline⟩ := Option.map_eq_some_iff.1 hline.symm
  obtain ⟨earlier, later, hscan, hcount, hopens⟩ := exists_of_getElem?_filter hp
  obtain ⟨before, chars, after, rfl, hbefore, hwritten, -, hplace⟩ :=
    Lexeme.exists_place_of_scan hscan
  obtain ⟨mark, rfl, hmark⟩ := hwritten.exists_mark hopens
  have hnewline : lineCount [mark] = 0 := by rcases hmark with rfl | rfl <;> decide
  refine ⟨before, mark, after, rfl, ⟨hmark, _, hbefore, ?_⟩, ?_⟩
  · rw [← hcount, List.filter_map, List.length_map]
    rfl
  · rw [← hpline, hplace, lineCount_append, hnewline, Nat.add_zero]

/-- **The line of a refusal** is that of a place where something is wrong. -/
theorem exists_faultAt_of_parse {e : GrammarError}
    (h : parse startSymbol precedence text = .error e) :
    ∃ before after fault, text = before ++ after ∧
      FaultAt startSymbol precedence before after fault ∧ e = fault (1 + lineCount before) := by
  simp only [parse] at h
  -- The reader refuses a lexeme, or what follows the last lexeme, or the end of the text.
  split at h
  · rename_i hfeed
    obtain rfl := Except.error.inj h
    obtain ⟨earlier, p, later, reading, fault, hscan, hearlier, hfault, rfl⟩ :=
      Reading.exists_feed_of_feedAll hfeed
    obtain ⟨before, chars, after, rfl, hbefore, hwritten, hends, hplace⟩ :=
      Lexeme.exists_place_of_scan hscan
    exact ⟨before ++ chars, after, (.malformedRule · fault), (List.append_assoc ..).symm,
      .lexeme hearlier hfault hbefore hwritten hends, by rw [hplace]⟩
  rename_i reading hreading
  split at h
  · rename_i hending
    obtain rfl := Except.error.inj h
    obtain ⟨before, u, v, fault, htext, hbefore, hfails, he⟩ := Lexeme.exists_fails_of_scan hending
    exact ⟨before ++ u, v, fault, by rw [htext, List.append_assoc], .text hreading hbefore hfails,
      he⟩
  · rename_i last hending
    unfold Reading.finish at h
    split at h
    · simp at h
    · rename_i hplace
      refine ⟨text, [], (.malformedRule · .unterminatedRule), (List.append_nil _).symm,
        .ending hreading hplace (Lexeme.spelled_of_scan hending), ?_⟩
      rw [← Lexeme.line_of_scan hending]
      exact (Except.error.inj h).symm

end Parse

end Rule

/-! ## Section 3: Lines before comments and blocks go -/

section Lines

open Edit

variable {text out : List Char} {edits : List Edit}

/-- In front of a place as many lines have been left as there were. -/
theorem lineCount_of_keepsLines {us vs : List Edit} (h : KeepsLines edits)
    (hedits : edits = us ++ vs) : lineCount (result us) = lineCount (source us) := by
  rw [hedits, keepsLines_append_iff] at h
  exact h.1.lineCount_eq

/-- Every mark of a rule was in the section, for only blanks are put in. -/
theorem exists_keep_of_mark (h : CommentEdits text edits) {before after : List Char} {mark : Char}
    (hmark : mark ≠ ' ') (hresult : result edits = before ++ mark :: after) :
    ∃ us vs, edits = us ++ .keep mark :: vs ∧ result us = before ∧ result vs = after := by
  obtain ⟨us, vs, hkept | hadded, hus⟩ := exists_of_result_eq_cons hresult
  · refine ⟨us, vs, hkept, hus, ?_⟩
    rw [hkept, result_append, hus, result_keep] at hresult
    simpa using hresult
  · have hmem : Edit.add mark ∈ edits := by simp [hadded]
    exact absurd (h.eq_of_mem_add hmem) hmark

/-- **Line numbers** survive. A character that is left of a declarations section has as many
    line ends in front of it as it had there. A rule has the line that its mark had in the rules
    section before the comments went, and a refusal has the line that its place had there. -/
theorem lines_survive :
    (∀ text b, Blocks.ofText text = .ok b → ∃ edits, Blocks.Edits text edits ∧
      source edits = text ∧ result edits = b.directives ∧
      ∀ us c vs, edits = us ++ .keep c :: vs → lineCount (result us) = lineCount (source us)) ∧
    ∀ text out startSymbol precedence, stripComments text = some out → ∃ edits,
      CommentEdits text edits ∧ source edits = text ∧ result edits = out ∧
      (∀ rules, Rule.parse startSymbol precedence out = .ok rules →
        ∃ read, rules = Rule.augmenting startSymbol :: read ∧ ∀ k r, read[k]? = some r →
          ∃ us mark vs, edits = us ++ .keep mark :: vs ∧
            Rule.OpenedAt k (result us) mark (result vs) ∧ r.line = 1 + lineCount (source us)) ∧
      ∀ e, Rule.parse startSymbol precedence out = .error e →
        ∃ us vs fault, edits = us ++ vs ∧
          Rule.FaultAt startSymbol precedence (result us) (result vs) fault ∧
          e = fault (1 + lineCount (source us)) := by
  refine ⟨fun text b h => ?_, fun text out startSymbol precedence h => ?_⟩
  · obtain ⟨edits, hedits, hresult⟩ := Blocks.exists_edits_of_ofText h
    obtain ⟨hsource, hlines⟩ := hedits.source_and_lines
    exact ⟨edits, hedits, hsource, hresult, fun us c vs => lineCount_of_keepsLines hlines⟩
  · obtain ⟨edits, hedits, rfl⟩ := (stripComments_eq_some_iff.1 h).exists_edits
    refine ⟨edits, hedits, hedits.source_eq, rfl, fun rules hrules => ?_, fun e he => ?_⟩
    · obtain ⟨read, rfl, hread⟩ := Rule.exists_openedAt_of_parse hrules
      refine ⟨read, rfl, fun k r hr => ?_⟩
      obtain ⟨before, mark, after, hresult, hopened, hline⟩ := hread k r hr
      have hmark : mark ≠ ' ' := by rcases hopened.mark_eq with rfl | rfl <;> decide
      obtain ⟨us, vs, hplace, rfl, rfl⟩ := exists_keep_of_mark hedits hmark hresult
      refine ⟨us, mark, vs, hplace, hopened, ?_⟩
      rw [hline, lineCount_of_keepsLines hedits.keepsLines hplace]
    · obtain ⟨before, after, fault, hresult, hfault, rfl⟩ := Rule.exists_faultAt_of_parse he
      obtain ⟨us, vs, hplace, rfl, rfl⟩ := exists_of_result_eq_append hresult
      refine ⟨us, vs, fault, hplace, hfault, ?_⟩
      rw [lineCount_of_keepsLines hedits.keepsLines hplace]

/-- A literal block that a mark for comments stands in, a union and a comment, on two lines each;
    and a comment on two lines in front of a bar, and in front of a stray brace. -/
theorem lines_survive_long_comments :
    let declarations := "%\x7b\n/* %\x7d\n%union \x7b int i;\n\x7d /* b\nc */ %token X".toList
    let read := "\ns : A /* first\nsecond */ | B ;".toList
    let refused := "\ns : A /* first\nsecond */ \x7d ;".toList
    (∃ b edits, Blocks.ofText declarations = .ok b ∧ b.directives = "\n\n\n  \n %token X".toList ∧
      Blocks.Edits declarations edits ∧ source edits = declarations ∧
      result edits = b.directives ∧
      ∀ us c vs, edits = us ++ .keep c :: vs → lineCount (result us) = lineCount (source us)) ∧
    (∃ out edits us mark vs first second,
      stripComments read = some out ∧ CommentEdits read edits ∧
      Rule.parse "s" (fun _ => none) out = .ok [.augmenting "s", first, second] ∧
      edits = us ++ .keep mark :: vs ∧ Rule.OpenedAt 1 (result us) mark (result vs) ∧
      second.line = 3 ∧ second.line = 1 + lineCount (source us)) ∧
    ∃ out edits us vs fault, stripComments refused = some out ∧ CommentEdits refused edits ∧
      Rule.parse "s" (fun _ => none) out = .error (.unexpectedCloseBrace 3) ∧
      edits = us ++ vs ∧ Rule.FaultAt "s" (fun _ => none) (result us) (result vs) fault ∧
      .unexpectedCloseBrace 3 = fault (1 + lineCount (source us)) := by
  intro declarations read refused
  refine ⟨?_, ?_, ?_⟩
  · have hcut : (Blocks.ofText declarations).map
        (fun b => decide (b.directives = "\n\n\n  \n %token X".toList)) = .ok true := by
      decide +kernel
    obtain ⟨b, hb, hdirectives⟩ := exists_of_map_decide hcut
    obtain ⟨edits, hedits⟩ := lines_survive.1 declarations b hb
    exact ⟨b, edits, hb, hdirectives, hedits⟩
  · have hout : stripComments read = some "\ns : A  \n | B ;".toList := by decide +kernel
    obtain ⟨edits, hedits, -, -, hrules, -⟩ := lines_survive.2 read _ "s" (fun _ => none) hout
    let first : Rule := ⟨"s", [.name "A"], none, none, 2⟩
    let second : Rule := ⟨"s", [.name "B"], none, none, 3⟩
    have hparse : Rule.parse "s" (fun _ => none) "\ns : A  \n | B ;".toList
        = .ok [.augmenting "s", first, second] := by
      decide +kernel
    obtain ⟨others, hothers, hplaces⟩ := hrules _ hparse
    obtain rfl := (List.cons.inj hothers).2
    obtain ⟨us, mark, vs, hplace, hopened, hline⟩ := hplaces 1 second rfl
    exact ⟨_, edits, us, mark, vs, first, second, hout, hedits, hparse, hplace, hopened, rfl, hline⟩
  · have hout : stripComments refused = some "\ns : A  \n \x7d ;".toList := by decide +kernel
    obtain ⟨edits, hedits, -, -, -, hrefusals⟩ :=
      lines_survive.2 refused _ "s" (fun _ => none) hout
    have hparse : Rule.parse "s" (fun _ => none) "\ns : A  \n \x7d ;".toList
        = .error (.unexpectedCloseBrace 3) := by
      decide +kernel
    obtain ⟨us, vs, fault, hplace, hfault, hline⟩ := hrefusals _ hparse
    exact ⟨_, edits, us, vs, fault, hout, hedits, hparse, hplace, hfault, hline⟩

end Lines

end SlrCompiler
