import SlrCompiler.Proofs.Finite.FirstAppearance
import SlrCompiler.Proofs.Specification.Lexemes
import SlrCompiler.Specification.Sections

/-! # The names in rules

    What a rules section can hold as a name: a left side is an identifier, and
    a symbol of a right side is an identifier or a quoted literal. The reserved
    names `$accept` and `$end` are neither, so no rule can speak of them; only
    the augmenting rule, which is not read from the text, has `$accept` on its
    left.

    The argument follows the reader: every lexeme is proper (`proper_of_scan`),
    one step keeps the alternatives proper (`feed_proper`), and so does the
    whole run (`proper_of_parse`). What a step can do at all is listed once
    (`feeds_of_feed`), and no other argument unfolds it. The precedence of a rule
    is found in the same way (`precedence_eq_inherited_of_parse`).
-/

namespace SlrCompiler

open Text

/-! ## Section 1: Lexemes -/

/-- The argument of a `%prec` clause. -/
def Lexeme.precArgument? : Lexeme → Option String
  | .prec argument => some argument
  | _ => none

/-- The arguments of the `%prec` clauses of a specification. -/
def precArguments (spec : String) : List String :=
  match Sections.split spec.toList with
  | .error _ => []
  | .ok s => (Lexeme.scan 1 s.rules).lexemes.filterMap fun p => p.lexeme.precArgument?

/-- A name is an identifier, and a literal begins with its quote. -/
def Lexeme.Proper : Lexeme → Prop
  | .name text => isIdentifier text.toList = true
  | .literal text => text.toList.head? = some '\''
  | _ => True

namespace Lexeme

theorem Written.proper {lexeme : Lexeme} {text : List Char} (h : Written lexeme text) :
    lexeme.Proper := by
  cases h with
  | symbol hs =>
    cases hs with
    | name hname => simpa [Proper, RuleSymbol.toLexeme] using hname
    | literal _ => simp [Proper, RuleSymbol.toLexeme]
  | colon | bar | semicolon | action | prec => trivial

theorem proper_of_scan {line : Nat} {text : List Char} :
    ∀ placed ∈ (scan line text).lexemes, placed.lexeme.Proper := by
  fun_induction scan line text with
  | case1 => simp
  | case2 => simp
  | case3 line text placed rest hnext tail ih =>
    obtain ⟨_, _, -, hwritten, -⟩ := exists_written_of_next hnext
    exact List.forall_mem_cons.2 ⟨hwritten.proper, ih⟩

end Lexeme

/-! ## Section 2: Alternatives -/

/-- A name is an identifier, and a literal begins with its quote. -/
def RuleSymbol.Proper : RuleSymbol → Prop
  | .name text => isIdentifier text.toList = true
  | .literal text => text.toList.head? = some '\''

theorem RuleSymbol.Proper.text_ne {s : RuleSymbol} (h : s.Proper) :
    s.text ≠ acceptName ∧ s.text ≠ endName := by
  have haccept : acceptName.toList = ['$', 'a', 'c', 'c', 'e', 'p', 't'] := by decide
  have hend : endName.toList = ['$', 'e', 'n', 'd'] := by decide
  have hdollar : isIdentifierChar '$' = false := by decide
  cases s with
  | literal text =>
    refine ⟨fun heq => ?_, fun heq => ?_⟩ <;>
      (obtain rfl : text = _ := heq; simp [Proper, haccept, hend] at h)
  | name text =>
    refine ⟨fun heq => ?_, fun heq => ?_⟩ <;>
      (obtain rfl : text = _ := heq; simp [Proper, isIdentifier, haccept, hend, hdollar] at h)

namespace Rule

/-- The left side is an identifier, and the symbols of the right side are proper. -/
structure Proper (r : Rule) : Prop where
  left : isIdentifier r.left.toList = true
  right : ∀ s ∈ r.right, s.Proper

/-- What has been read of a rule so far is proper. -/
def Place.Proper : Place → Prop
  | .between => True
  | .named left => isIdentifier left.toList = true
  | .inside d => d.close.Proper

/-- All alternatives that are finished are proper, but for the augmenting one. -/
structure Reading.Proper (startSymbol : String) (r : Reading) : Prop where
  place : r.place.Proper
  rules : ∃ read, r.rules = augmenting startSymbol :: read ∧ ∀ x ∈ read, x.Proper

theorem Draft.proper_opened {left : String} (h : isIdentifier left.toList = true) (line : Nat) :
    (Draft.opened left line).close.Proper :=
  ⟨h, by simp [Draft.opened, Draft.close]⟩

theorem Draft.proper_addSymbol {d : Draft} {s : RuleSymbol}
    (precedence : String → Option Precedence) (hd : d.close.Proper) (hs : s.Proper) :
    (d.addSymbol precedence s).close.Proper := by
  refine ⟨hd.left, fun x hx => ?_⟩
  rcases List.mem_append.1 hx with hx | hx
  · exact hd.right x hx
  · rw [List.mem_singleton.1 hx]
    exact hs

namespace Reading

variable {startSymbol : String} {precedence : String → Option Precedence}

/-- What a lexeme that is not out of place does to the state of reading. -/
inductive Feeds (precedence : String → Option Precedence) (r : Reading) (p : PlacedLexeme) :
    Reading → Prop
  | head {text : String} : r.place = .between → p.lexeme = .name text →
      Feeds precedence r p { r with place := .named text }
  | colon {left : String} : r.place = .named left → p.lexeme = .colon →
      Feeds precedence r p { r with place := .inside (.opened left p.line) }
  | bar {d : Draft} : r.place = .inside d → p.lexeme = .bar →
      Feeds precedence r p ⟨.inside (.opened d.left p.line), r.rules ++ [d.close]⟩
  | semicolon {d : Draft} : r.place = .inside d → p.lexeme = .semicolon →
      Feeds precedence r p ⟨.between, r.rules ++ [d.close]⟩
  | symbol {d : Draft} {s : RuleSymbol} : r.place = .inside d → p.lexeme = s.toLexeme →
      Feeds precedence r p { r with place := .inside (d.addSymbol precedence s) }
  | action {d : Draft} {text : String} : r.place = .inside d → p.lexeme = .action text →
      d.action = none →
      Feeds precedence r p { r with place := .inside { d with action := some text } }
  | prec {d : Draft} {argument : String} : r.place = .inside d → p.lexeme = .prec argument →
      Feeds precedence r p { r with place := .inside (d.addPrec precedence argument) }

/-- **One step** of reading does one of these seven things, or is refused. -/
theorem feeds_of_feed {r next : Reading} {p : PlacedLexeme}
    (h : feed precedence r p = .ok next) : r.Feeds precedence p next := by
  -- Each place admits a few lexemes; all others are refused.
  cases hr : r.place with
  | between =>
    cases hl : p.lexeme <;> simp only [feed, hl, hr, reduceCtorEq, Except.ok.injEq] at h
    case name text => exact h ▸ .head hr hl
  | named left =>
    cases hl : p.lexeme <;> simp only [feed, hl, hr, reduceCtorEq, Except.ok.injEq] at h
    case colon => exact h ▸ .colon hr hl
  | inside d =>
    cases hl : p.lexeme <;> simp only [feed, hl, hr, reduceCtorEq, Except.ok.injEq] at h
    case bar => exact h ▸ .bar hr hl
    case semicolon => exact h ▸ .semicolon hr hl
    case literal text => exact h ▸ .symbol (s := .literal text) hr hl
    case action text =>
      split at h
      · simp at h
      · rename_i haction
        exact Except.ok.inj h ▸ .action hr hl (Option.not_isSome_iff_eq_none.1 haction)
    case prec argument => exact h ▸ .prec hr hl
    case name text => exact h ▸ .symbol (s := .name text) hr hl

theorem Proper.close {r : Reading} {d : Draft} (h : r.Proper startSymbol) (hd : d.close.Proper)
    {place : Place} (hplace : place.Proper) :
    Proper startSymbol ⟨place, r.rules ++ [d.close]⟩ := by
  obtain ⟨read, heq, hread⟩ := h.rules
  refine ⟨hplace, read ++ [d.close], by rw [heq, List.cons_append], fun x hx => ?_⟩
  rcases List.mem_append.1 hx with hx | hx
  · exact hread x hx
  · rw [List.mem_singleton.1 hx]
    exact hd

/-- One proper lexeme keeps everything proper. -/
theorem feed_proper {r next : Reading} {p : PlacedLexeme} (h : r.Proper startSymbol)
    (hp : p.lexeme.Proper) (hnext : feed precedence r p = .ok next) :
    next.Proper startSymbol := by
  have hplace := h.place
  cases feeds_of_feed hnext with
  | head hr hl =>
    rw [hl] at hp
    exact ⟨hp, h.rules⟩
  | colon hr hl =>
    rw [hr] at hplace
    exact ⟨Draft.proper_opened hplace p.line, h.rules⟩
  | bar hr hl =>
    rw [hr] at hplace
    exact h.close hplace (Draft.proper_opened hplace.left p.line)
  | semicolon hr hl =>
    rw [hr] at hplace
    exact h.close hplace trivial
  | @symbol d s hr hl =>
    rw [hr] at hplace
    have hs : s.Proper := by
      rw [hl] at hp
      cases s <;> exact hp
    exact ⟨Draft.proper_addSymbol precedence hplace hs, h.rules⟩
  | action hr hl =>
    rw [hr] at hplace
    exact ⟨⟨hplace.left, hplace.right⟩, h.rules⟩
  | prec hr hl =>
    rw [hr] at hplace
    exact ⟨⟨hplace.left, hplace.right⟩, h.rules⟩

/-- What every lexeme keeps is kept by a run. -/
theorem feedAll_induction {motive : Reading → Prop} {r last : Reading}
    {lexemes : List PlacedLexeme} (hstart : motive r)
    (hstep : ∀ p ∈ lexemes, ∀ r next, motive r → feed precedence r p = .ok next → motive next)
    (hlast : feedAll precedence r lexemes = .ok last) : motive last := by
  induction lexemes generalizing r with
  | nil => exact Except.ok.inj hlast ▸ hstart
  | cons p rest ih =>
    unfold feedAll at hlast
    split at hlast
    · simp at hlast
    · rename_i next hnext
      have hkept := hstep p List.mem_cons_self r next hstart hnext
      exact ih hkept (fun q hq => hstep q (List.mem_cons_of_mem p hq)) hlast

end Reading

/-- What every lexeme of the text keeps holds of the reading whose rules are the
    result. -/
theorem parse_induction {startSymbol : String} {precedence : String → Option Precedence}
    {text : List Char} {rules : List Rule} {motive : Reading → Prop}
    (hstart : motive (.start startSymbol))
    (hstep : ∀ p ∈ (Lexeme.scan 1 text).lexemes, ∀ r next, motive r →
      Reading.feed precedence r p = .ok next → motive next)
    (h : parse startSymbol precedence text = .ok rules) :
    ∃ last, motive last ∧ last.rules = rules := by
  simp only [parse] at h
  split at h
  · simp at h
  · rename_i last hlast
    split at h
    · simp at h
    · unfold Reading.finish at h
      split at h
      · exact ⟨last, Reading.feedAll_induction hstart hstep hlast, Except.ok.inj h⟩
      · simp at h

/-- **Names in rules**: a rules section gives the augmenting rule, and after it
    proper ones. -/
theorem proper_of_parse {startSymbol : String} {precedence : String → Option Precedence}
    {text : List Char} {rules : List Rule} (h : parse startSymbol precedence text = .ok rules) :
    ∃ read, rules = augmenting startSymbol :: read ∧ ∀ x ∈ read, x.Proper := by
  have hstart : (Reading.start startSymbol).Proper startSymbol := ⟨trivial, [], rfl, by simp⟩
  obtain ⟨last, hlast, rfl⟩ := parse_induction hstart
    (fun p hp r next hr hnext => Reading.feed_proper hr (Lexeme.proper_of_scan p hp) hnext) h
  exact hlast.rules

theorem mem_leftSides {name : String} {rules : List Rule} :
    name ∈ leftSides rules ↔ ∃ r ∈ rules, r.left = name := by
  rw [leftSides, List.mem_eraseDups, List.mem_map]

/-- No rule that is read has `$accept` on its left. -/
theorem leftSides_augmenting {startSymbol : String} {read : List Rule}
    (h : ∀ r ∈ read, r.Proper) :
    leftSides (augmenting startSymbol :: read) = acceptName :: (read.map Rule.left).eraseDups := by
  refine eraseDups_cons_of_notMem fun hmem => ?_
  obtain ⟨r, hr, hleft⟩ := List.mem_map.1 hmem
  have hproper : (RuleSymbol.name r.left).Proper := (h r hr).left
  exact hproper.text_ne.1 hleft

/-! ## Section 3: The precedence of a rule -/

/-- The precedence of the last symbol that has one. -/
def inherited (precedence : String → Option Precedence) (right : List RuleSymbol) :
    Option Precedence :=
  right.foldl (fun last s => (precedence s.text).or last) none

/-- All that has been read but the augmenting rule inherits its precedence. -/
structure Reading.Inherits (startSymbol : String) (precedence : String → Option Precedence)
    (r : Reading) : Prop where
  draft : ∀ d, r.place = .inside d →
    d.inherited = inherited precedence d.right ∧ d.overridden = none
  rules : ∀ x ∈ r.rules, x = augmenting startSymbol ∨ x.precedence = inherited precedence x.right

section Inherits

variable {startSymbol : String} {precedence : String → Option Precedence}

theorem Reading.Inherits.close {r : Reading} {d : Draft} (h : r.Inherits startSymbol precedence)
    (hr : r.place = .inside d) : ∀ x ∈ r.rules ++ [d.close],
      x = augmenting startSymbol ∨ x.precedence = inherited precedence x.right := by
  intro x hx
  rcases List.mem_append.1 hx with hx | hx
  · exact h.rules x hx
  · obtain ⟨hinherited, hoverridden⟩ := h.draft d hr
    rw [List.mem_singleton.1 hx, Draft.close, hinherited, hoverridden]
    exact .inr rfl

/-- A `%prec` argument without precedence changes nothing, and neither does any other
    lexeme. -/
theorem Reading.feed_inherits {r next : Reading} {p : PlacedLexeme}
    (h : r.Inherits startSymbol precedence)
    (hprec : ∀ argument, p.lexeme = .prec argument → precedence argument = none)
    (hnext : feed precedence r p = .ok next) : next.Inherits startSymbol precedence := by
  cases feeds_of_feed hnext with
  | head hr hl => exact ⟨by simp, h.rules⟩
  | colon hr hl => exact ⟨by simp [Draft.opened, inherited], h.rules⟩
  | bar hr hl => exact ⟨by simp [Draft.opened, inherited], h.close hr⟩
  | semicolon hr hl => exact ⟨by simp, h.close hr⟩
  | symbol hr hl =>
    exact ⟨by simp [Draft.addSymbol, inherited, List.foldl_append, h.draft _ hr], h.rules⟩
  | action hr hl => exact ⟨by simp [h.draft _ hr], h.rules⟩
  | prec hr hl => exact ⟨by simp [Draft.addPrec, hprec _ hl, h.draft _ hr], h.rules⟩

/-- **The precedence of a rule**: where no `%prec` argument has a precedence, a rule
    has that of the last symbol with one. -/
theorem precedence_eq_inherited_of_parse {text : List Char} {rules : List Rule}
    (hprec : ∀ p ∈ (Lexeme.scan 1 text).lexemes, ∀ argument, p.lexeme = .prec argument →
      precedence argument = none)
    (h : parse startSymbol precedence text = .ok rules) :
    ∀ x ∈ rules, x = augmenting startSymbol ∨ x.precedence = inherited precedence x.right := by
  have hstart : (Reading.start startSymbol).Inherits startSymbol precedence :=
    ⟨by simp [Reading.start], fun x hx => .inl (List.mem_singleton.1 hx)⟩
  obtain ⟨last, hlast, rfl⟩ := parse_induction hstart
    (fun p hp r next hr hnext => Reading.feed_inherits hr (hprec p hp) hnext) h
  exact hlast.rules

theorem inherited_eq_none (hnone : ∀ name, precedence name = none) (right : List RuleSymbol) :
    inherited precedence right = none := by
  unfold inherited
  induction right with
  | nil => rfl
  | cons s rest ih => rwa [List.foldl_cons, hnone]

/-- If no name has a precedence, no rule has one. -/
theorem precedence_eq_none_of_parse (hnone : ∀ name, precedence name = none)
    {text : List Char} {rules : List Rule} (h : parse startSymbol precedence text = .ok rules) :
    ∀ x ∈ rules, x.precedence = none := by
  intro x hx
  rcases precedence_eq_inherited_of_parse (fun _ _ argument _ => hnone argument) h x hx with
    rfl | hinherited
  · rfl
  · rw [hinherited, inherited_eq_none hnone]

end Inherits

end Rule

end SlrCompiler
