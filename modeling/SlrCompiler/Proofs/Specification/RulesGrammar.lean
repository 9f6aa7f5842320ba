import SlrCompiler.Proofs.Specification.Rule

/-! # The grammar of rules

    A rules section is a sequence of rules `name : alternative | … | alternative ;`,
    and an alternative is a sequence of names, literals and `%prec` clauses with at
    most one action. `Form` is a rule in this shape, and `Form.Spelled` says that a
    text is a sequence of them. The reader accepts exactly such texts, and gives one
    rule for each alternative (`parse_iff_spelled`).

    Where the reader stands in a rule decides which lexemes may follow
    (`Place.Continues`). That is kept backwards along a run (`Feeds.continues`), so
    a run that ends between two rules has read a sequence of rules. The other way
    round, each piece of a rule has a lemma that says what the reader makes of it,
    from the parts of an alternative (`feedAll_parts`) up to all rules
    (`exists_feedAll_forms`).
-/

namespace SlrCompiler

open Text

namespace Rule

/-! ## Section 1: Rules as they are written -/

/-- What may stand in an alternative. -/
inductive Part where
  | symbol (s : RuleSymbol)
  | prec (argument : String)
  | action (text : String)
  deriving DecidableEq

namespace Part

@[simp] def toLexeme : Part → Lexeme
  | .symbol s => s.toLexeme
  | .prec argument => .prec argument
  | .action text => .action text

@[simp] def symbol? : Part → Option RuleSymbol
  | .symbol s => some s
  | _ => none

@[simp] def precArgument? : Part → Option String
  | .prec argument => some argument
  | _ => none

@[simp] def action? : Part → Option String
  | .action text => some text
  | _ => none

end Part

/-- An alternative as it is written. It has at most one action. -/
structure Alternative where
  parts : List Part
  oneAction : (parts.filterMap Part.action?).length ≤ 1

namespace Alternative

def lexemes (a : Alternative) : List Lexeme := a.parts.map Part.toLexeme

/-- The names and literals, in order. -/
def symbols (a : Alternative) : List RuleSymbol := a.parts.filterMap Part.symbol?

/-- The arguments of the `%prec` clauses, in order. -/
def precArguments (a : Alternative) : List String := a.parts.filterMap Part.precArgument?

/-- The action's text, if there is one. -/
def action? (a : Alternative) : Option String := (a.parts.filterMap Part.action?).head?

/-- The precedence of the last `%prec` argument that has one, and otherwise that of the
    last symbol that has one. -/
def precedence (precedence : String → Option Precedence) (a : Alternative) : Option Precedence :=
  (a.precArguments.reverse.findSome? precedence).or
    (a.symbols.reverse.findSome? fun s => precedence s.text)

/-- The lexemes of the alternatives after the first, up to the end of the rule. -/
def following (others : List Alternative) : List Lexeme :=
  others.flatMap (fun a => .bar :: a.lexemes) ++ [.semicolon]

end Alternative

/-- A rule as it is written: a left side, a first alternative and the others. -/
structure Form where
  left : String
  first : Alternative
  others : List Alternative

namespace Form

def lexemes (f : Form) : List Lexeme :=
  .name f.left :: .colon :: (f.first.lexemes ++ Alternative.following f.others)

/-- The alternatives in order, each with the left side. -/
def alternatives (f : Form) : List (String × Alternative) :=
  (f.first :: f.others).map fun a => (f.left, a)

/-- The text is a sequence of rules, with blanks in between. -/
def Spelled (forms : List Form) (text : List Char) : Prop :=
  Lexeme.Spelled (forms.flatMap lexemes) text

end Form

/-! ## Section 2: Alternatives are read part by part -/

namespace Draft

/-- Takes up a part of an alternative. -/
def take (precedence : String → Option Precedence) (d : Draft) : Part → Draft
  | .symbol s => d.addSymbol precedence s
  | .prec argument => d.addPrec precedence argument
  | .action text => { d with action := some text }

/-- There is at most one action in what has been read and what is left of an alternative. -/
def OneAction (d : Draft) (parts : List Part) : Prop :=
  (d.action.toList ++ parts.filterMap Part.action?).length ≤ 1

variable {precedence : String → Option Precedence} {d : Draft}

theorem oneAction_nil : d.OneAction [] := by
  cases h : d.action <;> simp [OneAction, h]

theorem oneAction_opened_iff {left : String} {line : Nat} {parts : List Part} :
    (opened left line).OneAction parts ↔ (parts.filterMap Part.action?).length ≤ 1 := by
  simp [OneAction, opened]

theorem oneAction_cons_iff (precedence : String → Option Precedence) {part : Part}
    {parts : List Part} : d.OneAction (part :: parts) ↔
    (part.action?.isSome = true → d.action = none) ∧ (d.take precedence part).OneAction parts := by
  cases part with
  | symbol s => simp [OneAction, take, addSymbol, List.filterMap_cons]
  | prec argument => simp [OneAction, take, addPrec, List.filterMap_cons]
  | action text => cases h : d.action <;> simp [OneAction, take, h]

/-- Symbols and `%prec` arguments are collected apart from each other. -/
theorem foldl_take (parts : List Part) (d : Draft) :
    parts.foldl (take precedence) d =
      { d with
        right := d.right ++ parts.filterMap Part.symbol?
        action := (parts.filterMap Part.action?).getLast?.or d.action
        inherited :=
          ((parts.filterMap Part.symbol?).reverse.findSome? fun s => precedence s.text).or
            d.inherited
        overridden :=
          ((parts.filterMap Part.precArgument?).reverse.findSome? precedence).or
            d.overridden } := by
  induction parts generalizing d with
  | nil => simp
  | cons part parts ih =>
    rw [List.foldl_cons, ih]
    cases part <;>
      simp [take, addSymbol, addPrec, List.filterMap_cons, List.findSome?_append, Option.or_assoc,
        List.getLast?_cons]

end Draft

/-- The rule of an alternative, but for its line. -/
def Alternative.rule (precedence : String → Option Precedence) (left : String) (a : Alternative) :
    Rule where
  left := left
  right := a.symbols
  action := a.action?
  precedence := a.precedence precedence
  line := 0

/-- The finished draft of an alternative is its rule. -/
theorem Draft.close_foldl_take (precedence : String → Option Precedence) (left : String)
    (line : Nat) (a : Alternative) : (a.parts.foldl (take precedence) (opened left line)).close =
      { a.rule precedence left with line := line } := by
  have haction : (a.parts.filterMap Part.action?).getLast? = a.action? := by
    have hone := a.oneAction
    rw [Alternative.action?]
    match h : a.parts.filterMap Part.action? with
    | [] => rfl
    | [text] => rfl
    | text :: other :: rest => simp [h] at hone
  simp [foldl_take, opened, close, Alternative.rule, Alternative.symbols, Alternative.precedence,
    Alternative.precArguments, haction]

/-! ## Section 3: What is read is a sequence of rules -/

/-- What may follow at a place of a rule. -/
def Place.Continues : Place → List Lexeme → Prop
  | .between, lexemes => ∃ forms, lexemes = List.flatMap Form.lexemes forms
  | .named _, lexemes =>
    ∃ (first : Alternative) (others : List Alternative) (forms : List Form),
      lexemes = .colon :: (first.lexemes ++ Alternative.following others) ++
        forms.flatMap Form.lexemes
  | .inside d, lexemes =>
    ∃ (parts : List Part) (others : List Alternative) (forms : List Form), d.OneAction parts ∧
      lexemes = parts.map Part.toLexeme ++ Alternative.following others ++
        forms.flatMap Form.lexemes

namespace Reading

variable {precedence : String → Option Precedence}

/-- A part goes before what may follow within an alternative. -/
theorem continues_inside (precedence : String → Option Precedence) {d : Draft} (part : Part)
    {lexemes : List Lexeme}
    (haction : part.action?.isSome = true → d.action = none)
    (h : Place.Continues (.inside (d.take precedence part)) lexemes) :
    Place.Continues (.inside d) (part.toLexeme :: lexemes) := by
  obtain ⟨parts, others, forms, hone, rfl⟩ := h
  exact ⟨part :: parts, others, forms, (Draft.oneAction_cons_iff precedence).2 ⟨haction, hone⟩, rfl⟩

/-- One lexeme goes before what may follow. -/
theorem Feeds.continues {r next : Reading} {p : PlacedLexeme} {lexemes : List Lexeme}
    (h : Feeds precedence r p next) (hnext : next.place.Continues lexemes) :
    r.place.Continues (p.lexeme :: lexemes) := by
  cases h with
  | @head text hr hl =>
    obtain ⟨first, others, forms, rfl⟩ := hnext
    rw [hr, hl]
    exact ⟨⟨text, first, others⟩ :: forms, rfl⟩
  | colon hr hl =>
    obtain ⟨parts, others, forms, hone, rfl⟩ := hnext
    rw [hr, hl]
    exact ⟨⟨parts, Draft.oneAction_opened_iff.1 hone⟩, others, forms, rfl⟩
  | bar hr hl =>
    -- The alternative ends here, so what follows is the first of the others.
    obtain ⟨parts, others, forms, hone, rfl⟩ := hnext
    rw [hr, hl]
    refine ⟨[], ⟨parts, Draft.oneAction_opened_iff.1 hone⟩ :: others, forms,
      Draft.oneAction_nil, ?_⟩
    simp [Alternative.following, Alternative.lexemes]
  | semicolon hr hl =>
    obtain ⟨forms, rfl⟩ := hnext
    rw [hr, hl]
    exact ⟨[], [], forms, Draft.oneAction_nil, rfl⟩
  | @symbol d s hr hl =>
    rw [hr, hl]
    exact continues_inside precedence (.symbol s) (by simp) hnext
  | @action d text hr hl hnone =>
    rw [hr, hl]
    exact continues_inside precedence (.action text) (fun _ => hnone) hnext
  | @prec d argument hr hl =>
    rw [hr, hl]
    exact continues_inside precedence (.prec argument) (by simp) hnext

/-- A run that ends between two rules has read the rest of a sequence of rules. -/
theorem continues_of_feedAll {r last : Reading} {placed : List PlacedLexeme}
    (h : feedAll precedence r placed = .ok last) (hlast : last.place = .between) :
    r.place.Continues (placed.map PlacedLexeme.lexeme) := by
  induction placed generalizing r with
  | nil =>
    obtain rfl := Except.ok.inj h
    rw [hlast]
    exact ⟨[], rfl⟩
  | cons p rest ih =>
    unfold feedAll at h
    split at h
    · simp at h
    · rename_i next hnext
      exact (feeds_of_feed hnext).continues (ih h)

end Reading

/-! ## Section 4: A sequence of rules is read -/

/-- A rule without its line. -/
def unplaced (r : Rule) : Rule := { r with line := 0 }

namespace Reading

variable {precedence : String → Option Precedence} {placed : List PlacedLexeme}

theorem feedAll_append (r : Reading) (u v : List PlacedLexeme) : feedAll precedence r (u ++ v)
    = feedAll precedence r u >>= fun next => feedAll precedence next v := by
  induction u generalizing r with
  | nil => rfl
  | cons p u ih =>
    rw [List.cons_append, feedAll, feedAll]
    split
    · rfl
    · exact ih _

/-- The parts of an alternative are taken up one after the other. -/
theorem feedAll_parts {parts : List Part} {d : Draft} (rules : List Rule)
    (hplaced : placed.map PlacedLexeme.lexeme = parts.map Part.toLexeme)
    (hone : d.OneAction parts) : feedAll precedence ⟨.inside d, rules⟩ placed
      = .ok ⟨.inside (parts.foldl (Draft.take precedence) d), rules⟩ := by
  induction parts generalizing placed d with
  | nil =>
    obtain rfl : placed = [] := by simpa using hplaced
    rfl
  | cons part parts ih =>
    obtain ⟨p, placed, rfl, hp, hplaced⟩ := List.map_eq_cons_iff.1 hplaced
    obtain ⟨haction, hone⟩ := (Draft.oneAction_cons_iff precedence).1 hone
    have hfeed : feed precedence ⟨.inside d, rules⟩ p
        = .ok ⟨.inside (d.take precedence part), rules⟩ := by
      cases part with
      | symbol s => cases s <;> simp [feed, hp, Draft.take, RuleSymbol.toLexeme]
      | prec argument => simp [feed, hp, Draft.take]
      | action text =>
        have hnone := haction rfl
        simp [feed, hp, hnone, Draft.take]
    rw [feedAll, hfeed, List.foldl_cons]
    exact ih hplaced hone

/-- An alternative is read, up to the mark behind it. -/
theorem exists_feedAll_alternative (precedence : String → Option Precedence) {a : Alternative}
    (hplaced : placed.map PlacedLexeme.lexeme = a.lexemes) (left : String) (line : Nat)
    (rules : List Rule) : ∃ d, feedAll precedence ⟨.inside (.opened left line), rules⟩ placed
      = .ok ⟨.inside d, rules⟩ ∧ d.close = { a.rule precedence left with line := line } :=
  ⟨_, feedAll_parts rules hplaced (Draft.oneAction_opened_iff.2 a.oneAction),
    Draft.close_foldl_take precedence left line a⟩

/-- The alternatives after the first are read, up to the end of the rule. -/
theorem exists_feedAll_following (precedence : String → Option Precedence)
    {others : List Alternative}
    (hplaced : placed.map PlacedLexeme.lexeme = Alternative.following others) (d : Draft)
    (rules : List Rule) : ∃ read, feedAll precedence ⟨.inside d, rules⟩ placed
      = .ok ⟨.between, rules ++ d.close :: read⟩ ∧
      read.map unplaced = others.map (Alternative.rule precedence d.left) := by
  -- Each bar closes the draft before it, so the drafts' rules come out in order.
  induction others generalizing placed d rules with
  | nil =>
    obtain ⟨p, placed, rfl, hp, hplaced⟩ := List.map_eq_cons_iff.1 hplaced
    obtain rfl : placed = [] := by simpa using hplaced
    exact ⟨[], by simp [feedAll, feed, hp], rfl⟩
  | cons a others ih =>
    have hlexemes : Alternative.following (a :: others)
        = .bar :: (a.lexemes ++ Alternative.following others) := by
      simp [Alternative.following]
    rw [hlexemes] at hplaced
    obtain ⟨p, placed, rfl, hp, hplaced⟩ := List.map_eq_cons_iff.1 hplaced
    obtain ⟨u, v, rfl, hu, hv⟩ := List.map_eq_append_iff.1 hplaced
    obtain ⟨e, hfeed, hclose⟩ :=
      exists_feedAll_alternative precedence hu d.left p.line (rules ++ [d.close])
    have hleft : e.left = d.left := congrArg Rule.left hclose
    obtain ⟨read, hread, hrules⟩ := ih hv e (rules ++ [d.close])
    refine ⟨e.close :: read, ?_, ?_⟩
    · rw [feedAll, feed]
      simp [hp, feedAll_append, hfeed, hread, bind, Except.bind]
    · rw [List.map_cons, List.map_cons, hrules, hleft, hclose]
      rfl

/-- The rules of a form, in the order of its alternatives. -/
theorem exists_feedAll_form (precedence : String → Option Precedence) {f : Form}
    (hplaced : placed.map PlacedLexeme.lexeme = f.lexemes) (rules : List Rule) :
    ∃ read, feedAll precedence ⟨.between, rules⟩ placed = .ok ⟨.between, rules ++ read⟩ ∧
      read.map unplaced = f.alternatives.map fun x => x.2.rule precedence x.1 := by
  obtain ⟨p, placed, rfl, hp, hplaced⟩ := List.map_eq_cons_iff.1 hplaced
  obtain ⟨q, placed, rfl, hq, hplaced⟩ := List.map_eq_cons_iff.1 hplaced
  obtain ⟨u, v, rfl, hu, hv⟩ := List.map_eq_append_iff.1 hplaced
  obtain ⟨d, hfeed, hclose⟩ :=
    exists_feedAll_alternative precedence hu f.left q.line rules
  have hleft : d.left = f.left := congrArg Rule.left hclose
  obtain ⟨read, hread, hrules⟩ := exists_feedAll_following precedence hv d rules
  refine ⟨d.close :: read, ?_, ?_⟩
  · rw [feedAll, feed]
    simp only [hp]
    rw [feedAll, feed]
    simp [hq, feedAll_append, hfeed, hread, bind, Except.bind]
  · rw [List.map_cons, hrules, hleft, hclose]
    simp [Form.alternatives, unplaced, Alternative.rule]

theorem exists_feedAll_forms (precedence : String → Option Precedence) {forms : List Form}
    (hplaced : placed.map PlacedLexeme.lexeme = forms.flatMap Form.lexemes) (rules : List Rule) :
    ∃ read, feedAll precedence ⟨.between, rules⟩ placed = .ok ⟨.between, rules ++ read⟩ ∧
      read.map unplaced
        = (forms.flatMap Form.alternatives).map fun x => x.2.rule precedence x.1 := by
  induction forms generalizing placed rules with
  | nil =>
    obtain rfl : placed = [] := by simpa using hplaced
    exact ⟨[], by simp [feedAll], rfl⟩
  | cons f forms ih =>
    obtain ⟨u, v, rfl, hu, hv⟩ := List.map_eq_append_iff.1 hplaced
    obtain ⟨first, hfirst, hrules⟩ := exists_feedAll_form precedence hu rules
    obtain ⟨others, hothers, hrules'⟩ := ih hv (rules ++ first)
    refine ⟨first ++ others, ?_, by simp [hrules, hrules']⟩
    rw [feedAll_append, hfirst]
    simpa [bind, Except.bind] using hothers

end Reading

/-! ## Section 5: Reading a rules section -/

section Parse

variable {startSymbol : String} {precedence : String → Option Precedence} {text : List Char}

/-- A section that is read is a sequence of rules. -/
theorem exists_spelled_of_parse {rules : List Rule}
    (h : parse startSymbol precedence text = .ok rules) : ∃ forms, Form.Spelled forms text := by
  simp only [parse] at h
  split at h
  · simp at h
  rename_i last hlast
  split at h
  · simp at h
  rename_i line hending
  unfold Reading.finish at h
  split at h
  · rename_i hplace
    obtain ⟨forms, hforms⟩ := Reading.continues_of_feedAll hlast hplace
    exact ⟨forms, by rw [Form.Spelled, ← hforms]; exact Lexeme.spelled_of_scan hending⟩
  · simp at h

/-- **A sequence of rules** is read, and gives one rule for each alternative. -/
theorem exists_parse_of_spelled (startSymbol : String) (precedence : String → Option Precedence)
    {forms : List Form} (h : Form.Spelled forms text) :
    ∃ read, parse startSymbol precedence text = .ok (augmenting startSymbol :: read) ∧
      read.map unplaced
        = (forms.flatMap Form.alternatives).map fun x => x.2.rule precedence x.1 := by
  obtain ⟨line, hending, hlexemes⟩ := Lexeme.scan_of_spelled h 1
  obtain ⟨read, hread, hrules⟩ :=
    Reading.exists_feedAll_forms precedence hlexemes [augmenting startSymbol]
  refine ⟨read, ?_, hrules⟩
  simp [parse, Reading.start, hread, hending, Reading.finish]

/-- What is read from a sequence of rules. -/
structure ReadFrom (startSymbol : String) (forms : List Form) (rules : List Rule) : Prop where
  /-- The augmenting rule comes first, and then one rule for each alternative. -/
  alternatives : ∃ read, rules = augmenting startSymbol :: read ∧
    read.map (fun r => (r.left, r.right, r.action))
      = (forms.flatMap Form.alternatives).map fun x => (x.1, x.2.symbols, x.2.action?)
  literals : Rule.literals rules =
    ((forms.flatMap Form.alternatives).flatMap fun x =>
      x.2.symbols.filterMap RuleSymbol.literal?).eraseDups
  leftSides : Rule.leftSides rules = acceptName :: (forms.map Form.left).eraseDups
  emptyLeftSides : Rule.emptyLeftSides rules =
    (((forms.flatMap Form.alternatives).filter fun x => x.2.symbols.isEmpty).map
      Prod.fst).eraseDups

section Views

variable {read : List Rule} {forms : List Form}
  (h : read.map (fun r => (r.left, r.right))
    = (forms.flatMap Form.alternatives).map fun x => (x.1, x.2.symbols))
include h

theorem literals_of_map_eq (startSymbol : String) :
    Rule.literals (augmenting startSymbol :: read) =
      ((forms.flatMap Form.alternatives).flatMap fun x =>
        x.2.symbols.filterMap RuleSymbol.literal?).eraseDups := by
  have hrights : read.flatMap (fun r => r.right.filterMap RuleSymbol.literal?)
      = (forms.flatMap Form.alternatives).flatMap fun x =>
        x.2.symbols.filterMap RuleSymbol.literal? := by
    simpa [List.flatMap_map] using
      congrArg (List.flatMap fun r => r.2.filterMap RuleSymbol.literal?) h
  rw [Rule.literals, List.flatMap_cons, hrights]
  rfl

theorem leftSides_of_map_eq (startSymbol : String) (hread : ∀ r ∈ read, r.Proper) :
    Rule.leftSides (augmenting startSymbol :: read)
      = acceptName :: (forms.map Form.left).eraseDups := by
  have hlefts : read.map Rule.left = forms.flatMap fun f => f.alternatives.map Prod.fst := by
    simpa [Function.comp_def, List.map_flatMap] using congrArg (List.map Prod.fst) h
  -- The alternatives of a rule repeat its left side.
  have hrepeated : ∀ f ∈ forms, f.alternatives.map Prod.fst ≠ [] ∧
      ∀ name ∈ f.alternatives.map Prod.fst, name = f.left := by
    intro f _
    simp [Form.alternatives]
  rw [leftSides_augmenting hread, hlefts, eraseDups_flatMap hrepeated]

theorem emptyLeftSides_of_map_eq (startSymbol : String) :
    Rule.emptyLeftSides (augmenting startSymbol :: read) =
      (((forms.flatMap Form.alternatives).filter fun x => x.2.symbols.isEmpty).map
        Prod.fst).eraseDups := by
  have hempty : (read.filter fun r => r.right.isEmpty).map Rule.left
      = ((forms.flatMap Form.alternatives).filter fun x => x.2.symbols.isEmpty).map Prod.fst := by
    simpa [List.filter_map, Function.comp_def] using
      congrArg (fun l => (l.filter fun x => x.2.isEmpty).map Prod.fst) h
  rw [← hempty]
  rfl

end Views

/-- The rules that are read are those of the alternatives, in proper form. -/
theorem exists_read_of_parse {forms : List Form} {rules : List Rule}
    (h : parse startSymbol precedence text = .ok rules) (hforms : Form.Spelled forms text) :
    ∃ read, rules = augmenting startSymbol :: read ∧ (∀ r ∈ read, r.Proper) ∧
      read.map unplaced
        = (forms.flatMap Form.alternatives).map fun x => x.2.rule precedence x.1 := by
  obtain ⟨read, hparse, hrules⟩ := exists_parse_of_spelled startSymbol precedence hforms
  obtain rfl := Except.ok.inj (h.symm.trans hparse)
  obtain ⟨others, heq, hproper⟩ := proper_of_parse h
  obtain ⟨-, rfl⟩ := List.cons.inj heq
  exact ⟨read, rfl, hproper, hrules⟩

theorem readFrom_of_parse {forms : List Form} {rules : List Rule}
    (hforms : Form.Spelled forms text) (h : parse startSymbol precedence text = .ok rules) :
    ReadFrom startSymbol forms rules := by
  obtain ⟨read, rfl, hproper, hrules⟩ := exists_read_of_parse h hforms
  have hread : read.map (fun r => (r.left, r.right, r.action))
      = (forms.flatMap Form.alternatives).map fun x => (x.1, x.2.symbols, x.2.action?) := by
    simpa [unplaced, Alternative.rule, Function.comp_def] using
      congrArg (List.map fun r => (r.left, r.right, r.action)) hrules
  have hpairs : read.map (fun r => (r.left, r.right))
      = (forms.flatMap Form.alternatives).map fun x => (x.1, x.2.symbols) := by
    simpa [Function.comp_def] using congrArg (List.map fun r => (r.1, r.2.1)) hread
  exact ⟨⟨read, rfl, hread⟩, literals_of_map_eq hpairs startSymbol,
    leftSides_of_map_eq hpairs startSymbol hproper, emptyLeftSides_of_map_eq hpairs startSymbol⟩

variable (startSymbol precedence text) in
/-- **Rules sections**: a text is read exactly if it is a sequence of rules, and what is
    read is what the rules say. -/
theorem parse_iff_spelled :
    ((∃ rules, parse startSymbol precedence text = .ok rules) ↔
      ∃ forms, Form.Spelled forms text) ∧
    ∀ forms rules, Form.Spelled forms text → parse startSymbol precedence text = .ok rules →
      ReadFrom startSymbol forms rules := by
  refine ⟨⟨?_, ?_⟩, fun forms rules => readFrom_of_parse⟩
  · rintro ⟨rules, h⟩
    exact exists_spelled_of_parse h
  · rintro ⟨forms, hforms⟩
    obtain ⟨read, hread, -⟩ := exists_parse_of_spelled startSymbol precedence hforms
    exact ⟨_, hread⟩

/-- A rule with an escaped quote, a `%prec` clause, an action with a quoted brace and an
    empty alternative. -/
theorem parse_iff_spelled_quotes :
    let text := "list : list '\\'' %prec'x' \x7b \"\x7d\" \x7d | ;".toList
    let first : Alternative :=
      ⟨[.symbol (.name "list"), .symbol (.literal "'\\''"), .prec "'x'",
        .action "\x7b \"\x7d\" \x7d"], by decide⟩
    let form : Form := ⟨"list", first, [⟨[], by decide⟩]⟩
    Form.Spelled [form] text ∧ ∃ rules, parse "list" (fun _ => none) text = .ok rules ∧
      ReadFrom "list" [form] rules := by
  intro text first form
  have hspelled : Form.Spelled [form] text :=
    (Lexeme.spelled_iff_scan 1).2 ⟨1, by decide +kernel, by decide +kernel⟩
  have htheorem := parse_iff_spelled "list" (fun _ => none) text
  obtain ⟨rules, hrules⟩ := htheorem.1.2 ⟨_, hspelled⟩
  exact ⟨hspelled, rules, hrules, htheorem.2 _ rules hspelled hrules⟩

end Parse

end Rule

end SlrCompiler
