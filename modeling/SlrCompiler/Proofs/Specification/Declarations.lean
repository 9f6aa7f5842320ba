import SlrCompiler.Proofs.Success
import SlrCompiler.Specification.Declarations
import SlrCompiler.Specification.Sections

/-! # Where precedence comes from

    Only the precedence lines of a specification give symbols a precedence: the
    associativity of the line, and a level that is the number of the line among them
    (`Declarations.exists_declaredAt_or`). A symbol that a line names is a token
    (`Declarations.mem_tokens_of_lookup`). A specification without such lines declares
    no precedence.
-/

namespace SlrCompiler

/-- The directives `%left`, `%right` and `%nonassoc`. -/
def Directive.isPrecedence : Directive → Bool
  | .precedence _ _ => true
  | _ => false

/-- The precedence lines of a specification, with their numbers. -/
def precedenceLines (spec : String) : List (Nat × Directive) :=
  match Sections.split spec.toList with
  | .error _ => []
  | .ok s =>
    match Blocks.ofText s.declarations with
    | .error _ => []
    | .ok b => (Directive.numbered b.directives).filter (·.2.isPrecedence)

/-- The line with the given number, the first one being line zero, has the
    associativity and names the symbol. -/
def Directive.DeclaredIn (lines : List (Nat × Directive)) (k : Nat) (a : Associativity)
    (name : String) : Prop :=
  ∃ line words, lines[k]? = some (line, .precedence a words) ∧ name ∈ words.map String.ofList

theorem Directive.declaredIn_cons_iff {lines : List (Nat × Directive)} {line k : Nat}
    {words : List (List Char)} {a b : Associativity} {name : String} :
    DeclaredIn ((line, .precedence b words) :: lines) k a name ↔
      (k = 0 ∧ b = a ∧ name ∈ words.map String.ofList) ∨
        ∃ j, k = j + 1 ∧ DeclaredIn lines j a name := by
  cases k with
  | zero =>
    simp only [DeclaredIn, List.getElem?_cons_zero, Option.some.injEq, Prod.mk.injEq,
      Directive.precedence.injEq, true_and, Nat.zero_ne_add_one, false_and, exists_false, or_false]
    constructor
    · rintro ⟨_, _, ⟨-, hb, rfl⟩, hmem⟩
      exact ⟨hb, hmem⟩
    · rintro ⟨hb, hmem⟩
      exact ⟨line, words, ⟨rfl, hb, rfl⟩, hmem⟩
  | succ k => simp [DeclaredIn]

/-- Symbols of one line have one associativity. -/
theorem Directive.DeclaredIn.associativity_eq {lines : List (Nat × Directive)} {k : Nat}
    {a b : Associativity} {name other : String} (ha : DeclaredIn lines k a name)
    (hb : DeclaredIn lines k b other) : a = b := by
  obtain ⟨_, _, hline, -⟩ := ha
  obtain ⟨_, _, hline', -⟩ := hb
  have heq := congrArg Prod.snd (Option.some.inj (hline.symm.trans hline'))
  exact (Directive.precedence.inj heq).1

/-- The symbol is declared on the precedence line with the given number. -/
def DeclaredAt (spec : String) : Nat → Associativity → String → Prop :=
  Directive.DeclaredIn (precedenceLines spec)

namespace Declarations

variable {d next : Declarations}

/-! ## Section 1: One directive -/

theorem addToken_eq (d : Declarations) (name : String) :
    (d.addToken name).precedence = d.precedence ∧ (d.addToken name).levels = d.levels := by
  unfold addToken
  split <;> exact ⟨rfl, rfl⟩

theorem mem_tokens_addToken {name other : String} :
    other ∈ (d.addToken name).tokens ↔ other ∈ d.tokens ∨ other = name := by
  unfold addToken
  split
  · grind
  · simp

theorem addTokenLine_eq (d : Declarations) (symbols : List (String × Option String)) :
    (d.addTokenLine symbols).precedence = d.precedence ∧
      (d.addTokenLine symbols).levels = d.levels := by
  unfold addTokenLine
  induction symbols generalizing d with
  | nil => exact ⟨rfl, rfl⟩
  | cons symbol rest ih =>
    rw [List.foldl_cons, (ih _).1, (ih _).2]
    exact addToken_eq d symbol.1

/-- Any directive but a precedence line leaves precedence alone. -/
theorem declare_eq {blocks : Blocks} {line : Nat} {directive : Directive}
    (h : declare blocks d (line, directive) = .ok next)
    (hdirective : directive.isPrecedence = false) :
    next.precedence = d.precedence ∧ next.levels = d.levels := by
  cases directive with
  | token words =>
    obtain ⟨symbols, -, rfl⟩ := map_eq_ok_iff.1 h
    exact addTokenLine_eq d symbols
  | type words =>
    simp only [declare] at h
    split at h
    · simp at h
    · obtain ⟨symbols, -, rfl⟩ := map_eq_ok_iff.1 h
      exact ⟨rfl, rfl⟩
  | precedence associativity words => simp [Directive.isPrecedence] at hdirective
  | unrecognized text => rw [Except.ok.inj h]; exact ⟨rfl, rfl⟩

section Lines

variable (d) (v : Precedence) (names : List String)

/-- Gives names a precedence, and declares them as tokens. -/
def rank : Declarations :=
  names.foldl
    (fun d name => { d.addToken name with precedence := d.precedence.bind name v }) d

theorem levels_rank : (d.rank v names).levels = d.levels := by
  unfold rank
  induction names generalizing d with
  | nil => rfl
  | cons name rest ih =>
    rw [List.foldl_cons, ih]
    exact (addToken_eq d name).2

theorem lookup_rank (name : String) : (d.rank v names).precedence.lookup name
    = if name ∈ names then some v else d.precedence.lookup name := by
  unfold rank
  induction names generalizing d with
  | nil => rfl
  | cons first rest ih =>
    rw [List.foldl_cons, ih, Bindings.lookup_bind]
    grind

theorem mem_tokens_rank {name : String} :
    name ∈ (d.rank v names).tokens ↔ name ∈ d.tokens ∨ name ∈ names := by
  unfold rank
  induction names generalizing d with
  | nil => simp
  | cons first rest ih =>
    rw [List.foldl_cons, ih, List.mem_cons, mem_tokens_addToken, or_assoc]

end Lines

theorem addPrecedenceLine_eq (d : Declarations) (a : Associativity) (names : List String) :
    d.addPrecedenceLine a names
      = rank { d with levels := d.levels + 1 } ⟨a, d.levels + 1⟩ names := rfl

/-! ## Section 2: All directives -/

/-- A name has the precedence of a line that names it, its level being the number of
    the line; or no line names it, and it keeps what it had. -/
theorem lookup_declareAll {blocks : Blocks} {directives : List (Nat × Directive)}
    (h : declareAll blocks d directives = .ok next) (name : String) :
    (∃ k a, Directive.DeclaredIn (directives.filter (·.2.isPrecedence)) k a name ∧
        next.precedence.lookup name = some ⟨a, d.levels + k + 1⟩) ∨
      (∀ k a, ¬ Directive.DeclaredIn (directives.filter (·.2.isPrecedence)) k a name) ∧
        next.precedence.lookup name = d.precedence.lookup name := by
  induction directives generalizing d with
  | nil => exact .inr ⟨fun k a hk => by simp [Directive.DeclaredIn] at hk, by rw [Except.ok.inj h]⟩
  | cons directive rest ih =>
    unfold declareAll at h
    split at h
    · simp at h
    rename_i middle hmiddle
    obtain ⟨line, directive⟩ := directive
    -- A line without precedence neither binds a name nor counts for the levels.
    cases hprecedence : directive.isPrecedence with
    | false =>
      rw [List.filter_cons_of_neg (by simp [hprecedence])]
      obtain ⟨hbindings, hlevels⟩ := declare_eq hmiddle hprecedence
      rw [← hbindings, ← hlevels]
      exact ih h
    | true =>
      rw [List.filter_cons_of_pos (by simp [hprecedence])]
      cases directive with
      | precedence a words =>
        obtain rfl := Except.ok.inj hmiddle
        rw [addPrecedenceLine_eq] at h
        rcases ih h with ⟨k, b, hk, hlookup⟩ | ⟨hnone, hlookup⟩
        · refine .inl ⟨k + 1, b, hk, ?_⟩
          rw [hlookup, levels_rank]
          simp only [Option.some.injEq, Precedence.mk.injEq, true_and]
          omega
        · -- Where no later line lists the name, this line decides.
          rw [lookup_rank] at hlookup
          by_cases hname : name ∈ words.map String.ofList
          · rw [if_pos hname] at hlookup
            exact .inl ⟨0, a, Directive.declaredIn_cons_iff.2 (.inl ⟨rfl, rfl, hname⟩), hlookup⟩
          · rw [if_neg hname] at hlookup
            refine .inr ⟨fun k b hk => ?_, hlookup⟩
            rcases Directive.declaredIn_cons_iff.1 hk with ⟨-, -, hmem⟩ | ⟨j, -, hj⟩
            · exact hname hmem
            · exact hnone j b hj
      | _ => simp [Directive.isPrecedence] at hprecedence

/-- Whatever has a precedence is a token. -/
def Listed (d : Declarations) : Prop :=
  ∀ name, d.precedence.lookup name ≠ none → name ∈ d.tokens

theorem mem_tokens_addTokenLine {symbols : List (String × Option String)} {name : String}
    (h : name ∈ d.tokens) : name ∈ (d.addTokenLine symbols).tokens := by
  unfold addTokenLine
  induction symbols generalizing d with
  | nil => exact h
  | cons symbol rest ih =>
    rw [List.foldl_cons]
    exact ih (mem_tokens_addToken.2 (.inl h))

theorem Listed.declare {blocks : Blocks} {directive : Nat × Directive} (hd : d.Listed)
    (h : declare blocks d directive = .ok next) : next.Listed := by
  obtain ⟨line, directive⟩ := directive
  intro name hname
  cases directive with
  | token words =>
    obtain ⟨symbols, -, rfl⟩ := map_eq_ok_iff.1 h
    rw [(addTokenLine_eq d symbols).1] at hname
    exact mem_tokens_addTokenLine (hd name hname)
  | type words =>
    simp only [Declarations.declare] at h
    split at h
    · simp at h
    · obtain ⟨symbols, -, rfl⟩ := map_eq_ok_iff.1 h
      exact hd name hname
  | precedence a words =>
    obtain rfl := Except.ok.inj h
    rw [addPrecedenceLine_eq, lookup_rank] at hname
    rw [addPrecedenceLine_eq, mem_tokens_rank]
    split at hname
    · exact .inr ‹_›
    · exact .inl (hd name hname)
  | unrecognized text =>
    obtain rfl := Except.ok.inj h
    exact hd name hname

/-- What every directive keeps is kept by all of them. -/
theorem declareAll_induction {motive : Declarations → Prop} {blocks : Blocks}
    {directives : List (Nat × Directive)} (hstart : motive d)
    (hstep : ∀ directive d next, motive d → declare blocks d directive = .ok next → motive next)
    (h : declareAll blocks d directives = .ok next) : motive next := by
  induction directives generalizing d with
  | nil => exact Except.ok.inj h ▸ hstart
  | cons directive rest ih =>
    unfold declareAll at h
    split at h
    · simp at h
    · rename_i middle hmiddle
      exact ih (hstep directive d middle hstart hmiddle) h

/-! ## Section 3: The section -/

/-- **Where precedence comes from**: a name has the precedence of a line that names
    it, or no line names it and it has none. -/
theorem exists_declaredAt_or {spec : String} {s : Sections}
    (hs : Sections.split spec.toList = .ok s) (hd : parse s.declarations = .ok d) (name : String) :
    (∃ k a, DeclaredAt spec k a name ∧ d.precedence.lookup name = some ⟨a, k + 1⟩) ∨
      (∀ k a, ¬ DeclaredAt spec k a name) ∧ d.precedence.lookup name = none := by
  unfold parse at hd
  split at hd
  · simp at hd
  rename_i blocks hblocks
  have hlines : precedenceLines spec
      = (Directive.numbered blocks.directives).filter (·.2.isPrecedence) := by
    simp only [precedenceLines, hs, hblocks]
  rcases lookup_declareAll hd name with ⟨k, a, hk, hlookup⟩ | ⟨hnone, hlookup⟩
  · refine .inl ⟨k, a, ?_, by simpa [ofBlocks] using hlookup⟩
    rwa [DeclaredAt, hlines]
  · refine .inr ⟨fun k a hk => hnone k a ?_, hlookup⟩
    rwa [DeclaredAt, hlines] at hk

/-- What holds before the first directive and is kept by every one holds of what is
    declared. -/
theorem parse_induction {motive : Declarations → Prop} {text : List Char}
    (hstart : ∀ blocks, motive (ofBlocks blocks))
    (hstep : ∀ blocks directive d next, motive d → declare blocks d directive = .ok next →
      motive next)
    (hd : parse text = .ok d) : motive d := by
  unfold parse at hd
  split at hd
  · simp at hd
  · exact declareAll_induction (hstart _) (hstep _) hd

/-- What has a precedence is a token. -/
theorem mem_tokens_of_lookup {text : List Char} (hd : parse text = .ok d) {name : String}
    (hname : d.precedence.lookup name ≠ none) : name ∈ d.tokens := by
  have hlisted : d.Listed :=
    parse_induction (fun _ _ hname => absurd rfl hname) (fun _ _ _ _ => Listed.declare) hd
  exact hlisted name hname

/-- Without precedence lines nothing has a precedence. -/
theorem lookup_precedence_eq_none {spec : String} {s : Sections}
    (hs : Sections.split spec.toList = .ok s) (hd : parse s.declarations = .ok d)
    (hlines : precedenceLines spec = []) (name : String) : d.precedence.lookup name = none := by
  rcases exists_declaredAt_or hs hd name with ⟨k, a, ⟨line, words, hline, -⟩, -⟩ | ⟨-, hnone⟩
  · simp [hlines] at hline
  · exact hnone

end Declarations

end SlrCompiler
