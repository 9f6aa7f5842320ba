import Mathlib.Data.List.Basic
import SlrCompiler.Proofs.Specification.Declarations

/-! # Precedence lines

    What a line of the declarations says about precedence, read off its words: its
    first word says whether it is a precedence line and of which associativity, and
    it lists the others (`Lists`). A later line replaces what an earlier one says of a
    symbol, so a symbol has the associativity of the last line that lists it
    (`ListedLast`); its level is the number of precedence lines up to this one
    (`levelOfLine`). That is what reading the directives one after the other comes
    to (`Declarations.lookup_of_listedLast`, `Declarations.lookup_of_not_lists`).
-/

namespace SlrCompiler

open Text

/-! ## Section 1: What lines say -/

/-- The first word of a precedence line. -/
def Associativity.keyword : Associativity → String
  | .left => "%left"
  | .right => "%right"
  | .nonassoc => "%nonassoc"

/-- The line begins with the word of a precedence line. -/
def isPrecedenceLine (line : List Char) : Bool :=
  (words line).head?.any fun word =>
    [Associativity.left, .right, .nonassoc].any fun a => word == a.keyword.toList

/-- The line is a precedence line of the associativity, and names the symbol. -/
def Lists (line : List Char) (a : Associativity) (name : String) : Prop :=
  ∃ names, words line = a.keyword.toList :: names ∧ name.toList ∈ names

/-- The line with the given number, counted from zero, lists the symbol, and no line
    after it does. -/
structure ListedLast (lines : List (List Char)) (n : Nat) (a : Associativity) (name : String) :
    Prop where
  listed : ∃ line, lines[n]? = some line ∧ Lists line a name
  last : ∀ m line b, n < m → lines[m]? = some line → ¬ Lists line b name

/-- The number of precedence lines up to the line with the given number, and with it. -/
def levelOfLine (lines : List (List Char)) (n : Nat) : Nat :=
  (lines.take (n + 1)).countP isPrecedenceLine

theorem isPrecedenceLine_iff {line : List Char} :
    isPrecedenceLine line = true ↔
      ∃ (a : Associativity) (names : _), words line = a.keyword.toList :: names := by
  unfold isPrecedenceLine
  cases words line with
  | nil => simp
  | cons word names =>
    constructor
    · intro h
      obtain ⟨a, -, ha⟩ := List.any_eq_true.1 h
      exact ⟨a, names, by rw [eq_of_beq ha]⟩
    · rintro ⟨a, _, h⟩
      obtain ⟨rfl, -⟩ := List.cons.inj h
      refine List.any_eq_true.2 ⟨a, ?_, beq_self_eq_true _⟩
      cases a <;> simp

theorem Lists.isPrecedenceLine {line : List Char} {a : Associativity} {name : String}
    (h : Lists line a name) : isPrecedenceLine line = true := by
  obtain ⟨names, hwords, -⟩ := h
  exact isPrecedenceLine_iff.2 ⟨a, names, hwords⟩

/-- The symbols of one line have one associativity. -/
theorem Lists.associativity_eq {line : List Char} {a b : Associativity} {x y : String}
    (hx : Lists line a x) (hy : Lists line b y) : a = b := by
  obtain ⟨_, hx, -⟩ := hx
  obtain ⟨_, hy, -⟩ := hy
  have hkeyword : a.keyword.toList = b.keyword.toList := (List.cons.inj (hx.symm.trans hy)).1
  cases a <;> cases b <;> first | rfl | exact absurd hkeyword (by decide)

/-- Some line is the last to list a symbol, if there is one that lists it. -/
theorem exists_listedLast {lines : List (List Char)} {name : String}
    (h : ∃ line ∈ lines, ∃ a, Lists line a name) : ∃ n a, ListedLast lines n a name := by
  induction lines with
  | nil => simp at h
  | cons line rest ih =>
    by_cases hrest : ∃ line ∈ rest, ∃ a, Lists line a name
    · obtain ⟨n, a, hlisted, hlast⟩ := ih hrest
      refine ⟨n + 1, a, by simpa using hlisted, fun m other b hm hother => ?_⟩
      obtain ⟨k, rfl⟩ := Nat.exists_eq_succ_of_ne_zero (Nat.ne_zero_of_lt hm)
      exact hlast k other b (by omega) (by simpa using hother)
    · obtain ⟨other, hmem, a, ha⟩ := h
      rcases List.mem_cons.1 hmem with rfl | hmem
      · refine ⟨0, a, ⟨other, rfl, ha⟩, fun m later b hm hlater hlists => hrest ?_⟩
        obtain ⟨k, rfl⟩ := Nat.exists_eq_succ_of_ne_zero (Nat.ne_zero_of_lt hm)
        exact ⟨later, List.mem_of_getElem? (by simpa using hlater), b, hlists⟩
      · exact absurd ⟨other, hmem, a, ha⟩ hrest

/-- A precedence line is one level above the precedence lines before it. -/
theorem levelOfLine_eq {lines : List (List Char)} {n : Nat} {line : List Char}
    (hline : lines[n]? = some line) (hprecedence : isPrecedenceLine line = true) :
    levelOfLine lines n = (lines.take n).countP isPrecedenceLine + 1 := by
  have hone : [line].countP isPrecedenceLine = 1 := by simp [hprecedence]
  rw [levelOfLine, List.take_add_one, hline, Option.toList_some, List.countP_append, hone]

theorem levelOfLine_lt {lines : List (List Char)} {m n : Nat} {line : List Char} (hmn : m < n)
    (hline : lines[n]? = some line) (hprecedence : isPrecedenceLine line = true) :
    levelOfLine lines m < levelOfLine lines n := by
  have hle : (lines.take (m + 1)).countP isPrecedenceLine
      ≤ (lines.take n).countP isPrecedenceLine :=
    (List.take_sublist_take_left (by omega)).countP_le
  rw [levelOfLine_eq hline hprecedence, levelOfLine]
  omega

/-- Of two symbols, the one that is last listed on the later line has the higher level. -/
theorem ListedLast.levelOfLine_lt_iff {lines : List (List Char)} {m n : Nat}
    {a b : Associativity} {x y : String} (hx : ListedLast lines m a x)
    (hy : ListedLast lines n b y) : levelOfLine lines m < levelOfLine lines n ↔ m < n := by
  obtain ⟨line, hline, hlists⟩ := hx.listed
  obtain ⟨line', hline', hlists'⟩ := hy.listed
  constructor
  · intro h
    by_contra hnot
    rcases Nat.lt_or_eq_of_le (Nat.le_of_not_lt hnot) with hlt | rfl
    · have := levelOfLine_lt hlt hline hlists.isPrecedenceLine
      omega
    · omega
  · intro h
    exact levelOfLine_lt h hline' hlists'.isPrecedenceLine

theorem ListedLast.associativity_eq {lines : List (List Char)} {n : Nat} {a b : Associativity}
    {x y : String} (hx : ListedLast lines n a x) (hy : ListedLast lines n b y) : a = b := by
  obtain ⟨line, hline, hlists⟩ := hx.listed
  obtain ⟨line', hline', hlists'⟩ := hy.listed
  obtain rfl := Option.some.inj (hline.symm.trans hline')
  exact hlists.associativity_eq hlists'

/-! ## Section 2: The directives of lines -/

namespace Directive

/-- The directives on some lines, the first of them having the given number. -/
def ofLines (number : Nat) (lines : List (List Char)) : List (Nat × Directive) :=
  (lines.zipIdx number).filterMap fun (line, number) => (ofLine line).map fun d => (number, d)

theorem ofLine_eq_precedence_iff {line : List Char} {a : Associativity}
    {names : List (List Char)} :
    ofLine line = some (.precedence a names) ↔ words line = a.keyword.toList :: names := by
  unfold ofLine
  cases words line with
  | nil => simp
  | cons word arguments =>
    have hword : word = a.keyword.toList ↔ String.ofList word = a.keyword := by
      constructor
      · rintro rfl
        simp
      · intro h
        rw [← h, String.toList_ofList]
    simp only [Option.some.injEq, List.cons.injEq, hword]
    unfold ofKeyword
    split <;> cases a <;> simp_all [Associativity.keyword]

theorem ofLines_append (number : Nat) (u v : List (List Char)) :
    ofLines number (u ++ v) = ofLines number u ++ ofLines (number + u.length) v := by
  simp [ofLines, List.zipIdx_append]

theorem ofLines_cons (number : Nat) (line : List Char) (rest : List (List Char)) :
    ofLines number (line :: rest)
      = ((ofLine line).map fun d => (number, d)).toList ++ ofLines (number + 1) rest := by
  rw [ofLines, List.zipIdx_cons]
  cases h : ofLine line <;> simp [ofLines, h]

/-- A line is a precedence line if its directive is one. -/
theorem isPrecedenceLine_eq (line : List Char) :
    isPrecedenceLine line = (ofLine line).any isPrecedence := by
  rw [Bool.eq_iff_iff, isPrecedenceLine_iff, Option.any_eq_true]
  constructor
  · rintro ⟨a, names, h⟩
    exact ⟨_, ofLine_eq_precedence_iff.2 h, rfl⟩
  · rintro ⟨d, hd, hprecedence⟩
    cases d with
    | precedence a names => exact ⟨a, names, ofLine_eq_precedence_iff.1 hd⟩
    | _ => simp [isPrecedence] at hprecedence

theorem countP_ofLines (number : Nat) (lines : List (List Char)) :
    (ofLines number lines).countP (·.2.isPrecedence) = lines.countP isPrecedenceLine := by
  induction lines generalizing number with
  | nil => rfl
  | cons line rest ih =>
    rw [ofLines_cons, List.countP_append, ih, List.countP_cons, isPrecedenceLine_eq, Nat.add_comm]
    cases ofLine line <;> simp

/-- A precedence directive is that of a line which lists the symbols. -/
theorem exists_lists_of_declaredIn {number k : Nat} {lines : List (List Char)} {a : Associativity}
    {name : String}
    (h : DeclaredIn ((ofLines number lines).filter (·.2.isPrecedence)) k a name) :
    ∃ line ∈ lines, Lists line a name := by
  obtain ⟨n, names, hk, hname⟩ := h
  obtain ⟨hmem, -⟩ := List.mem_filter.1 (List.mem_of_getElem? hk)
  obtain ⟨⟨line, m⟩, hline, hdirective⟩ := List.mem_filterMap.1 hmem
  obtain ⟨d, hd, heq⟩ := Option.map_eq_some_iff.1 hdirective
  obtain ⟨-, rfl⟩ := Prod.mk.inj heq
  obtain ⟨word, hword, rfl⟩ := List.mem_map.1 hname
  refine ⟨line, ?_, names, ofLine_eq_precedence_iff.1 hd, by simpa using hword⟩
  simpa using List.mem_map_of_mem (f := Prod.fst) hline

end Directive

/-! ## Section 3: Declarations -/

namespace Declarations

variable {blocks : Blocks} {d next : Declarations}

theorem declareAll_append {u v : List (Nat × Directive)} :
    declareAll blocks d (u ++ v) = .ok next ↔
      ∃ middle, declareAll blocks d u = .ok middle ∧ declareAll blocks middle v = .ok next := by
  induction u generalizing d with
  | nil => simp [declareAll]
  | cons directive u ih =>
    rw [List.cons_append, declareAll, declareAll]
    split
    · simp
    · exact ih

theorem declareAll_append_eq_error_iff {u v : List (Nat × Directive)} {e : GrammarError} :
    declareAll blocks d (u ++ v) = .error e ↔
      declareAll blocks d u = .error e ∨
        ∃ middle, declareAll blocks d u = .ok middle ∧ declareAll blocks middle v = .error e := by
  induction u generalizing d with
  | nil => simp [declareAll]
  | cons directive u ih =>
    rw [List.cons_append, declareAll, declareAll]
    split
    · simp
    · exact ih

theorem levels_declareAll {directives : List (Nat × Directive)}
    (h : declareAll blocks d directives = .ok next) :
    next.levels = d.levels + directives.countP (·.2.isPrecedence) := by
  induction directives generalizing d with
  | nil => simp [Except.ok.inj h]
  | cons directive rest ih =>
    unfold declareAll at h
    split at h
    · simp at h
    rename_i middle hmiddle
    obtain ⟨line, directive⟩ := directive
    rw [ih h, List.countP_cons]
    cases hprecedence : directive.isPrecedence with
    | false =>
      rw [(declare_eq hmiddle hprecedence).2]
      simp
    | true =>
      cases directive with
      | precedence a words =>
        obtain rfl := Except.ok.inj hmiddle
        rw [addPrecedenceLine_eq, levels_rank]
        simp only [if_true]
        omega
      | _ => simp [Directive.isPrecedence] at hprecedence

/-- What no line lists keeps its precedence. -/
theorem lookup_of_not_lists {number : Nat} {lines : List (List Char)} {name : String}
    (h : declareAll blocks d (Directive.ofLines number lines) = .ok next)
    (hnone : ∀ line ∈ lines, ∀ a, ¬ Lists line a name) :
    next.precedence.lookup name = d.precedence.lookup name := by
  rcases lookup_declareAll h name with ⟨k, a, hk, -⟩ | ⟨-, hlookup⟩
  · obtain ⟨line, hline, hlists⟩ := Directive.exists_lists_of_declaredIn hk
    exact absurd hlists (hnone line hline a)
  · exact hlookup

/-- What a line is the last to list has the precedence of this line. -/
theorem lookup_of_listedLast {number n : Nat} {lines : List (List Char)} {a : Associativity}
    {name : String} (h : declareAll blocks d (Directive.ofLines number lines) = .ok next)
    (hlast : ListedLast lines n a name) :
    next.precedence.lookup name = some ⟨a, d.levels + levelOfLine lines n⟩ := by
  obtain ⟨line, hline, hlists⟩ := hlast.listed
  have hlevel := levelOfLine_eq hline hlists.isPrecedenceLine
  obtain ⟨names, hwords, hname⟩ := hlists
  obtain ⟨hlt, rfl⟩ := List.getElem?_eq_some_iff.1 hline
  have hsplit : lines = lines.take n ++ lines[n] :: lines.drop (n + 1) := by
    rw [List.getElem_cons_drop, List.take_append_drop]
  rw [hsplit, Directive.ofLines_append, Directive.ofLines_cons,
    Directive.ofLine_eq_precedence_iff.2 hwords] at h
  obtain ⟨before, hbefore, h⟩ := declareAll_append.1 h
  obtain ⟨middle, hmiddle, hafter⟩ := declareAll_append.1 h
  -- The line overwrites what was said before, and no line after it says more.
  have hlookup : middle.precedence.lookup name = some ⟨a, before.levels + 1⟩ := by
    obtain rfl := Except.ok.inj hmiddle
    rw [addPrecedenceLine_eq, lookup_rank, if_pos]
    exact List.mem_map.2 ⟨name.toList, hname, String.ofList_toList⟩
  rw [lookup_of_not_lists hafter, hlookup, hlevel, levels_declareAll hbefore,
    Directive.countP_ofLines, Nat.add_assoc]
  intro other hother b hlists
  obtain ⟨i, hi, rfl⟩ := List.mem_drop_iff_getElem.1 hother
  exact hlast.last (n + 1 + i) _ b (by omega) (List.getElem?_eq_getElem _) hlists

/-- What is declared comes from the lines of the section. -/
theorem exists_ofText_of_parse {text : List Char} (h : parse text = .ok d) :
    ∃ b, Blocks.ofText text = .ok b ∧
      declareAll b (ofBlocks b) (Directive.ofLines 1 (lines b.directives)) = .ok d := by
  unfold parse at h
  split at h
  · simp at h
  · rename_i b hb
    exact ⟨b, hb, h⟩

end Declarations

end SlrCompiler
