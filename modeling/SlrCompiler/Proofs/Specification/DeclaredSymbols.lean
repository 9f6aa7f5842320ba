import SlrCompiler.Proofs.Finite.FirstAppearance
import SlrCompiler.Proofs.Specification.BlockCuts
import SlrCompiler.Proofs.Specification.PrecedenceLines
import SlrCompiler.Proofs.Specification.UnionMembers

/-! # What the lines declare

    The tokens, the members of symbols and the faults of a declarations section, read
    off the words of its lines: the tokens in the order in which the lines name them
    (`declaredTokens`), the member of a symbol by its last binding (`BoundIn`), and the
    fault that is reported as the first one, in the order of lines and words
    (`FaultIn`).

    All three are shown in the same way. What a line can be is said once
    (`declareLine_cases`); from it comes what one line does to tokens, members and
    faults, and from that, by induction, what all lines do.
-/

namespace SlrCompiler

open Text

/-! ## Section 1: What lines say -/

/-- The two kinds of lines on which symbols are given members. -/
inductive MemberKind where
  | token
  | type
  deriving DecidableEq

namespace MemberKind

def keyword : MemberKind → List Char
  | .token => "%token".toList
  | .type => "%type".toList

theorem keyword_inj {kind other : MemberKind} : kind.keyword = other.keyword ↔ kind = other := by
  cases kind <;> cases other <;> decide

theorem not_opensMember_keyword (kind : MemberKind) : ¬ OpensMember kind.keyword := by
  cases kind <;> decide

/-- The members that lines of the kind have given to symbols. -/
def members (d : Declarations) : MemberKind → Bindings String
  | .token => d.tokenMembers
  | .type => d.typeMembers

end MemberKind

/-- What is wrong with a line: it declares the types of symbols, and there is no union;
    or it gives members to symbols, and something is wrong with a word. -/
inductive FaultOn (b : Blocks) (line : Nat) (words : List (List Char)) :
    Nat → GrammarError → Prop
  | typeWithoutUnion : words.head? = some MemberKind.type.keyword → b.union = none →
      FaultOn b line words 0 (.typeWithoutUnion line)
  | member {kind : MemberKind} {k : Nat} {e : GrammarError} : words.head? = some kind.keyword →
      Directive.MemberFault b.HasMember line words k e → FaultOn b line words (k + 1) e

/-- A line of the kind binds the symbol to the member, by the word with the given number
    and the one after it. -/
def BoundOn (kind : MemberKind) (words : List (List Char)) (name : String) (k : Nat)
    (member : String) : Prop :=
  words.head? = some kind.keyword ∧ Directive.BoundAfter words name k member

theorem BoundOn.lt_length {kind : MemberKind} {words : List (List Char)} {name : String} {k : Nat}
    {member : String} (h : BoundOn kind words name k member) : k < words.length := by
  obtain ⟨-, word, hword, -⟩ := h
  exact (List.getElem?_eq_some_iff.1 hword).1

/-- The tokens that a line names: on a `%token` line all words that are not references to
    members, and on a precedence line all words. -/
def declaredTokens (words : List (List Char)) : List String :=
  match words with
  | [] => []
  | keyword :: arguments =>
    if keyword = MemberKind.token.keyword then
      (arguments.filter fun word => ¬ OpensMember word).map String.ofList
    else if keyword ∈ [Associativity.left, .right, .nonassoc].map (·.keyword.toList) then
      arguments.map String.ofList
    else []

section Lines

variable (ls : List (List Char))

/-- A word of the lines is at fault, the first of them having the given number. -/
def FaultIn (b : Blocks) (number n k : Nat) (e : GrammarError) : Prop :=
  ∃ line, ls[n]? = some line ∧ FaultOn b (number + n) (words line) k e

/-- A word of the lines binds the symbol to the member. -/
def BoundIn (kind : MemberKind) (name : String) (n k : Nat) (member : String) : Prop :=
  ∃ line, ls[n]? = some line ∧ BoundOn kind (words line) name k member

end Lines

/-! ## Section 2: One line -/

namespace Directive

/-- The directive of a line that gives members to symbols. -/
def ofMembers (arguments : List (List Char)) : MemberKind → Directive
  | .token => .token arguments
  | .type => .type arguments

/-- **What a line can be**, by its first word. -/
theorem ofLine_cases (line : List Char) :
    (∃ (kind : MemberKind) (arguments : _), words line = kind.keyword :: arguments ∧
        ofLine line = some (ofMembers arguments kind)) ∨
      (∃ (a : Associativity) (arguments : _), words line = a.keyword.toList :: arguments ∧
        ofLine line = some (.precedence a arguments)) ∨
      (∀ kind : MemberKind, (words line).head? ≠ some kind.keyword) ∧
        (∀ a : Associativity, (words line).head? ≠ some a.keyword.toList) ∧
        ∀ directive ∈ ofLine line, ∃ text, directive = .unrecognized text := by
  unfold ofLine
  cases words line with
  | nil => simp
  | cons word arguments =>
    -- Keywords are compared as strings, words are lists of characters.
    have hword : ∀ keyword : String, String.ofList word = keyword → word = keyword.toList := by
      rintro _ rfl
      rw [String.toList_ofList]
    simp only [Option.some.injEq, List.head?_cons, List.cons.injEq]
    unfold ofKeyword
    split
    case h_1 h => exact .inl ⟨.token, arguments, ⟨hword _ h, rfl⟩, rfl⟩
    case h_2 h => exact .inl ⟨.type, arguments, ⟨hword _ h, rfl⟩, rfl⟩
    case h_3 h => exact .inr (.inl ⟨.left, arguments, ⟨hword _ h, rfl⟩, rfl⟩)
    case h_4 h => exact .inr (.inl ⟨.right, arguments, ⟨hword _ h, rfl⟩, rfl⟩)
    case h_5 h => exact .inr (.inl ⟨.nonassoc, arguments, ⟨hword _ h, rfl⟩, rfl⟩)
    case h_6 htoken htype hleft hright hnonassoc =>
      have hother : ∀ keyword : String, String.ofList word ≠ keyword →
          some word ≠ some keyword.toList := by
        rintro keyword hne heq
        rw [Option.some.inj heq, String.ofList_toList] at hne
        exact hne rfl
      refine .inr (.inr ⟨?_, ?_, ?_⟩)
      · rintro (_ | _)
        · exact hother _ htoken
        · exact hother _ htype
      · rintro (_ | _ | _)
        · exact hother _ hleft
        · exact hother _ hright
        · exact hother _ hnonassoc
      · rintro _ ⟨⟩
        exact ⟨_, rfl⟩

end Directive

namespace Declarations

variable {blocks : Blocks} {d next : Declarations} {number : Nat} {line : List Char}
  {ls : List (List Char)} {e : GrammarError}

/-- Takes up one line. -/
def declareLine (blocks : Blocks) (d : Declarations) (number : Nat) (line : List Char) :
    Except GrammarError Declarations :=
  declareAll blocks d (Directive.ofLines number [line])

/-- Takes up the symbols of a line that gives them members. -/
def addMembers (d : Declarations) (symbols : List (String × Option String)) :
    MemberKind → Declarations
  | .token => d.addTokenLine symbols
  | .type => d.addTypeLine symbols

theorem declareAll_singleton (directive : Nat × Directive) :
    declareAll blocks d [directive] = declare blocks d directive := by
  unfold declareAll
  cases declare blocks d directive <;> rfl

/-- **What a line does**: it gives members to symbols, where it may be at fault; it ranks
    symbols; or it does nothing. -/
theorem declareLine_cases (blocks : Blocks) (d : Declarations) (number : Nat) (line : List Char) :
    (∃ (kind : MemberKind) (arguments : _), words line = kind.keyword :: arguments ∧
        declareLine blocks d number line =
          if kind = .type ∧ blocks.union = none then .error (.typeWithoutUnion number)
          else (Directive.bindMembers blocks.declares number none arguments).map
            fun symbols => d.addMembers symbols kind) ∨
      (∃ (a : Associativity) (arguments : _), words line = a.keyword.toList :: arguments ∧
        declareLine blocks d number line
          = .ok (d.addPrecedenceLine a (arguments.map String.ofList))) ∨
      (∀ kind : MemberKind, (words line).head? ≠ some kind.keyword) ∧
        (∀ a : Associativity, (words line).head? ≠ some a.keyword.toList) ∧
        declareLine blocks d number line = .ok d := by
  have hline : declareLine blocks d number line
      = declareAll blocks d ((Directive.ofLine line).map fun d => (number, d)).toList := by
    rw [declareLine, Directive.ofLines_cons]
    simp [Directive.ofLines]
  rcases Directive.ofLine_cases line with ⟨kind, arguments, hwords, hdirective⟩ |
    ⟨a, arguments, hwords, hdirective⟩ | ⟨hkind, hprecedence, hunrecognized⟩
  · refine .inl ⟨kind, arguments, hwords, ?_⟩
    rw [hline, hdirective, Option.map_some, Option.toList_some, declareAll_singleton]
    cases kind with
    | token => simp [Directive.ofMembers, declare, addMembers]
    | type =>
      cases hunion : blocks.union <;> simp [Directive.ofMembers, declare, addMembers, hunion]
  · refine .inr (.inl ⟨a, arguments, hwords, ?_⟩)
    rw [hline, hdirective, Option.map_some, Option.toList_some, declareAll_singleton]
    rfl
  · refine .inr (.inr ⟨hkind, hprecedence, ?_⟩)
    rw [hline]
    cases hdirective : Directive.ofLine line with
    | none => rfl
    | some directive =>
      obtain ⟨text, rfl⟩ := hunrecognized directive hdirective
      rfl

theorem declareAll_cons_eq_ok_iff :
    declareAll blocks d (Directive.ofLines number (line :: ls)) = .ok next ↔
      ∃ middle, declareLine blocks d number line = .ok middle ∧
        declareAll blocks middle (Directive.ofLines (number + 1) ls) = .ok next := by
  rw [← List.singleton_append, Directive.ofLines_append, declareAll_append]
  rfl

theorem declareAll_cons_eq_error_iff :
    declareAll blocks d (Directive.ofLines number (line :: ls)) = .error e ↔
      declareLine blocks d number line = .error e ∨
        ∃ middle, declareLine blocks d number line = .ok middle ∧
          declareAll blocks middle (Directive.ofLines (number + 1) ls) = .error e := by
  rw [← List.singleton_append, Directive.ofLines_append, declareAll_append_eq_error_iff]
  rfl

/-! ## Section 3: Faults -/

theorem head?_ne_of_precedence (kind : MemberKind) (a : Associativity)
    (arguments : List (List Char)) :
    (a.keyword.toList :: arguments).head? ≠ some kind.keyword := by
  cases kind <;> cases a <;> exact fun h => absurd (Option.some.inj h) (by decide)

/-- The first word is at fault only for want of a union. -/
theorem of_faultOn_zero {words : List (List Char)} (h : FaultOn blocks number words 0 e) :
    words.head? = some MemberKind.type.keyword ∧ blocks.union = none ∧
      e = .typeWithoutUnion number := by
  cases h with
  | typeWithoutUnion htype hunion => exact ⟨htype, hunion, rfl⟩

/-- Only lines that give members to symbols are at fault. -/
theorem exists_kind_of_faultOn {words : List (List Char)} {k : Nat}
    (h : FaultOn blocks number words k e) :
    ∃ kind : MemberKind, words.head? = some kind.keyword := by
  cases h with
  | typeWithoutUnion htype _ => exact ⟨.type, htype⟩
  | member hkind _ => exact ⟨_, hkind⟩

/-- **One line** is refused for its first fault. -/
theorem declareLine_eq_error_iff : declareLine blocks d number line = .error e ↔
    IsFirst (FaultOn blocks number (words line)) e := by
  rcases declareLine_cases blocks d number line with ⟨kind, arguments, hwords, hline⟩ |
    ⟨a, arguments, hwords, hline⟩ | ⟨hkind, -, hline⟩
  · -- The keyword is word 0, so behind it the faults of the line are those of its arguments.
    have hlater : (fun k => FaultOn blocks number (kind.keyword :: arguments) (k + 1))
        = Directive.MemberFault blocks.HasMember number (kind.keyword :: arguments) := by
      funext k f
      refine propext ⟨fun h => ?_, .member rfl⟩
      cases h with
      | member _ hfault => exact hfault
    have hmembers : Directive.bindMembers blocks.declares number none arguments = .error e ↔
        IsFirst (Directive.MemberFault blocks.HasMember number (kind.keyword :: arguments)) e :=
      Directive.bindMembers_eq_error_iff (fun _ => Blocks.declares_iff)
        (by simp [kind.not_opensMember_keyword])
    -- A precedence line and a line that is passed over are not refused, and they have no fault.
    rw [hline, hwords]
    split
    · rename_i hnoUnion
      have hfault : FaultOn blocks number (kind.keyword :: arguments) 0
          (.typeWithoutUnion number) :=
        .typeWithoutUnion (by rw [hnoUnion.1, List.head?_cons]) hnoUnion.2
      rw [isFirst_iff_of_zero hfault fun f hf => (of_faultOn_zero hf).2.2, Except.error.injEq,
        eq_comm]
    · rename_i hunion
      rw [isFirst_iff_of_none, hlater, map_eq_error_iff]
      · exact hmembers
      · intro f hf
        obtain ⟨htype, hnone, -⟩ := of_faultOn_zero hf
        exact hunion ⟨MemberKind.keyword_inj.1 (Option.some.inj htype), hnone⟩
  · rw [hline, hwords]
    simp only [reduceCtorEq, false_iff]
    rintro ⟨k, hfault, -⟩
    obtain ⟨kind, hkind⟩ := exists_kind_of_faultOn hfault
    exact head?_ne_of_precedence kind a arguments hkind
  · rw [hline]
    simp only [reduceCtorEq, false_iff]
    rintro ⟨k, hfault, -⟩
    obtain ⟨kind, hhead⟩ := exists_kind_of_faultOn hfault
    exact hkind kind hhead

/-- **All lines** are refused for the first fault on the first line that has one. -/
theorem declareAll_eq_error_iff :
    declareAll blocks d (Directive.ofLines number ls) = .error e ↔
      IsFirst (fun n => IsFirst (FaultIn ls blocks number n)) e := by
  induction ls generalizing d number with
  | nil =>
    simp only [Directive.ofLines, declareAll, List.zipIdx_nil, List.filterMap_nil, reduceCtorEq,
      false_iff]
    rintro ⟨n, ⟨k, ⟨line, hline, -⟩, -⟩, -⟩
    simp at hline
  | cons line ls ih =>
    have hfirst : FaultIn (line :: ls) blocks number 0 = FaultOn blocks number (words line) := by
      funext k f
      simp [FaultIn]
    have hlater : ∀ n, FaultIn (line :: ls) blocks number (n + 1)
        = FaultIn ls blocks (number + 1) n := by
      intro n
      funext k f
      simp [FaultIn, Nat.add_right_comm, Nat.add_assoc]
    rw [isFirst_iff, hfirst]
    simp only [hlater, declareAll_cons_eq_error_iff, ih, ← declareLine_eq_error_iff (d := d)]
    cases declareLine blocks d number line <;> simp

/-! ## Section 4: Tokens -/

/-- Tokens are listed in the order of first appearance, if they were. -/
theorem tokens_addToken {seen : List String} (hd : d.tokens = seen.eraseDups) (name : String) :
    (d.addToken name).tokens = (seen ++ [name]).eraseDups := by
  have hmem : name ∈ d.tokens ↔ name ∈ seen := by rw [hd, List.mem_eraseDups]
  unfold addToken
  rw [List.eraseDups_append, ← hd]
  by_cases hname : name ∈ seen
  · rw [if_pos (hmem.2 hname)]
    simp [List.removeAll, hname]
  · rw [if_neg (mt hmem.1 hname)]
    simp [List.removeAll, hname, List.eraseDups_cons]

/-- Steps that each add a token, whatever else they do. -/
theorem tokens_foldl {α : Type} (step : Declarations → α → Declarations) (nameOf : α → String)
    (hstep : ∀ d a, (step d a).tokens = (d.addToken (nameOf a)).tokens) (items : List α)
    {seen : List String} (hd : d.tokens = seen.eraseDups) :
    (items.foldl step d).tokens = (seen ++ items.map nameOf).eraseDups := by
  induction items generalizing d seen with
  | nil => simpa using hd
  | cons a rest ih =>
    have hnext : (step d a).tokens = (seen ++ [nameOf a]).eraseDups := by
      rw [hstep, tokens_addToken hd]
    rw [List.foldl_cons, ih hnext]
    simp

theorem tokens_addTokenLine (symbols : List (String × Option String)) {seen : List String}
    (hd : d.tokens = seen.eraseDups) :
    (d.addTokenLine symbols).tokens = (seen ++ symbols.map Prod.fst).eraseDups :=
  tokens_foldl
    (fun d (symbol : String × Option String) =>
      { d.addToken symbol.1 with tokenMembers := bindMember d.tokenMembers symbol })
    Prod.fst (fun _ _ => rfl) symbols hd

theorem tokens_rank (v : Precedence) (names : List String) {seen : List String}
    (hd : d.tokens = seen.eraseDups) : (d.rank v names).tokens = (seen ++ names).eraseDups := by
  have hfold := tokens_foldl
    (fun d name => { d.addToken name with precedence := d.precedence.bind name v }) id
    (fun _ _ => rfl) names hd
  rwa [List.map_id] at hfold

theorem declaredTokens_members (arguments : List (List Char)) (kind : MemberKind) :
    declaredTokens (kind.keyword :: arguments)
      = if kind = .token then (arguments.filter fun word => ¬ OpensMember word).map String.ofList
        else [] := by
  cases kind with
  | token => rfl
  | type => rfl

theorem declaredTokens_precedence (arguments : List (List Char)) (a : Associativity) :
    declaredTokens (a.keyword.toList :: arguments) = arguments.map String.ofList := by
  cases a <;> rfl

theorem declaredTokens_eq_nil {words : List (List Char)}
    (hkind : ∀ kind : MemberKind, words.head? ≠ some kind.keyword)
    (hprecedence : ∀ a : Associativity, words.head? ≠ some a.keyword.toList) :
    declaredTokens words = [] := by
  cases words with
  | nil => rfl
  | cons word arguments =>
    have htoken : word ≠ MemberKind.token.keyword := fun h => hkind .token (by rw [h]; rfl)
    have hnone : word ∉ [Associativity.left, .right, .nonassoc].map (·.keyword.toList) := by
      intro h
      obtain ⟨a, -, rfl⟩ := List.mem_map.1 h
      exact hprecedence a rfl
    rw [declaredTokens, if_neg htoken, if_neg hnone]

/-- **One line** adds the tokens that it names. -/
theorem tokens_declareLine (h : declareLine blocks d number line = .ok next) {seen : List String}
    (hd : d.tokens = seen.eraseDups) :
    next.tokens = (seen ++ declaredTokens (words line)).eraseDups := by
  rcases declareLine_cases blocks d number line with ⟨kind, arguments, hwords, hline⟩ |
    ⟨a, arguments, hwords, hline⟩ | ⟨hkind, hprecedence, hline⟩
  · rw [hline] at h
    split at h
    · simp at h
    · obtain ⟨symbols, hsymbols, rfl⟩ := map_eq_ok_iff.1 h
      rw [hwords, declaredTokens_members]
      cases kind with
      | token =>
        rw [if_pos rfl, ← Directive.map_fst_of_bindMembers hsymbols]
        exact tokens_addTokenLine symbols hd
      | type => simpa [addMembers, addTypeLine] using hd
  · obtain rfl := Except.ok.inj (hline.symm.trans h)
    rw [hwords, declaredTokens_precedence]
    exact tokens_rank ⟨a, d.levels + 1⟩ _ hd
  · obtain rfl := Except.ok.inj (hline.symm.trans h)
    rw [declaredTokens_eq_nil hkind hprecedence, List.append_nil]
    exact hd

/-- **All lines**: the tokens are what they name, in the order of first appearance. -/
theorem tokens_declareAll (h : declareAll blocks d (Directive.ofLines number ls) = .ok next)
    {seen : List String} (hd : d.tokens = seen.eraseDups) :
    next.tokens = (seen ++ ls.flatMap fun line => declaredTokens (words line)).eraseDups := by
  induction ls generalizing d number seen with
  | nil =>
    obtain rfl := Except.ok.inj h
    simpa using hd
  | cons line ls ih =>
    obtain ⟨middle, hmiddle, hrest⟩ := declareAll_cons_eq_ok_iff.1 h
    rw [ih hrest (tokens_declareLine hmiddle hd), List.flatMap_cons, List.append_assoc]

/-! ## Section 5: Members -/

theorem members_addToken (kind : MemberKind) (name : String) :
    kind.members (d.addToken name) = kind.members d := by
  unfold addToken
  split
  · rfl
  · cases kind <;> rfl

theorem members_rank (kind : MemberKind) (v : Precedence) (names : List String) :
    kind.members (d.rank v names) = kind.members d := by
  unfold rank
  induction names generalizing d with
  | nil => rfl
  | cons name rest ih =>
    rw [List.foldl_cons, ih]
    cases kind with
    | token => exact members_addToken .token name
    | type => exact members_addToken .type name

/-- A line gives members to symbols in the bindings of its own kind. -/
theorem members_addMembers (kind other : MemberKind) (symbols : List (String × Option String)) :
    kind.members (d.addMembers symbols other)
      = if kind = other then symbols.foldl bindMember (kind.members d) else kind.members d := by
  cases other with
  | token =>
    unfold addMembers addTokenLine
    induction symbols generalizing d with
    | nil => cases kind <;> rfl
    | cons symbol rest ih =>
      rw [List.foldl_cons, ih]
      cases kind with
      | token => rfl
      | type => exact members_addToken .type symbol.1
  | type => cases kind <;> rfl

/-- **One line** gives a symbol the member of its last binding there. -/
theorem lookup_declareLine (h : declareLine blocks d number line = .ok next) (kind : MemberKind)
    (name member : String) :
    (kind.members next).lookup name = some member ↔
      IsLastOr (BoundOn kind (words line) name) ((kind.members d).lookup name = some ·) member := by
  have hkept : kind.members next = kind.members d → (words line).head? ≠ some kind.keyword →
      ((kind.members next).lookup name = some member ↔
        IsLastOr (BoundOn kind (words line) name)
          ((kind.members d).lookup name = some ·) member) := by
    intro hsame hother
    rw [hsame, isLastOr_of_none fun k other hbound => hother hbound.1]
  -- Only a line with the keyword of this kind changes the bindings.
  rcases declareLine_cases blocks d number line with ⟨other, arguments, hwords, hline⟩ |
    ⟨a, arguments, hwords, hline⟩ | ⟨hkind, -, hline⟩
  · rw [hline] at h
    split at h
    · simp at h
    · obtain ⟨symbols, hsymbols, rfl⟩ := map_eq_ok_iff.1 h
      by_cases hkind : kind = other
      · subst hkind
        have hslot : ∀ member : String, none = some member ↔
            RefersTo kind.keyword member.toList := by
          intro member
          simp only [reduceCtorEq, false_iff]
          exact fun hrefers => kind.not_opensMember_keyword hrefers.opensMember
        have hbound : BoundOn kind (kind.keyword :: arguments) name
            = Directive.BoundAfter (kind.keyword :: arguments) name := by
          funext k member
          simp [BoundOn]
        rw [members_addMembers, if_pos rfl, hwords, hbound]
        exact Directive.lookup_bindMembers hslot hsymbols _ name member
      · apply hkept
        · rw [members_addMembers, if_neg hkind]
        · rw [hwords, List.head?_cons, ne_eq, Option.some.injEq, MemberKind.keyword_inj]
          exact Ne.symm hkind
  · obtain rfl := Except.ok.inj (hline.symm.trans h)
    apply hkept
    · rw [addPrecedenceLine_eq, members_rank]
      cases kind <;> rfl
    · rw [hwords]
      exact head?_ne_of_precedence kind a arguments
  · obtain rfl := Except.ok.inj (hline.symm.trans h)
    exact hkept rfl (hkind kind)

/-- **All lines** give a symbol the member of its last binding on the last line that has
    one. -/
theorem lookup_declareAll_members (h : declareAll blocks d (Directive.ofLines number ls) = .ok next)
    (kind : MemberKind) (name member : String) :
    (kind.members next).lookup name = some member ↔
      IsLastOr (fun n => IsLast (BoundIn ls kind name n))
        ((kind.members d).lookup name = some ·) member := by
  induction ls generalizing d number with
  | nil =>
    obtain rfl := Except.ok.inj h
    rw [isLastOr_of_none]
    rintro n other ⟨k, ⟨line, hline, -⟩, -⟩
    simp at hline
  | cons line ls ih =>
    obtain ⟨middle, hmiddle, hrest⟩ := declareAll_cons_eq_ok_iff.1 h
    -- The first line has number 0, and each of the others one more than it has among them.
    have hfirst : BoundIn (line :: ls) kind name 0 = BoundOn kind (words line) name := by
      funext k other
      simp [BoundIn]
    have hlater : ∀ n, BoundIn (line :: ls) kind name (n + 1) = BoundIn ls kind name n := by
      intro n
      funext k other
      simp [BoundIn]
    have hlast : (∀ other, ¬ IsLast (BoundOn kind (words line) name) other) ↔
        ∀ k other, ¬ BoundOn kind (words line) name k other := by
      have hexists := exists_isLast_iff (P := BoundOn kind (words line) name)
        fun k other hbound => hbound.lt_length
      rw [← not_exists, hexists]
      simp only [not_exists]
    rw [ih hrest, isLastOr_iff (P := fun n => IsLast (BoundIn (line :: ls) kind name n)), hfirst]
    simp only [hlater, hlast, lookup_declareLine hmiddle]
    rfl

/-! ## Section 6: The section -/

variable {text : List Char} {b : Blocks}

/-- Where blocks and comments are closed, the lines are all there is to read. -/
theorem parse_eq_of_cuts (hb : Blocks.Cuts text b) :
    parse text = declareAll b (ofBlocks b) (Directive.ofLines 1 (lines b.directives)) := by
  rw [parse, Blocks.ofText_eq_ok_iff.2 hb]
  rfl

/-- No token is listed twice. -/
theorem nodup_tokens_of_parse (hd : parse text = .ok d) : d.tokens.Nodup := by
  obtain ⟨b, -, hdeclared⟩ := exists_ofText_of_parse hd
  have hstart : (ofBlocks b).tokens = List.eraseDups [] := rfl
  rw [tokens_declareAll hdeclared hstart]
  exact nodup_eraseDups _

theorem parse_eq_error_iff (hb : Blocks.Cuts text b) : parse text = .error e ↔
    IsFirst (fun n => IsFirst (FaultIn (lines b.directives) b 1 n)) e := by
  rw [parse_eq_of_cuts hb, declareAll_eq_error_iff]

theorem exists_parse_eq_error_iff (hb : Blocks.Cuts text b) :
    (∃ e, parse text = .error e) ↔ ∃ n k e, FaultIn (lines b.directives) b 1 n k e := by
  simp only [parse_eq_error_iff hb, exists_isFirst_iff]

/-- The union has the members that symbols are bound to, or one of them would be at fault. -/
theorem hasMember_of_boundIn (hb : Blocks.Cuts text b) (hd : parse text = .ok d)
    {kind : MemberKind} {name member : String} {n k : Nat}
    (h : BoundIn (lines b.directives) kind name n k member) : b.HasMember member.toList := by
  obtain ⟨line, hline, hkind, word, hword, hrefers, -⟩ := h
  by_contra hnot
  have hfault : ∃ k e, Directive.MemberFault b.HasMember (1 + n) (words line) k e := by
    cases k with
    | zero =>
      -- the keyword is no reference
      rw [← List.head?_eq_getElem?, hkind] at hword
      exact absurd (Option.some.inj hword ▸ hrefers.opensMember) kind.not_opensMember_keyword
    | succ k =>
      have hlt : k < (words line).length := by
        have := (List.getElem?_eq_some_iff.1 hword).1
        omega
      have hprevious := List.getElem?_eq_getElem hlt
      by_cases hopens : OpensMember (words line)[k]
      · exact ⟨k, _, .afterReference hprevious hopens hword hrefers.opensMember⟩
      · exact ⟨k, _, .unknown hprevious hopens hword hrefers hnot⟩
  obtain ⟨k, f, hf⟩ := hfault
  obtain ⟨e, he⟩ := (exists_parse_eq_error_iff hb).2 ⟨n, k + 1, f, line, hline, .member hkind hf⟩
  simp [hd] at he

/-- **Declarations are read as declared**: the tokens and the members are those of the
    lines that remain when blocks and comments are cut out, and the section is refused
    for the first fault of these lines. -/
theorem reads_as_declared (text : List Char) :
    (∀ d, parse text = .ok d → ∃ b : Blocks, Blocks.Cuts text b ∧
      d.tokens
        = ((lines b.directives).flatMap fun line => declaredTokens (words line)).eraseDups ∧
      ∀ (kind : MemberKind) (name member : String),
        ((kind.members d).lookup name = some member ↔
          IsLast (fun n => IsLast (BoundIn (lines b.directives) kind name n)) member) ∧
        ((kind.members d).lookup name = some member → b.HasMember member.toList)) ∧
    ∀ b : Blocks, Blocks.Cuts text b →
      ((∃ e, parse text = .error e) ↔ ∃ n k e, FaultIn (lines b.directives) b 1 n k e) ∧
      ∀ e, parse text = .error e ↔
        IsFirst (fun n => IsFirst (FaultIn (lines b.directives) b 1 n)) e := by
  refine ⟨fun d hd => ?_, fun b hb => ?_⟩
  case refine_2 => exact ⟨exists_parse_eq_error_iff hb, fun e => parse_eq_error_iff hb⟩
  obtain ⟨b, hb, hdeclared⟩ := exists_ofText_of_parse hd
  have hcuts := Blocks.ofText_eq_ok_iff.1 hb
  have hmembers : ∀ (kind : MemberKind) (name member : String),
      (kind.members d).lookup name = some member ↔
        IsLast (fun n => IsLast (BoundIn (lines b.directives) kind name n)) member := by
    intro kind name member
    have hstart : (kind.members (ofBlocks b)).lookup name ≠ some member := by
      cases kind <;> simp [MemberKind.members, ofBlocks]
    rw [lookup_declareAll_members hdeclared, IsLastOr, or_iff_left fun h => hstart h.2]
  refine ⟨b, hcuts, ?_, fun kind name member => ⟨hmembers kind name member, fun h => ?_⟩⟩
  · have hstart : (ofBlocks b).tokens = List.eraseDups [] := rfl
    simpa using tokens_declareAll hdeclared hstart
  · obtain ⟨n, ⟨k, hbound, -⟩, -⟩ := (hmembers kind name member).1 h
    exact hasMember_of_boundIn hcuts hd hbound

/-- `A` is bound on two lines, and twice on one of them, `B` is named twice and bound to
    nothing. In the other section an unknown member follows a reference. -/
theorem reads_as_declared_rebound :
    (∃ (d : Declarations) (b : Blocks),
      parse "%union { int i; char *s; }\n%type <i> A\n%token <i> A B <s> A\n%left B C".toList
        = .ok d ∧
      Blocks.Cuts "%union { int i; char *s; }\n%type <i> A\n%token <i> A B <s> A\n%left B C".toList
        b ∧ d.tokens = ["A", "B", "C"] ∧
      IsLast (fun n => IsLast (BoundIn (lines b.directives) .token "A" n)) "s" ∧
      IsLast (fun n => IsLast (BoundIn (lines b.directives) .type "A" n)) "i" ∧
      (∀ member, ¬ IsLast (fun n => IsLast (BoundIn (lines b.directives) .token "B" n)) member) ∧
      b.HasMember "s".toList) ∧
    ∃ b : Blocks, Blocks.Cuts "%union { int i; }\n%token A <i> <j> B\n%type <k> e".toList b ∧
      IsFirst (fun n => IsFirst (FaultIn (lines b.directives) b 1 n))
        (.malformedUnionMember 2 "<j>") := by
  constructor
  · have hfacts : (parse
        "%union { int i; char *s; }\n%type <i> A\n%token <i> A B <s> A\n%left B C".toList).map
        (fun d => decide (d.tokens = ["A", "B", "C"] ∧ d.tokenMembers.lookup "A" = some "s" ∧
          d.typeMembers.lookup "A" = some "i" ∧ d.tokenMembers.lookup "B" = none)) = .ok true := by
      decide +kernel
    obtain ⟨d, hd, htokens, htoken, htype, hnone⟩ := exists_of_map_decide hfacts
    obtain ⟨b, hb, -, hmembers⟩ := (reads_as_declared _).1 d hd
    refine ⟨d, b, hd, hb, htokens, (hmembers .token "A" "s").1.1 htoken,
      (hmembers .type "A" "i").1.1 htype, fun member hlast => ?_,
      (hmembers .token "A" "s").2 htoken⟩
    have hbound : d.tokenMembers.lookup "B" = some member := (hmembers .token "B" member).1.2 hlast
    simp [hnone] at hbound
  · have hrefused : parse "%union { int i; }\n%token A <i> <j> B\n%type <k> e".toList
        = .error (.malformedUnionMember 2 "<j>") := by
      decide +kernel
    have hcut : (Blocks.ofText "%union { int i; }\n%token A <i> <j> B\n%type <k> e".toList).map
        (fun _ => true) = .ok true := by
      decide +kernel
    obtain ⟨b, hb, -⟩ := map_eq_ok_iff.1 hcut
    have hcuts := Blocks.ofText_eq_ok_iff.1 hb
    exact ⟨b, hcuts, ((((reads_as_declared _).2 b hcuts).2 _).1 hrefused)⟩

end Declarations

end SlrCompiler
