import SlrCompiler.Proofs.Specification.DeclaredSymbols
import SlrCompiler.Specification.Rule
import SlrCompiler.Specification.SemanticAction
import SlrCompiler.Specification.Sections

/-! # What readers refuse

    Each reader of a part of the text has its own causes to refuse it. None of
    them is an internal fault, and none but the division into sections misses a
    start rule. The causes of all readers behind the sections are those for which
    `GrammarError.isOfPart` holds; the lemmas go from the smallest reader up to
    `Declarations.isOfPart_of_parse`, `Rule.isOfPart_of_parse` and
    `SemanticAction.isOfPart_of_parse`.
-/

namespace SlrCompiler

open Text

/-- A cause for which a part of the text is refused after it has been found. -/
def GrammarError.isOfPart : GrammarError → Bool
  | .missingStartRule => false
  | .internal _ => false
  | _ => true

variable {e : GrammarError}

theorem GrammarError.ne_of_isOfPart (h : e.isOfPart = true) :
    e ≠ .missingStartRule ∧ ∀ fault, e ≠ .internal fault := by
  cases e <;> simp [isOfPart] at h ⊢

/-! ## Section 1: Sections -/

/-- The division into sections has no internal fault. -/
theorem Sections.ne_internal_of_split {spec : List Char} (h : split spec = .error e)
    (fault : InternalFault) : e ≠ .internal fault := by
  unfold split at h
  split at h
  · simp [← Except.error.inj h]
  split at h
  · simp [← Except.error.inj h]
  split at h
  · simp [← Except.error.inj h]
  · have h := map_eq_error_iff.1 h
    simp only [startSymbol?] at h
    split at h
    · simp [← Except.error.inj h]
    split at h
    · simp [← Except.error.inj h]
    split at h
    · simp at h
    · simp [← Except.error.inj h]

/-! ## Section 2: Declarations -/

theorem Blocks.isOfPart_of_ofText {text : List Char} (h : ofText text = .error e) :
    e.isOfPart = true := by
  rcases bind_eq_error_iff.1 h with h | ⟨⟨block, rest⟩, -, h⟩
  · unfold takeLiteralBlock at h
    split at h
    · simp at h
    split at h
    · exact Except.error.inj h ▸ rfl
    · simp at h
  rcases bind_eq_error_iff.1 h with h | ⟨⟨union, rest⟩, -, h⟩
  · unfold takeUnion at h
    split at h
    · simp at h
    split at h
    · exact Except.error.inj h ▸ rfl
    split at h
    · exact Except.error.inj h ▸ rfl
    · simp at h
  · simp only at h
    split at h
    · exact Except.error.inj h ▸ rfl
    · simp at h

/-- **Declarations** are refused for causes of their own. -/
theorem Declarations.isOfPart_of_parse {text : List Char} (h : parse text = .error e) :
    e.isOfPart = true := by
  unfold parse at h
  split at h
  · rename_i hblocks
    exact Except.error.inj h ▸ Blocks.isOfPart_of_ofText hblocks
  · obtain ⟨n, ⟨k, ⟨line, -, hfault⟩, -⟩, -⟩ := declareAll_eq_error_iff.1 h
    cases hfault with
    | typeWithoutUnion _ _ => rfl
    | member _ hmember => cases hmember <;> rfl

/-! ## Section 3: Rules -/

namespace Lexeme

theorem isOfPart_of_closeBlock {opened line depth : Nat} {text : List Char}
    (h : closeBlock opened line depth text = .error e) : e.isOfPart = true := by
  fun_induction closeBlock opened line depth text with
  | case1 => exact Except.error.inj h ▸ rfl
  | case2 => exact Except.error.inj h ▸ rfl
  | case6 => simp at h
  | case3 | case4 | case5 | case7 | case8 =>
    rename_i ih
    exact ih (map_eq_error_iff.1 h)

theorem isOfPart_of_readLiteral {wrap : String → Lexeme} {line : Nat} {text : List Char}
    (h : readLiteral wrap line text = .fault e) : e.isOfPart = true := by
  unfold readLiteral at h
  split at h
  · exact Next.fault.inj h ▸ rfl
  · simp at h

theorem isOfPart_of_readDirective {line : Nat} {text : List Char}
    (h : readDirective line text = .fault e) : e.isOfPart = true := by
  simp only [readDirective, readPrecArgument] at h
  split at h
  · split at h
    · exact Next.fault.inj h ▸ rfl
    split at h
    · exact Next.fault.inj h ▸ rfl
    split at h
    · exact isOfPart_of_readLiteral h
    split at h
    · simp [readName] at h
    · exact Next.fault.inj h ▸ rfl
  · exact Next.fault.inj h ▸ rfl

theorem isOfPart_of_readAction {line : Nat} {text : List Char}
    (h : readAction line text = .fault e) : e.isOfPart = true := by
  unfold readAction at h
  split at h
  · rename_i hclose
    exact Next.fault.inj h ▸ isOfPart_of_closeBlock hclose
  · simp at h

theorem isOfPart_of_next {line : Nat} {text : List Char} (h : next line text = .fault e) :
    e.isOfPart = true := by
  -- The cases are those of the reader, in its order.
  simp only [next] at h
  split at h
  · simp at h
  split at h
  · simp at h
  split at h
  · simp at h
  split at h
  · simp at h
  split at h
  · exact isOfPart_of_readLiteral h
  split at h
  · exact isOfPart_of_readAction h
  split at h
  · exact Next.fault.inj h ▸ rfl
  split at h
  · exact isOfPart_of_readDirective h
  split at h
  · simp [readName] at h
  · exact Next.fault.inj h ▸ rfl

theorem isOfPart_of_scan {line : Nat} {text : List Char}
    (h : (scan line text).ending = .error e) : e.isOfPart = true := by
  fun_induction scan line text with
  | case1 => simp at h
  | case2 line text fault hnext => exact Except.error.inj h ▸ isOfPart_of_next hnext
  | case3 line text placed rest hnext tail ih => exact ih h

end Lexeme

namespace Rule

theorem Reading.isOfPart_of_feedAll {precedence : String → Option Precedence} {r : Reading}
    {lexemes : List PlacedLexeme} (h : feedAll precedence r lexemes = .error e) :
    e.isOfPart = true := by
  induction lexemes generalizing r with
  | nil => simp [feedAll] at h
  | cons p rest ih =>
    unfold feedAll at h
    split at h
    · exact Except.error.inj h ▸ rfl
    · exact ih h

/-- **Rules** are refused for causes of their own. -/
theorem isOfPart_of_parse {startSymbol : String} {precedence : String → Option Precedence}
    {text : List Char} (h : parse startSymbol precedence text = .error e) :
    e.isOfPart = true := by
  simp only [parse] at h
  split at h
  · rename_i hfeed
    exact Except.error.inj h ▸ Reading.isOfPart_of_feedAll hfeed
  split at h
  · rename_i hending
    exact Except.error.inj h ▸ Lexeme.isOfPart_of_scan hending
  · unfold Reading.finish at h
    split at h
    · simp at h
    · exact Except.error.inj h ▸ rfl

end Rule

/-! ## Section 4: Actions -/

theorem Piece.isOfPart_of_readAll {rule arity : Nat} {text : List Char}
    (h : readAll rule arity text = .error e) : e.isOfPart = true := by
  fun_induction readAll rule arity text with
  | case1 => simp at h
  | case2 => exact Except.error.inj h ▸ rfl
  | case3 => exact Except.error.inj h ▸ rfl
  | case4 => rename_i ih; exact ih (map_eq_error_iff.1 h)

/-- **Actions** are refused for causes of their own. -/
theorem SemanticAction.isOfPart_of_parse {text : List Char} {rule arity : Nat}
    (h : SemanticAction.parse text rule arity = .error e) : e.isOfPart = true :=
  Piece.isOfPart_of_readAll (map_eq_error_iff.1 h)

end SlrCompiler
