import SlrCompiler.Proofs.Specification.Rule
import SlrCompiler.Proofs.Success
import SlrCompiler.Specification.Sections

/-! # The start symbol has a rule

    The start symbol is found by looking for the first colon of the rules
    section, long before the section is read. When it is read, the first two
    lexemes are that name and that colon (`Lexeme.exists_scan`), so a
    rule of that name is opened; and every rule that is opened is finished, if
    the section is read to its end. It is the first that is read
    (`exists_first_of_parse`).
-/

namespace SlrCompiler

open Text

/-! ## Section 1: The first colon -/

namespace Text

/-- Only blanks are cut off at the two ends of a text. -/
theorem exists_trim (text : List Char) : ∃ u v, text = u ++ trim text ++ v ∧
    (∀ c ∈ u, isBlank c = true) ∧ ∀ c ∈ v, isBlank c = true := by
  refine ⟨text.takeWhile isBlank, ((text.dropWhile isBlank).reverse.takeWhile isBlank).reverse,
    ?_, fun c hc => List.mem_takeWhile_imp hc, fun c hc => ?_⟩
  · rw [trim, List.append_assoc, ← List.reverse_append, List.takeWhile_append_dropWhile,
      List.reverse_reverse, List.takeWhile_append_dropWhile]
  · exact List.mem_takeWhile_imp (List.mem_reverse.1 hc)

end Text

theorem Sections.startSymbol?_of_split {spec : List Char} {s : Sections}
    (h : split spec = .ok s) : startSymbol? s.rules = .ok s.startSymbol := by
  unfold split at h
  split at h
  · simp at h
  split at h
  · simp at h
  split at h
  · simp at h
  · obtain ⟨name, hname, rfl⟩ := map_eq_ok_iff.1 h
    exact hname

/-- What stands before the first colon is a name between blanks. -/
theorem Sections.exists_of_startSymbol? {rules : List Char} {name : String}
    (h : startSymbol? rules = .ok name) : isIdentifier name.toList = true ∧
      ∃ u v rest, rules = u ++ name.toList ++ v ++ ':' :: rest ∧
        (∀ c ∈ u, isBlank c = true) ∧ ∀ c ∈ v, isBlank c = true := by
  simp only [startSymbol?] at h
  split at h
  · simp at h
  split at h
  · simp at h
  rename_i before after hcut
  split at h
  · rename_i hidentifier
    obtain rfl := Except.ok.inj h
    -- Blanks are taken off twice: from the section, and from what stands before the colon.
    obtain ⟨u, v, hrules, hu, -⟩ := exists_trim rules
    obtain ⟨x, y, hbefore, hx, hy⟩ := exists_trim before
    refine ⟨by simpa using hidentifier, u ++ x, y, after ++ v, ?_, fun c hc => ?_, hy⟩
    · have htrimmed := eq_of_cutAt hcut
      calc rules = u ++ (before ++ [':'] ++ after) ++ v := by rw [← htrimmed, ← hrules]
        _ = u ++ before ++ ':' :: (after ++ v) := by simp
        _ = u ++ (x ++ trim before ++ y) ++ ':' :: (after ++ v) := by rw [← hbefore]
        _ = _ := by simp
    · rcases List.mem_append.1 hc with hc | hc
      · exact hu c hc
      · exact hx c hc
  · simp at h

/-! ## Section 2: The first two lexemes -/

namespace Lexeme

/-- A section that begins with a name before a colon begins with these two
    lexemes. -/
theorem exists_scan {name : List Char} (hname : isIdentifier name = true) {u v : List Char}
    (hu : ∀ c ∈ u, isBlank c = true) (hv : ∀ c ∈ v, isBlank c = true) (line : Nat)
    (rest : List Char) :
    ∃ l m others, (scan line (u ++ name ++ v ++ ':' :: rest)).lexemes
      = ⟨.name (String.ofList name), l⟩ :: ⟨.colon, m⟩ :: others := by
  have hcolon : isIdentifierChar ':' = false := by decide +kernel
  -- The name ends before a blank or the colon.
  have hends : RunEnds name (v ++ [':'] ++ rest) := .of_head fun d hd => by
    cases v with
    | nil =>
      obtain rfl : ':' = d := by simpa using hd
      exact hcolon
    | cons c v =>
      obtain rfl : c = d := by simpa using hd
      exact isIdentifierChar_eq_false_of_isBlank (hv c List.mem_cons_self)
  obtain ⟨l, hfirst⟩ :=
    finds_next_of_written (.symbol (.name hname)) hends (line + lineCount u)
  obtain ⟨m, hsecond⟩ :=
    finds_next_of_written .colon (.of_getLast hcolon [] rest) (l + lineCount v)
  rw [← next_append hu] at hfirst
  rw [← next_append hv] at hsecond
  have htext : u ++ name ++ v ++ ':' :: rest = u ++ (name ++ (v ++ [':'] ++ rest)) := by simp
  rw [htext, scan_of_next hfirst, List.append_assoc, scan_of_next hsecond]
  exact ⟨l, m, _, rfl⟩

end Lexeme

/-! ## Section 3: A rule that is opened is finished -/

namespace Rule

/-- The first alternative that is read belongs to a rule of the given name: it is still
    open, with only the augmenting rule before it, or it is finished. -/
def Reading.Heads (name : String) (r : Reading) : Prop :=
  (r.rules.length = 1 ∧ ∃ d, r.place = .inside d ∧ d.left = name) ∨
    ∃ x, r.rules[1]? = some x ∧ x.left = name

namespace Reading

variable {precedence : String → Option Precedence} {name : String}

/-- One lexeme keeps a finished rule, and finishes an open one if it leaves it. -/
theorem Heads.feed {r next : Reading} {p : PlacedLexeme} (h : r.Heads name)
    (hnext : feed precedence r p = .ok next) : next.Heads name := by
  -- A rule that is closed now is the first one that was read, or that one is there already.
  have hclosed : ∀ {place : Place} {d : Draft}, r.place = .inside d →
      Heads name ⟨place, r.rules ++ [d.close]⟩ := by
    intro place d hd
    rcases h with ⟨hlength, e, he, hleft⟩ | ⟨x, hx, hleft⟩
    · obtain rfl := Place.inside.inj (hd.symm.trans he)
      exact .inr ⟨d.close, by rw [List.getElem?_append_right (by omega)]; simp [hlength], hleft⟩
    · have hlt : 1 < r.rules.length := (List.getElem?_eq_some_iff.1 hx).1
      exact .inr ⟨x, by simpa [List.getElem?_append_left hlt] using hx, hleft⟩
  -- An open rule keeps its left side.
  have hinside : ∀ {d e : Draft}, r.place = .inside d → e.left = d.left →
      Heads name { r with place := .inside e } := by
    intro d e hd heq
    rcases h with ⟨hlength, f, hf, hleft⟩ | hx
    · obtain rfl := Place.inside.inj (hd.symm.trans hf)
      exact .inl ⟨hlength, e, rfl, heq.trans hleft⟩
    · exact .inr hx
  cases feeds_of_feed hnext with
  | head hr hl => exact .inr (h.resolve_left (by simp [hr]))
  | colon hr hl => exact .inr (h.resolve_left (by simp [hr]))
  | bar hr hl => exact hclosed hr
  | semicolon hr hl => exact hclosed hr
  | symbol hr hl => exact hinside hr rfl
  | action hr hl => exact hinside hr rfl
  | prec hr hl => exact hinside hr rfl

end Reading

/-- **The start symbol** is the left side of the first rule that is read. -/
theorem exists_first_of_parse {startSymbol : String} {precedence : String → Option Precedence}
    {text : List Char} {rules : List Rule} (hstart : Sections.startSymbol? text = .ok startSymbol)
    (h : parse startSymbol precedence text = .ok rules) :
    ∃ r, rules[1]? = some r ∧ r.left = startSymbol := by
  obtain ⟨hname, u, v, rest, rfl, hu, hv⟩ := Sections.exists_of_startSymbol? hstart
  obtain ⟨l, m, others, hscan⟩ := Lexeme.exists_scan hname hu hv 1 rest
  simp only [parse, hscan] at h
  split at h
  · simp at h
  rename_i last hlast
  split at h
  · simp at h
  -- The first two lexemes open the rule, and the others keep it.
  have hopened : Reading.feedAll precedence
      ⟨.inside (.opened startSymbol m), [augmenting startSymbol]⟩ others = .ok last := by
    simpa [Reading.feedAll, Reading.feed, Reading.start] using hlast
  have hheads : last.Heads startSymbol :=
    Reading.feedAll_induction (.inl ⟨rfl, _, rfl, rfl⟩) (fun p _ r next hr => hr.feed) hopened
  unfold Reading.finish at h
  split at h
  · rename_i hplace
    obtain rfl := Except.ok.inj h
    exact hheads.resolve_left (by simp [hplace])
  · simp at h

/-- The start symbol is a left side, if the rules can be read. -/
theorem exists_left_of_parse {startSymbol : String} {precedence : String → Option Precedence}
    {text : List Char} {rules : List Rule} (hstart : Sections.startSymbol? text = .ok startSymbol)
    (h : parse startSymbol precedence text = .ok rules) : ∃ r ∈ rules, r.left = startSymbol := by
  obtain ⟨r, hr, hleft⟩ := exists_first_of_parse hstart h
  exact ⟨r, List.mem_of_getElem? hr, hleft⟩

end Rule

end SlrCompiler
