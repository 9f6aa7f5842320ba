import Mathlib.Data.List.Basic
import Mathlib.Data.List.TakeWhile
import SlrCompiler.Proofs.Finite.FirstAndLast
import SlrCompiler.Proofs.Success
import SlrCompiler.Specification.Declarations

/-! # Members of the union

    A word `<member>` on a line of symbols refers to a member of the union, for the
    symbol right after it. The union has a member if its text has it as a whole name,
    bounded by other characters on both sides (`Text.mem_runs_iff`).

    What can be wrong with a word is said by the word and the one before it
    (`MemberFault`), and so is what a symbol is bound to (`BoundAfter`). The reader goes
    through the words with a slot for the member that is waiting for its symbol; that
    slot is filled exactly if the word before is a reference. So it refuses the first
    fault (`bindMembers_eq_error_iff`), and the last binding of a symbol is the one that
    stays (`lookup_bindMembers`).
-/

namespace SlrCompiler

open Text

/-! ## Section 1: Names in a text -/

namespace Text

variable {p : Char → Bool} {text u v w : List Char}

/-- A part of the text in which all characters satisfy `p`, and which cannot be made
    longer to either side. -/
structure IsRun (p : Char → Bool) (text w : List Char) : Prop where
  ne_nil : w ≠ []
  all : ∀ c ∈ w, p c = true
  maximal : ∃ before after, text = before ++ w ++ after ∧ (∀ c ∈ before.getLast?, p c = false) ∧
    ∀ c ∈ after.head?, p c = false

theorem runs_of_dropWhile_eq_nil (h : text.dropWhile (!p ·) = []) : runs p text = [] := by
  rw [runs]
  split <;> simp_all

theorem runs_of_dropWhile_eq_cons {c : Char} {rest : List Char}
    (h : text.dropWhile (!p ·) = c :: rest) :
    runs p text = (c :: rest.takeWhile p) :: runs p (rest.dropWhile p) := by
  rw [runs]
  split
  · simp_all
  · rename_i d others hd
    obtain ⟨rfl, rfl⟩ := List.cons.inj (h.symm.trans hd)
    rfl

/-- What comes before the first run does not matter. -/
theorem runs_append_of_all_not (h : ∀ c ∈ u, p c = false) : runs p (u ++ v) = runs p v := by
  have hdrop : (u ++ v).dropWhile (!p ·) = v.dropWhile (!p ·) := by
    apply List.dropWhile_append_of_pos
    intro c hc
    simp [h c hc]
  cases hv : v.dropWhile (!p ·) with
  | nil => rw [runs_of_dropWhile_eq_nil hv, runs_of_dropWhile_eq_nil (hdrop.trans hv)]
  | cons c rest => rw [runs_of_dropWhile_eq_cons hv, runs_of_dropWhile_eq_cons (hdrop.trans hv)]

/-- A run that ends where the text goes on otherwise. -/
theorem runs_append_of_all (hne : w ≠ []) (hall : ∀ c ∈ w, p c = true)
    (hend : ∀ c ∈ v.head?, p c = false) : runs p (w ++ v) = w :: runs p v := by
  obtain ⟨c, rest, rfl⟩ := List.exists_cons_of_ne_nil hne
  have hc : p c = true := hall c List.mem_cons_self
  have hdrop : ((c :: rest) ++ v).dropWhile (!p ·) = c :: (rest ++ v) := by simp [hc]
  have hrest : ∀ d ∈ rest, p d = true := fun d hd => hall d (List.mem_cons_of_mem c hd)
  have htake : (rest ++ v).takeWhile p = rest := by
    rw [List.takeWhile_append_of_pos hrest]
    cases v with
    | nil => simp
    | cons d v => simp [hend d (by simp)]
  have hafter : (rest ++ v).dropWhile p = v := by
    rw [List.dropWhile_append_of_pos hrest]
    cases v with
    | nil => simp
    | cons d v => simp [hend d (by simp)]
  rw [runs_of_dropWhile_eq_cons hdrop, htake, hafter]

/-- Induction on the runs of a text: up to the first one, this one, and the rest. -/
theorem runs_induction {motive : List Char → Prop}
    (none : ∀ text, (∀ c ∈ text, p c = false) → motive text)
    (run : ∀ before w rest, (∀ c ∈ before, p c = false) → w ≠ [] → (∀ c ∈ w, p c = true) →
      (∀ c ∈ rest.head?, p c = false) → motive rest → motive (before ++ (w ++ rest)))
    (text : List Char) : motive text := by
  induction hlength : text.length using Nat.strongRecOn generalizing text with
  | ind _ ih =>
    have hsplit := List.takeWhile_append_dropWhile (p := (!p ·)) (l := text)
    have hbefore : ∀ c ∈ text.takeWhile (!p ·), p c = false := by
      intro c hc
      simpa using List.mem_takeWhile_imp hc
    cases hdrop : text.dropWhile (!p ·) with
    | nil =>
      rw [hdrop, List.append_nil] at hsplit
      exact none text (hsplit ▸ hbefore)
    | cons c rest =>
      have hc : p c = true := by
        have hhead : (text.dropWhile (!p ·)).head? = some c := by rw [hdrop, List.head?_cons]
        simpa using eq_false_of_head?_dropWhile hhead
      have hrest := List.takeWhile_append_dropWhile (p := p) (l := rest)
      have hall : ∀ d ∈ c :: rest.takeWhile p, p d = true := by
        intro d hd
        rcases List.mem_cons.1 hd with rfl | hd
        · exact hc
        · exact List.mem_takeWhile_imp hd
      have hend : ∀ d ∈ (rest.dropWhile p).head?, p d = false :=
        fun d => eq_false_of_head?_dropWhile
      -- A run is not empty, so behind it the text is shorter.
      have hshorter : (rest.dropWhile p).length < text.length := by
        have hle := (List.dropWhile_suffix p (l := rest)).length_le
        have hparts := congrArg List.length hsplit
        rw [hdrop, List.length_append, List.length_cons] at hparts
        omega
      have hmotive := run _ _ _ hbefore (List.cons_ne_nil c _) hall hend
        (ih _ (hlength ▸ hshorter) _ rfl)
      rwa [List.cons_append, hrest, ← hdrop, hsplit] at hmotive

/-- What comes before a run, and does not touch it, does not matter. -/
theorem mem_runs_append (hu : ∀ c ∈ u.getLast?, p c = false) (hw : w ∈ runs p v) :
    w ∈ runs p (u ++ v) := by
  induction u using runs_induction (p := p) with
  | none u hall => rwa [runs_append_of_all_not hall]
  | run before r rest hbefore hne hall hend ih =>
    rw [List.append_assoc, runs_append_of_all_not hbefore, List.append_assoc]
    cases rest with
    | nil =>
      -- the last character would be one of the run
      have hlast := hu (r.getLast hne) (by simp [List.getLast?_eq_getLast_of_ne_nil hne])
      rw [hall _ (List.getLast_mem hne)] at hlast
      simp at hlast
    | cons c rest =>
      rw [runs_append_of_all hne hall (by simpa using hend)]
      refine List.mem_cons_of_mem r (ih ?_)
      simpa [List.getLast?_append] using hu

/-- **Runs**: they are the parts of a text that satisfy `p` and cannot be made longer. -/
theorem mem_runs_iff : w ∈ runs p text ↔ IsRun p text w := by
  constructor
  · intro hw
    induction text using runs_induction (p := p) with
    | none text hall =>
      have hdrop : text.dropWhile (!p ·) = [] := by simpa using hall
      simp [runs_of_dropWhile_eq_nil hdrop] at hw
    | run before r rest hbefore hne hall hend ih =>
      rw [runs_append_of_all_not hbefore, runs_append_of_all hne hall hend] at hw
      rcases List.mem_cons.1 hw with rfl | hw
      · refine ⟨hne, hall, before, rest, by simp, fun c hc => ?_, hend⟩
        exact hbefore c (List.mem_of_getLast? hc)
      · obtain ⟨hne', hall', first, after, rfl, hfirst, hafter⟩ := ih hw
        refine ⟨hne', hall', before ++ (r ++ first), after, by simp, ?_, hafter⟩
        cases first with
        | nil =>
          -- the run before would go on
          obtain ⟨c, tail, rfl⟩ := List.exists_cons_of_ne_nil hne'
          have hhead := hend c (by simp)
          rw [hall' c List.mem_cons_self] at hhead
          simp at hhead
        | cons c first => simpa [List.getLast?_append] using hfirst
  · rintro ⟨hne, hall, before, after, rfl, hbefore, hafter⟩
    rw [List.append_assoc]
    apply mem_runs_append hbefore
    rw [runs_append_of_all hne hall hafter]
    exact List.mem_cons_self

end Text

/-- The union has the member: its text has it as a whole name. -/
def Blocks.HasMember (b : Blocks) (member : List Char) : Prop :=
  ∃ union, b.union = some union ∧ IsRun isIdentifierChar union member

theorem Blocks.declares_iff {b : Blocks} {member : List Char} :
    b.declares member = true ↔ b.HasMember member := by
  unfold declares HasMember
  cases b.union with
  | none => simp
  | some union => simp [identifiers, mem_runs_iff]

/-! ## Section 2: Words -/

/-- The word begins like a reference to a member. -/
def OpensMember (word : List Char) : Prop := word.head? = some '<'

instance : DecidablePred OpensMember := fun _ => inferInstanceAs (Decidable (_ = _))

/-- The word is `<member>`, and the member is not empty. -/
def RefersTo (word member : List Char) : Prop := word = '<' :: (member ++ ['>']) ∧ member ≠ []

theorem RefersTo.opensMember {word member : List Char} (h : RefersTo word member) :
    OpensMember word := by
  rw [h.1]
  rfl

theorem RefersTo.member_eq {word member other : List Char} (h : RefersTo word member)
    (hother : RefersTo word other) : member = other := by
  have heq := h.1.symm.trans hother.1
  simpa using heq

namespace Directive

theorem memberOf_eq_some_iff {inner member : List Char} :
    memberOf inner = some member ↔ RefersTo ('<' :: inner) member := by
  unfold memberOf RefersTo
  rw [List.cons.injEq, and_iff_right rfl]
  constructor
  · intro h
    split at h
    · rename_i hinner
      obtain rfl := Option.some.inj h
      exact ⟨(List.dropLast_append_getLast? '>' hinner.1).symm, hinner.2⟩
    · simp at h
  · rintro ⟨rfl, hne⟩
    simp [hne]

theorem memberOf_eq_none_iff {inner : List Char} :
    memberOf inner = none ↔ ∀ member, ¬ RefersTo ('<' :: inner) member := by
  rw [Option.eq_none_iff_forall_ne_some]
  simp only [ne_eq, memberOf_eq_some_iff]

/-- What is wrong with a word, the first word not counted: it begins like a reference and
    is none, it stands right after another one, or the union does not have its member. -/
inductive MemberFault (has : List Char → Prop) (line : Nat) (words : List (List Char)) :
    Nat → GrammarError → Prop
  | notReference {k : Nat} {word : List Char} : words[k + 1]? = some word → OpensMember word →
      (∀ member, ¬ RefersTo word member) →
      MemberFault has line words k (.malformedUnionMember line (String.ofList word))
  | afterReference {k : Nat} {word previous : List Char} : words[k]? = some previous →
      OpensMember previous → words[k + 1]? = some word → OpensMember word →
      MemberFault has line words k (.malformedUnionMember line (String.ofList word))
  | unknown {k : Nat} {word previous member : List Char} : words[k]? = some previous →
      ¬ OpensMember previous → words[k + 1]? = some word → RefersTo word member → ¬ has member →
      MemberFault has line words k (.unknownUnionMember line (String.ofList member))

/-- The word with the given number refers to the member, and the name right after it is
    that of a symbol. -/
def BoundAfter (words : List (List Char)) (name : String) (k : Nat) (member : String) : Prop :=
  ∃ word, words[k]? = some word ∧ RefersTo word member.toList ∧
    words[k + 1]? = some name.toList ∧ ¬ OpensMember name.toList

variable {has : List Char → Prop} {declared : List Char → Bool} {line k : Nat} {e : GrammarError}
  {words : List (List Char)} {previous word : List Char}

/-- What is wrong with a word depends on nothing but the word and the one before it. -/
theorem MemberFault.transfer {others : List (List Char)} {j : Nat}
    (h : MemberFault has line words k e) (hprevious : others[j]? = words[k]?)
    (hword : others[j + 1]? = words[k + 1]?) : MemberFault has line others j e := by
  cases h with
  | notReference hfound hopens hnone => exact .notReference (hword.trans hfound) hopens hnone
  | afterReference hbefore hfirst hfound hopens =>
    exact .afterReference (hprevious.trans hbefore) hfirst (hword.trans hfound) hopens
  | unknown hbefore hfirst hfound hrefers hhas =>
    exact .unknown (hprevious.trans hbefore) hfirst (hword.trans hfound) hrefers hhas

theorem memberFault_succ_iff : MemberFault has line (word :: words) (k + 1) e ↔
    MemberFault has line words k e :=
  ⟨fun h => h.transfer rfl rfl, fun h => h.transfer rfl rfl⟩

/-- At one place there is only one cause to refuse. -/
theorem MemberFault.error_eq {f : GrammarError} (h : MemberFault has line words k e)
    (hf : MemberFault has line words k f) : e = f := by
  cases h with
  | notReference hword hopens hnone =>
    cases hf with
    | notReference hword' => rw [Option.some.inj (hword.symm.trans hword')]
    | afterReference _ _ hword' => rw [Option.some.inj (hword.symm.trans hword')]
    | unknown _ _ hword' hrefers =>
      rw [Option.some.inj (hword.symm.trans hword')] at hnone
      exact absurd hrefers (hnone _)
  | afterReference hprevious hopens hword =>
    cases hf with
    | notReference hword' => rw [Option.some.inj (hword.symm.trans hword')]
    | afterReference _ _ hword' => rw [Option.some.inj (hword.symm.trans hword')]
    | unknown hprevious' hfirst =>
      rw [Option.some.inj (hprevious.symm.trans hprevious')] at hopens
      exact absurd hopens hfirst
  | unknown hprevious hfirst hword hrefers =>
    cases hf with
    | notReference hword' _ hnone =>
      rw [← Option.some.inj (hword.symm.trans hword')] at hnone
      exact absurd hrefers (hnone _)
    | afterReference hprevious' hopens =>
      rw [← Option.some.inj (hprevious.symm.trans hprevious')] at hopens
      exact absurd hopens hfirst
    | unknown _ _ hword' hrefers' =>
      rw [← Option.some.inj (hword.symm.trans hword')] at hrefers'
      rw [hrefers.member_eq hrefers']

/-- A word is in order if it is a symbol, or refers to a member of the union and stands
    right after a symbol. -/
theorem not_memberFault_zero (h : OpensMember word →
      ¬ OpensMember previous ∧ ∃ member, RefersTo word member ∧ has member) :
    ¬ MemberFault has line (previous :: word :: words) 0 e := by
  intro hfault
  cases hfault with
  | notReference hword hopens hnone =>
    obtain rfl := Option.some.inj hword
    obtain ⟨-, member, hrefers, -⟩ := h hopens
    exact hnone member hrefers
  | afterReference hprevious hfirst hword hopens =>
    obtain rfl := Option.some.inj hprevious
    obtain rfl := Option.some.inj hword
    exact (h hopens).1 hfirst
  | unknown _ _ hword hrefers hhas =>
    obtain rfl := Option.some.inj hword
    obtain ⟨-, member, hrefers', hmember⟩ := h hrefers.opensMember
    exact hhas (hrefers'.member_eq hrefers ▸ hmember)

/-- Without a fault at the second word, the first one is that of the words from there on. -/
theorem isFirst_memberFault_iff
    (h : ∀ f, ¬ MemberFault has line (previous :: word :: words) 0 f) :
    IsFirst (MemberFault has line (previous :: word :: words)) e ↔
      IsFirst (MemberFault has line (word :: words)) e := by
  have hlater : (fun k => MemberFault has line (previous :: word :: words) (k + 1))
      = MemberFault has line (word :: words) := by
    funext k f
    exact propext memberFault_succ_iff
  rw [isFirst_iff_of_none h, hlater]

/-! ## Section 3: Reading the words of a line -/

theorem not_opensMember_of_ne (h : ∀ inner, word = '<' :: inner → False) : ¬ OpensMember word := by
  intro hopens
  obtain ⟨inner, rfl⟩ := List.head?_eq_some_iff.1 hopens
  exact h inner rfl

/-- **Refusals**: the first fault is the one that is reported. The slot is filled if the
    word before is a reference. -/
theorem bindMembers_eq_error_iff (hdeclared : ∀ member, declared member = true ↔ has member)
    {pending : Option String} (hpending : pending.isSome = true ↔ OpensMember previous) :
    bindMembers declared line pending words = .error e ↔
      IsFirst (MemberFault has line (previous :: words)) e := by
  fun_induction bindMembers declared line pending words generalizing previous with
  | case1 pending =>
    simp only [reduceCtorEq, false_iff]
    rintro ⟨k, h, -⟩
    cases h <;> simp_all
  | case2 inner rest member hmember hhas ih =>
    have hrefers := memberOf_eq_some_iff.1 hmember
    have hfirst : ¬ OpensMember previous := by simpa using hpending
    rw [isFirst_memberFault_iff]
    · exact ih (by simp [hrefers.opensMember])
    · intro f
      exact not_memberFault_zero fun _ => ⟨hfirst, member, hrefers, (hdeclared member).1 hhas⟩
  | case3 inner rest member hmember hhas =>
    have hfirst : ¬ OpensMember previous := by simpa using hpending
    have hfault : MemberFault has line (previous :: ('<' :: inner) :: rest) 0
        (.unknownUnionMember line (String.ofList member)) :=
      .unknown rfl hfirst rfl (memberOf_eq_some_iff.1 hmember) (mt (hdeclared member).2 hhas)
    rw [isFirst_iff_of_zero hfault fun f hf => hf.error_eq hfault, Except.error.injEq, eq_comm]
  | case4 pending inner rest hrefused =>
    have hfault : MemberFault has line (previous :: ('<' :: inner) :: rest) 0
        (.malformedUnionMember line (String.ofList ('<' :: inner))) := by
      cases hmember : memberOf inner with
      | none => exact .notReference rfl rfl (memberOf_eq_none_iff.1 hmember)
      | some member =>
        -- the word is a reference, so the slot must have been filled
        cases pending with
        | none => exact absurd rfl (hrefused member hmember)
        | some _ => exact .afterReference rfl (hpending.1 rfl) rfl rfl
    rw [isFirst_iff_of_zero hfault fun f hf => hf.error_eq hfault, Except.error.injEq, eq_comm]
  | case5 pending name rest hname ih =>
    have hopens := not_opensMember_of_ne hname
    rw [map_eq_error_iff, isFirst_memberFault_iff]
    · exact ih (by simp [hopens])
    · intro f
      exact not_memberFault_zero fun h => absurd h hopens

/-- The symbols of a line are its words that are no references. -/
theorem map_fst_of_bindMembers {pending : Option String} {symbols : List (String × Option String)}
    (h : bindMembers declared line pending words = .ok symbols) :
    symbols.map Prod.fst = (words.filter fun w => ¬ OpensMember w).map String.ofList := by
  fun_induction bindMembers declared line pending words generalizing symbols with
  | case1 => simp [← Except.ok.inj h]
  | case2 inner rest member _ _ ih => rw [ih h, List.filter_cons_of_neg (by simp [OpensMember])]
  | case3 => simp at h
  | case4 => simp at h
  | case5 pending name rest hname ih =>
    obtain ⟨others, hothers, rfl⟩ := map_eq_ok_iff.1 h
    have hopens := not_opensMember_of_ne hname
    rw [List.filter_cons_of_pos (by simp [hopens]), List.map_cons, List.map_cons, ih hothers]

theorem boundAfter_zero_iff {name member : String} :
    BoundAfter (previous :: word :: words) name 0 member ↔
      RefersTo previous member.toList ∧ word = name.toList ∧ ¬ OpensMember word := by
  constructor
  · rintro ⟨w, hw, hrefers, hname, hopens⟩
    obtain rfl := Option.some.inj hw
    obtain rfl : word = name.toList := Option.some.inj hname
    exact ⟨hrefers, rfl, hopens⟩
  · rintro ⟨hrefers, rfl, hopens⟩
    exact ⟨previous, rfl, hrefers, rfl, hopens⟩

/-- What the symbol after `previous` is bound to, if it is a symbol. -/
theorem lookup_bindMember {pending : Option String}
    (hpending : ∀ member, pending = some member ↔ RefersTo previous member.toList)
    (hword : ¬ OpensMember word) (rest : List (List Char)) (b : Bindings String)
    (name member : String) :
    (Declarations.bindMember b (String.ofList word, pending)).lookup name = some member ↔
      BoundAfter (previous :: word :: rest) name 0 member ∨
        (∀ other, ¬ BoundAfter (previous :: word :: rest) name 0 other) ∧
          b.lookup name = some member := by
  have hname : String.ofList word = name ↔ word = name.toList := by
    constructor
    · rintro rfl
      rw [String.toList_ofList]
    · rintro rfl
      rw [String.ofList_toList]
  simp only [boundAfter_zero_iff, ← hpending, hword, ← hname, not_false_iff, and_true]
  clear hpending
  cases pending with
  | none => simp [Declarations.bindMember]
  | some _ =>
    rw [Declarations.bindMember, Bindings.lookup_bind]
    by_cases h : String.ofList word = name <;> simp [h]

/-- **Bindings**: a symbol is bound to the member of its last binding among the words, and
    keeps the member it had if there is none. -/
theorem lookup_bindMembers {pending : Option String}
    (hpending : ∀ member, pending = some member ↔ RefersTo previous member.toList)
    {symbols : List (String × Option String)}
    (h : bindMembers declared line pending words = .ok symbols) (b : Bindings String)
    (name member : String) :
    (symbols.foldl Declarations.bindMember b).lookup name = some member ↔
      IsLastOr (BoundAfter (previous :: words) name) (b.lookup name = some ·) member := by
  -- `pending` is the member to which the word before refers, so the words are spoken of with
  -- that word in front.
  fun_induction bindMembers declared line pending words generalizing previous symbols b with
  | case1 =>
    obtain rfl := Except.ok.inj h
    have hnone : ∀ k other, ¬ BoundAfter [previous] name k other := by
      rintro k other ⟨word, -, -, hword, -⟩
      simp at hword
    rw [isLastOr_of_none hnone]
    rfl
  | case2 inner rest referred hreferred _ ih =>
    have hrefers := memberOf_eq_some_iff.1 hreferred
    have hnone : ∀ other, ¬ BoundAfter (previous :: ('<' :: inner) :: rest) name 0 other := by
      intro other hother
      exact (boundAfter_zero_iff.1 hother).2.2 hrefers.opensMember
    have hslot : ∀ other, some (String.ofList referred) = some other ↔
        RefersTo ('<' :: inner) other.toList := by
      intro other
      rw [Option.some.injEq]
      constructor
      · rintro rfl
        rwa [String.toList_ofList]
      · intro hother
        rw [hrefers.member_eq hother, String.ofList_toList]
    rw [ih hslot h, isLastOr_iff (P := BoundAfter (previous :: _ :: _) name)]
    simp only [hnone, not_false_iff, implies_true, true_and, false_or]
    rfl
  | case3 => simp at h
  | case4 => simp at h
  | case5 pending word rest hword ih =>
    obtain ⟨others, hothers, rfl⟩ := map_eq_ok_iff.1 h
    have hopens := not_opensMember_of_ne hword
    have hslot : ∀ other : String, none = some other ↔ RefersTo word other.toList := by
      intro other
      simp only [reduceCtorEq, false_iff]
      exact fun hrefers => hopens hrefers.opensMember
    rw [List.foldl_cons, ih hslot hothers, isLastOr_iff (P := BoundAfter (previous :: _ :: _) name)]
    simp only [lookup_bindMember hpending hopens rest]
    rfl

end Directive

end SlrCompiler
