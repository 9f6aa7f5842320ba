import SlrCompiler.Proofs.Grammar.LeastLookahead

/-! # FIRST and FOLLOW by passes over the productions

    The other way to find FIRST, the empty marker and FOLLOW: sets that are filled in
    place, by walking along each right side again and again until a whole pass changes
    nothing. A walk reads sets that it has enlarged itself, and a pass reads what
    earlier productions have put in, so no pass is a function of the sets at its
    beginning in any simple way.

    Two facts about a walk are enough. It only adds elements (`le_walk`), so where a
    pass changes nothing no walk of it does (`foldl_fixed`), and the sets are closed
    (`firstClosed_of_firstPass`). And it stays within every closed sets
    (`walk_le`). The first makes the result of a loop large enough, the second
    small enough; together with the finite number of symbols they end the loop. The
    same two facts hold of FOLLOW (`le_followWalk`, `followWalk_le`).
-/

namespace SlrCompiler

/-! ## Section 1: Steps that only add elements -/

section Fold

variable {σ β : Type} [PartialOrder σ] {f : σ → β → σ}

theorem le_foldl (hf : ∀ s b, s ≤ f s b) (items : List β) (s : σ) : s ≤ items.foldl f s := by
  induction items generalizing s with
  | nil => exact le_rfl
  | cons b rest ih => exact (hf s b).trans (ih (f s b))

theorem foldl_le {u : σ} {items : List β} (hf : ∀ b ∈ items, ∀ s ≤ u, f s b ≤ u) {s : σ}
    (hs : s ≤ u) : items.foldl f s ≤ u := by
  induction items generalizing s with
  | nil => exact hs
  | cons b rest ih =>
    obtain ⟨hb, hrest⟩ := List.forall_mem_cons.1 hf
    exact ih hrest (hb s hs)

/-- Where a whole run of steps changes nothing, none of them does. -/
theorem foldl_fixed (hf : ∀ s b, s ≤ f s b) {items : List β} {s : σ} (h : items.foldl f s = s) :
    ∀ b ∈ items, f s b = s := by
  induction items with
  | nil => simp
  | cons b rest ih =>
    have hb : f s b = s := by
      apply le_antisymm
      · exact (le_foldl hf rest (f s b)).trans h.le
      · exact hf s b
    rw [List.foldl_cons, hb] at h
    exact List.forall_mem_cons.2 ⟨hb, ih h⟩

end Fold

namespace Firsts

/-- How many elements FIRST sets of the first symbols and the empty marker have. -/
def size (n : Nat) (m : Firsts) : Nat := familySize n m.first + m.nullable.size

theorem size_lt {n : Nat} {l m : Firsts} (h : l < m) (hempty : ∀ s, n ≤ s → m.first s = .empty) :
    l.size n < m.size n := by
  obtain ⟨hfirst, hnullable⟩ := h.le
  unfold size
  by_cases heq : l.first = m.first
  · have hne : l.nullable ≠ m.nullable := by
      intro hsame
      exact h.ne ((Firsts.mk.injEq ..).mpr ⟨heq, hsame⟩)
    have hlt := SortedSet.size_lt (lt_of_le_of_ne hnullable hne)
    rw [heq]
    omega
  · have hlt := familySize_lt (lt_of_le_of_ne hfirst heq) hempty
    have hle := SortedSet.size_mono hnullable
    omega

/-- Adds FIRST of a symbol to that of a left side. -/
def addFirst (m : Firsts) (left symbol : Nat) : Firsts :=
  { m with first := addTo m.first left (m.first symbol) }

/-- Gives a left side the empty marker. -/
def mark (m : Firsts) (left : Nat) : Firsts := { m with nullable := m.nullable.insert left }

variable {m n : Firsts} {left s : Nat}

theorem le_addFirst : m ≤ m.addFirst left s := ⟨le_addTo, le_rfl⟩

theorem addFirst_le (hm : m ≤ n) (hs : n.first s ≤ n.first left) : m.addFirst left s ≤ n :=
  ⟨addTo_le hm.1 ((hm.1 s).trans hs), hm.2⟩

theorem first_le_of_addFirst_le (h : m.addFirst left s ≤ m) : m.first s ≤ m.first left :=
  items_le_addTo.trans (h.1 left)

theorem le_mark : m ≤ m.mark left := by
  refine ⟨le_rfl, ?_⟩
  intro x hx
  exact SortedSet.mem_insert.2 (.inr hx)

theorem mark_le (hm : m ≤ n) (hleft : left ∈ n.nullable) : m.mark left ≤ n := by
  refine ⟨hm.1, ?_⟩
  intro x hx
  rcases SortedSet.mem_insert.1 hx with rfl | hx
  · exact hleft
  · exact hm.2 x hx

theorem mem_of_mark_le (h : m.mark left ≤ n) : left ∈ n.nullable :=
  h.2 left (SortedSet.mem_insert.2 (.inl rfl))

end Firsts

namespace Grammar

variable (g : Grammar)

/-! ## Section 2: The loop for FIRST and the empty marker -/

/-- Walks along the right side of a production, and adds FIRST of what it passes to the
    left side. The left side itself adds nothing; it is stepped over if it has an empty
    rule. Behind a symbol with the marker the left side has the marker too. -/
def walk (left : Nat) : List Nat → Firsts → Firsts
  | [], m => m
  | symbol :: rest, m =>
    if symbol = left then if left ∈ g.epsilon then walk left rest m else m
    else if symbol ∈ m.nullable then walk left rest ((m.addFirst left symbol).mark left)
    else m.addFirst left symbol

/-- One pass of walks, each along the sets that the last one has left. -/
def firstPass (m : Firsts) : Firsts :=
  g.productions.toList.foldl (fun m p => g.walk p.left p.right m) m

/-- Before the first pass: terminals are in their own FIRST, and what has an empty rule
    carries the marker. -/
def firstStart : Firsts :=
  ⟨fun s => if g.isTerminal s then .singleton s else .empty, .ofList g.epsilon⟩

variable {g}

theorem le_walk (left : Nat) (right : List Nat) (m : Firsts) : m ≤ g.walk left right m := by
  induction right generalizing m with
  | nil => exact le_rfl
  | cons s rest ih =>
    rw [walk]
    split
    · split
      · exact ih m
      · exact le_rfl
    · split
      · exact (Firsts.le_addFirst.trans Firsts.le_mark).trans (ih _)
      · exact Firsts.le_addFirst

/-- A walk that changes nothing: FIRST of the left side has that of all symbols it passes. -/
theorem shown_of_walk_eq {left : Nat} {right : List Nat} {m : Firsts}
    (h : g.walk left right m = m) : ∀ y ∈ g.shown (· ∈ m.nullable) left right,
      m.first y ≤ m.first left ∧ (y ∈ m.nullable → left ∈ m.nullable) := by
  -- The induction is on the right side, in the three cases of the walk.
  induction right with
  | nil => simp [shown]
  | cons s rest ih =>
    rw [walk] at h
    rw [shown]
    by_cases hs : s = left
    · rw [if_pos hs] at h ⊢
      by_cases hepsilon : left ∈ g.epsilon
      · rw [if_pos hepsilon] at h ⊢
        exact ih h
      · rw [if_neg hepsilon]
        simp
    · rw [if_neg hs] at h ⊢
      by_cases hmarked : s ∈ m.nullable
      · -- the walk goes on with larger sets; as it changes nothing, they are the same
        rw [if_pos hmarked] at h
        rw [if_pos (decide_eq_true hmarked)]
        have hback : (m.addFirst left s).mark left ≤ m := (le_walk left rest _).trans h.le
        have hfirst : m.addFirst left s ≤ m := Firsts.le_mark.trans hback
        have hsame := le_antisymm hback (Firsts.le_addFirst.trans Firsts.le_mark)
        rw [hsame] at h
        refine List.forall_mem_cons.2 ⟨⟨Firsts.first_le_of_addFirst_le hfirst, ?_⟩, ih h⟩
        intro _
        exact Firsts.mem_of_mark_le hback
      · rw [if_neg hmarked] at h
        rw [if_neg (by simpa using hmarked)]
        intro y hy
        rw [List.mem_singleton.1 hy]
        exact ⟨Firsts.first_le_of_addFirst_le h.le, fun hin => absurd hin hmarked⟩

/-- A walk stays within sets to which it would add nothing. -/
theorem walk_le_of_shown {left : Nat} {right : List Nat} {m n : Firsts} (hm : m ≤ n)
    (h : ∀ y ∈ g.shown (· ∈ n.nullable) left right,
      n.first y ≤ n.first left ∧ (y ∈ n.nullable → left ∈ n.nullable)) :
    g.walk left right m ≤ n := by
  induction right generalizing m with
  | nil => exact hm
  | cons s rest ih =>
    -- What stands behind a symbol is shown as well, if the walk goes on over it.
    have hrest : g.StepsOver n.nullable left s → ∀ l ≤ n, g.walk left rest l ≤ n := by
      intro hover l hl
      apply ih hl
      intro y hy
      exact h y (mem_shown_cons.2 (.inr ⟨hover, hy⟩))
    rw [walk]
    by_cases hs : s = left
    · rw [if_pos hs]
      by_cases hepsilon : left ∈ g.epsilon
      · rw [if_pos hepsilon]
        exact hrest (.inl ⟨hs, hepsilon⟩) m hm
      · rw [if_neg hepsilon]
        exact hm
    · rw [if_neg hs]
      obtain ⟨hfirst, hnullable⟩ := h s (mem_shown_cons.2 (.inl ⟨rfl, hs⟩))
      have hadd := Firsts.addFirst_le hm hfirst
      by_cases hmarked : s ∈ m.nullable
      · rw [if_pos hmarked]
        have hin : s ∈ n.nullable := hm.2 s hmarked
        exact hrest (.inr ⟨hs, hin⟩) _ (Firsts.mark_le hadd (hnullable hin))
      · rw [if_neg hmarked]
        exact hadd

theorem walk_le {m n : Firsts} (hn : g.FirstClosed n) (hm : m ≤ n) {p : Production}
    (hp : p ∈ g.productions) : g.walk p.left p.right m ≤ n := by
  apply walk_le_of_shown hm
  intro y hy
  have hreaches := mem_shown_iff.1 hy
  exact ⟨hn.first p hp y hreaches, hn.nullable p hp y hreaches⟩

theorem le_firstPass (m : Firsts) : m ≤ g.firstPass m := by
  apply le_foldl
  intro m p
  exact le_walk p.left p.right m

theorem firstPass_le {m n : Firsts} (hn : g.FirstClosed n) (hm : m ≤ n) :
    g.firstPass m ≤ n := by
  refine foldl_le ?_ hm
  intro p hp l hl
  exact walk_le hn hl (Array.mem_toList_iff.1 hp)

theorem firstStart_le {m : Firsts} (hm : g.FirstClosed m) : g.firstStart ≤ m := by
  constructor
  · intro s t ht
    unfold firstStart at ht
    by_cases hs : g.isTerminal s = true
    · simp only [hs, if_true, SortedSet.mem_singleton] at ht
      rw [ht]
      exact hm.terminal s hs
    · simp [hs] at ht
  · intro s hs
    exact hm.epsilon s (SortedSet.mem_ofList.1 hs)

/-- Sets that a pass leaves alone are closed, if they have what stood there before. -/
theorem firstClosed_of_firstPass {m : Firsts} (hstart : g.firstStart ≤ m)
    (h : g.firstPass m = m) : g.FirstClosed m := by
  have hwalk : ∀ p ∈ g.productions, g.walk p.left p.right m = m := by
    intro p hp
    unfold firstPass at h
    apply foldl_fixed ?_ h p (Array.mem_toList_iff.2 hp)
    intro l q
    exact le_walk q.left q.right l
  constructor
  · intro t ht
    apply hstart.1 t
    simp [firstStart, ht]
  · intro s hs
    exact hstart.2 s (SortedSet.mem_ofList.2 hs)
  · intro p hp y hy
    exact (shown_of_walk_eq (hwalk p hp) y (mem_shown_iff.2 hy)).1
  · intro p hp y hy
    exact (shown_of_walk_eq (hwalk p hp) y (mem_shown_iff.2 hy)).2

/-- **The loop for FIRST ends, with the least sets**: all its sets lie within them, and
    those it ends with are closed. -/
theorem runsTo_firsts (hg : g.SymbolsExist) (hepsilon : g.EpsilonExists) :
    RunsTo g.firstPass g.firstStart g.lookahead.firsts := by
  have hclosed := firstClosed_lookahead hg hepsilon
  apply runsTo_of_least le_firstPass ?_ (firstStart_le hclosed) ?_ (Firsts.size g.symbolCount)
  · intro l m hlt hm
    apply Firsts.size_lt hlt
    intro s hs
    exact le_antisymm ((hm.1 s).trans (first_of_le hs).le) (SortedSet.empty_le _)
  · intro m hm
    exact firstPass_le hclosed hm
  · intro m hstart hfixed
    exact firsts_le hg (firstClosed_of_firstPass hstart hfixed)

/-! ## Section 3: The loop for FOLLOW -/

variable (g) in
/-- Adds to FOLLOW of an occurrence: what can come first of the symbols after it, and
    FOLLOW of the left side if these carry the marker. Terminals have no FOLLOW. -/
def followVisit (m : Firsts) (left symbol : Nat) (after : List Nat) (w : Nat → SortedSet Nat) :
    Nat → SortedSet Nat :=
  if g.isTerminal symbol then w
  else
    let v := addTo w symbol (m.ofSequence after).1
    if (m.ofSequence after).2 && left != symbol then addTo v symbol (v left) else v

variable (g) in
/-- Visits the occurrences in a right side, from left to right. -/
def followWalk (m : Firsts) (left : Nat) : List Nat → (Nat → SortedSet Nat) → Nat → SortedSet Nat
  | [], w => w
  | symbol :: rest, w => followWalk m left rest (g.followVisit m left symbol rest w)

variable (g) in
/-- One pass over the occurrences in all right sides. -/
def followPass (m : Firsts) (w : Nat → SortedSet Nat) : Nat → SortedSet Nat :=
  g.productions.toList.foldl (fun w p => g.followWalk m p.left p.right w) w

variable (g) in
/-- Before the first pass: the end mark follows the start symbol, which must be one of
    the symbols to have a FOLLOW set. -/
def followStart (s : Nat) : SortedSet Nat :=
  if s = g.startSymbol ∧ s < g.symbolCount then .singleton g.endMark else .empty

section Visit

variable {m : Firsts} {left s : Nat} {after : List Nat} {w v : Nat → SortedSet Nat}

theorem le_followVisit : w ≤ g.followVisit m left s after w := by
  unfold followVisit
  split
  · exact le_rfl
  · simp only
    split
    · exact le_addTo.trans le_addTo
    · exact le_addTo

/-- A visit that changes nothing. The left side's own occurrences are not asked for its
    FOLLOW, but for them there is nothing to ask. -/
theorem of_followVisit_eq (h : g.followVisit m left s after w = w)
    (hs : g.isTerminal s = false) :
    (m.ofSequence after).1 ≤ w s ∧ ((m.ofSequence after).2 = true → w left ≤ w s) := by
  unfold followVisit at h
  rw [if_neg (by simp [hs])] at h
  simp only at h
  by_cases hend : ((m.ofSequence after).2 && left != s) = true
  · rw [if_pos hend] at h
    have hfirst : addTo w s (m.ofSequence after).1 ≤ w := le_addTo.trans h.le
    refine ⟨items_le_addTo.trans (hfirst s), fun _ => ?_⟩
    exact (le_addTo left).trans (items_le_addTo.trans (h.le s))
  · rw [if_neg hend] at h
    refine ⟨items_le_addTo.trans (h.le s), fun hempty => ?_⟩
    have hleft : left = s := by simpa [hempty] using hend
    rw [hleft]

theorem followVisit_le (hw : w ≤ v) (hs : g.isTerminal s = false → (m.ofSequence after).1 ≤ v s)
    (hend : g.isTerminal s = false → (m.ofSequence after).2 = true → v left ≤ v s) :
    g.followVisit m left s after w ≤ v := by
  unfold followVisit
  by_cases hterminal : g.isTerminal s = true
  · rw [if_pos hterminal]
    exact hw
  · rw [if_neg hterminal]
    rw [Bool.not_eq_true] at hterminal
    have hfirst : addTo w s (m.ofSequence after).1 ≤ v := addTo_le hw (hs hterminal)
    simp only
    split
    · rename_i hempty
      apply addTo_le hfirst
      exact (hfirst left).trans (hend hterminal (Bool.and_eq_true _ _ ▸ hempty).1)
    · exact hfirst

end Visit

theorem le_followWalk (m : Firsts) (left : Nat) (right : List Nat) (w : Nat → SortedSet Nat) :
    w ≤ g.followWalk m left right w := by
  induction right generalizing w with
  | nil => exact le_rfl
  | cons s rest ih => exact le_followVisit.trans (ih _)

/-- Where a walk changes nothing, no visit does. -/
theorem followVisit_of_followWalk {m : Firsts} {left : Nat} {right : List Nat}
    {w : Nat → SortedSet Nat} (h : g.followWalk m left right w = w) :
    ∀ α s β, right = α ++ s :: β → g.followVisit m left s β w = w := by
  induction right with
  | nil => simp
  | cons x rest ih =>
    rw [followWalk] at h
    have hx : g.followVisit m left x rest w = w := by
      apply le_antisymm
      · exact (le_followWalk m left rest _).trans h.le
      · exact le_followVisit
    rw [hx] at h
    intro α s β hsplit
    cases α with
    | nil =>
      obtain ⟨rfl, rfl⟩ := List.cons.inj hsplit
      exact hx
    | cons y α => exact ih h α s β (List.cons.inj hsplit).2

theorem followWalk_le {m : Firsts} {v w : Nat → SortedSet Nat} (hv : g.FollowClosed m v)
    (hw : w ≤ v) {p : Production} (hp : p ∈ g.productions) :
    g.followWalk m p.left p.right w ≤ v := by
  have hsuffix : ∀ right before, p.right = before ++ right → ∀ u ≤ v,
      g.followWalk m p.left right u ≤ v := by
    intro right
    induction right with
    | nil =>
      intro _ _ u hu
      exact hu
    | cons s rest ih =>
      intro before hbefore u hu
      apply ih (before ++ [s]) (by simp [hbefore])
      apply followVisit_le hu
      · exact hv.after p hp before s rest hbefore
      · exact hv.atEnd p hp before s rest hbefore
  exact hsuffix p.right [] rfl w hw

theorem le_followPass (m : Firsts) (w : Nat → SortedSet Nat) : w ≤ g.followPass m w := by
  apply le_foldl
  intro v p
  exact le_followWalk m p.left p.right v

theorem followPass_le {m : Firsts} {v w : Nat → SortedSet Nat} (hv : g.FollowClosed m v)
    (hw : w ≤ v) : g.followPass m w ≤ v := by
  refine foldl_le ?_ hw
  intro p hp u hu
  exact followWalk_le hv hu (Array.mem_toList_iff.1 hp)

theorem followStart_le {m : Firsts} {w : Nat → SortedSet Nat} (hw : g.FollowClosed m w) :
    g.followStart ≤ w := by
  intro s t ht
  unfold followStart at ht
  by_cases hs : s = g.startSymbol ∧ s < g.symbolCount
  · rw [if_pos hs, SortedSet.mem_singleton] at ht
    obtain ⟨rfl, hlt⟩ := hs
    exact ht ▸ hw.endMark hlt
  · rw [if_neg hs] at ht
    exact absurd ht (SortedSet.not_mem_empty t)

theorem followClosed_of_followPass {m : Firsts} {w : Nat → SortedSet Nat}
    (hstart : g.followStart ≤ w) (h : g.followPass m w = w) : g.FollowClosed m w := by
  have hvisit : ∀ p ∈ g.productions, ∀ α y β, p.right = α ++ y :: β →
      g.followVisit m p.left y β w = w := by
    intro p hp
    apply followVisit_of_followWalk
    unfold followPass at h
    apply foldl_fixed ?_ h p (Array.mem_toList_iff.2 hp)
    intro v q
    exact le_followWalk m q.left q.right v
  constructor
  · intro hlt
    apply hstart g.startSymbol
    simp [followStart, hlt]
  · intro p hp α y β hright hy
    exact (of_followVisit_eq (hvisit p hp α y β hright) hy).1
  · intro p hp α y β hright hy
    exact (of_followVisit_eq (hvisit p hp α y β hright) hy).2

/-- **The loop for FOLLOW ends, with the least sets.** -/
theorem runsTo_follow (hg : g.SymbolsExist) (hepsilon : g.EpsilonExists) :
    RunsTo (g.followPass g.lookahead.firsts) g.followStart g.lookahead.follow := by
  have hclosed := followClosed_lookahead hg
  apply runsTo_of_least (le_followPass _) ?_ (followStart_le hclosed) ?_
    (familySize g.symbolCount)
  · intro v w hlt hw
    apply familySize_lt hlt
    intro s hs
    exact le_antisymm ((hw s).trans (follow_of_le hs).le) (SortedSet.empty_le _)
  · intro w hw
    exact followPass_le hclosed hw
  · intro w hstart hfixed
    exact follow_le hg (firstClosed_lookahead hg hepsilon)
      (followClosed_of_followPass hstart hfixed)

/-! ## Section 4: Least solutions -/

/-- **FIRST, the empty marker and FOLLOW are least solutions**: both loops end with them,
    they are closed under the productions, within all sets that are, and the same for
    the productions in any other order. -/
theorem lookahead_least (hg : g.SymbolsExist) (hepsilon : g.EpsilonExists) :
    RunsTo g.firstPass g.firstStart g.lookahead.firsts ∧
      RunsTo (g.followPass g.lookahead.firsts) g.followStart g.lookahead.follow ∧
      IsLeast {sets : Firsts × (Nat → SortedSet Nat) |
          g.FirstClosed sets.1 ∧ g.FollowClosed sets.1 sets.2}
        (g.lookahead.firsts, g.lookahead.follow) ∧
      ∀ ps : Array Production, ps.Perm g.productions →
        lookahead { g with productions := ps } = g.lookahead := by
  refine ⟨runsTo_firsts hg hepsilon, runsTo_follow hg hepsilon, ⟨?_, ?_⟩, ?_⟩
  · exact ⟨firstClosed_lookahead hg hepsilon, followClosed_lookahead hg⟩
  · intro sets hsets
    exact ⟨firsts_le hg hsets.1, follow_le hg hsets.1 hsets.2⟩
  · intro ps hperm
    exact lookahead_eq_of_perm hg hepsilon hperm

/-- In `x : b x 'c' | b` the walk stops at the `x` inside, so `'c'` is not in FIRST of
    `x`. It is once `x : x 'c'` is added and `x`, not `b`, counts as empty; then also if
    the productions are read backwards. -/
theorem lookahead_least_edited :
    ∃ g h x b c, parse "%% x : b x 'c' | b ; b : 'b' | ; %%" = .ok g ∧
      [x, b, c].map g.symbolName = ["x", "b", "'c'"] ∧ c ∉ g.lookahead.first x ∧
      h = { g.addProduction ⟨x, [x, c], none, none⟩ with epsilon := [x] } ∧
      h.SymbolsExist ∧ h.EpsilonExists ∧
      RunsTo h.firstPass h.firstStart h.lookahead.firsts ∧
      RunsTo (h.followPass h.lookahead.firsts) h.followStart h.lookahead.follow ∧
      IsLeast {sets : Firsts × (Nat → SortedSet Nat) |
          h.FirstClosed sets.1 ∧ h.FollowClosed sets.1 sets.2}
        (h.lookahead.firsts, h.lookahead.follow) ∧
      c ∈ (lookahead { h with productions := h.productions.reverse }).first x := by
  have hfacts : (parse "%% x : b x 'c' | b ; b : 'b' | ; %%").map (fun g => decide
      (g.symbolCount = 7 ∧ [5, 6, 2].map g.symbolName = ["x", "b", "'c'"] ∧
        2 ∉ g.lookahead.first 5 ∧
        2 ∈ (lookahead { g.addProduction ⟨5, [5, 2], none, none⟩ with epsilon := [5] }).first 5))
        = .ok true := by
    decide +kernel
  obtain ⟨g, hparse, hcount, hnames, hbefore, hafter⟩ := exists_of_map_decide hfacts
  have hsymbols := (wellFormed_of_parse hparse).symbolsExist.addProduction
    (q := ⟨5, [5, 2], none, none⟩) (by simp [hcount]) (by simp [hcount])
  have hepsilon : EpsilonExists
      { g.addProduction ⟨5, [5, 2], none, none⟩ with epsilon := [5] } := by
    intro s hs
    rw [List.mem_singleton.1 hs]
    show 5 < g.symbolCount
    omega
  obtain ⟨hfirst, hfollow, hleast, horder⟩ := lookahead_least
    (g := { g.addProduction ⟨5, [5, 2], none, none⟩ with epsilon := [5] }) hsymbols hepsilon
  refine ⟨g, _, 5, 6, 2, hparse, hnames, hbefore, rfl, hsymbols, hepsilon, hfirst, hfollow,
    hleast, ?_⟩
  rw [horder _ (Array.perm_iff_toList_perm.2 (by simp))]
  exact hafter

end Grammar

end SlrCompiler
