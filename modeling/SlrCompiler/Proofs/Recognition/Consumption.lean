import SlrCompiler.Proofs.Recognition.Soundness
import SlrCompiler.Proofs.Recognition.StepBound

/-! # What an accepting run has read

    A run accepts only before an end mark (`Moves.accept`), and it never reads one
    (`Follows.notMem`). So it accepts before the first of them. That is the one put
    after the names, unless a name given is `$end` itself: then the names after it
    are not read at all (`not_length_le_of_acceptsAt`).
-/

namespace SlrCompiler

variable {g : Grammar} {t : ParseTable}

/-- The run over the terminals with the given names accepts when that many of them have
    been read. -/
def ParseTable.AcceptsAt (t : ParseTable) (names : List String) (position : Nat) : Prop :=
  ∃ w c, t.terminalIndices names = .ok w ∧ t.Reaches (t.input w) t.begin c ∧
    c.step t (t.input w) = .accepted ∧ c.position = position

/-- Acceptance is acceptance at some position: the last step of the run. -/
theorem ParseTable.recognize_eq_accepted_iff_acceptsAt (t : ParseTable) (names : List String) :
    t.recognize names = .accepted ↔ ∃ position, t.AcceptsAt names position := by
  constructor
  · intro haccepted
    unfold recognize at haccepted
    split at haccepted
    · simp at haccepted
    · rename_i w hw
      obtain ⟨c, hc, hverdict⟩ := exists_last_step (by rw [haccepted]; simp)
      rw [haccepted] at hverdict
      have hlast : c.step t (t.input w) = .accepted := by
        cases hstep : c.step t (t.input w) <;> simp_all [Outcome.verdict]
      exact ⟨c.position, w, c, hw, hc, hlast, rfl⟩
  · rintro ⟨_, w, c, hw, hc, hlast, -⟩
    obtain ⟨steps, hsteps⟩ := exists_run_of_reaches hc hlast
    rw [recognize_eq_of_run t hw (by rw [hsteps]; simp), hsteps]

/-- What has been read on acceptance are the names before the first `$end`. -/
theorem take_eq_takeWhile_of_acceptsAt (hg : g.WellFormed) (ht : g.Tabulates t)
    {names : List String} {position : Nat} (h : t.AcceptsAt names position) :
    position ≤ names.length ∧ names.take position = names.takeWhile (· != endName) := by
  obtain ⟨w, c, hw, hc, hlast, rfl⟩ := h
  obtain ⟨hts, hinput⟩ := allTerminal_input hg ht hw
  obtain ⟨hterminal, rfl⟩ := (ht.terminalIndices_eq_ok_iff hg).1 hw
  have hend : g.endMark ∈ w ++ [g.endMark] := by simp
  rw [hinput] at hc hlast
  obtain ⟨γ, hγ⟩ := exists_follows_of_reaches hg ht hts hend hc
  obtain ⟨x, hx, hmoves⟩ := hγ.moves hg ht hts hend
  rw [hlast] at hmoves
  cases hmoves with
  | accept hxend _ =>
    have hlt := hγ.position_lt hend
    rw [hγ.takeWhile_names hg hterminal (hxend ▸ hx), List.map_take]
    exact ⟨by simpa [Nat.lt_succ_iff] using hlt, rfl⟩

/-- **What acceptance has read**: the run stands at the first `$end`, with exactly the
    names before it read. These are all names exactly if none of them is `$end`. -/
theorem acceptsAt_of_compile {spec : String} (hcompile : compile spec = .ok t)
    (names : List String) :
    (t.recognize names = .accepted ↔ ∃ position, t.AcceptsAt names position) ∧
    ∀ position, t.AcceptsAt names position →
      position = (names.takeWhile (· != endName)).length ∧
      (names.length ≤ position ↔ endName ∉ names) := by
  obtain ⟨g, -, hg, ht⟩ := Grammar.exists_tabulates_of_compile hcompile
  refine ⟨t.recognize_eq_accepted_iff_acceptsAt names, ?_⟩
  intro position hposition
  obtain ⟨hle, htake⟩ := take_eq_takeWhile_of_acceptsAt hg ht hposition
  refine ⟨by rw [← htake, List.length_take_of_le hle], ?_⟩
  constructor
  · intro hall hmem
    rw [List.take_of_length_le hall] at htake
    have hbefore := List.mem_takeWhile_imp (htake ▸ hmem)
    simp at hbefore
  · intro hnotMem
    have hlength := congrArg List.length (htake.trans (takeWhile_ne_endName hnotMem))
    rw [List.length_take] at hlength
    omega

/-- A list of `'a'`s that ends early, and one that does not. -/
theorem acceptsAt_of_compile_list :
    ∃ t, compile "%% s : 'a' s | ; %%" = .ok t ∧
      t.AcceptsAt ["'a'", "'a'", "$end", "'a'"] 2 ∧ t.AcceptsAt ["'a'", "'a'", "'a'"] 3 := by
  have hfacts : (compile "%% s : 'a' s | ; %%").map (fun t => decide
      (t.recognize ["'a'", "'a'", "$end", "'a'"] = .accepted ∧
        t.recognize ["'a'", "'a'", "'a'"] = .accepted)) = .ok true := by
    decide +kernel
  obtain ⟨t, hcompile, hearly, hwhole⟩ := exists_of_map_decide hfacts
  have hreads : ∀ names, t.recognize names = .accepted →
      t.AcceptsAt names (names.takeWhile (· != endName)).length := by
    intro names haccepted
    obtain ⟨haccepts, hposition⟩ := acceptsAt_of_compile hcompile names
    obtain ⟨position, h⟩ := haccepts.1 haccepted
    exact (hposition position h).1 ▸ h
  exact ⟨t, hcompile, hreads _ hearly, hreads _ hwhole⟩

/-- Not all names are read on every acceptance: a `$end` among them ends the input. -/
theorem not_length_le_of_acceptsAt :
    ¬ ∀ (spec : String) (t : ParseTable) (names : List String) (position : Nat),
      compile spec = .ok t → (∀ name ∈ names, t.terminalIndex? name ≠ none) →
      t.AcceptsAt names position → names.length ≤ position := by
  intro hall
  have hfacts : (compile "%% s : 'a' ; %%").map (fun t => decide
      (t.recognize ["'a'", "$end", "'a'"] = .accepted ∧
        ∀ name ∈ ["'a'", "$end", "'a'"], t.terminalIndex? name ≠ none)) = .ok true := by
    decide +kernel
  obtain ⟨t, hcompile, haccepted, hknown⟩ := exists_of_map_decide hfacts
  obtain ⟨position, hposition⟩ := (t.recognize_eq_accepted_iff_acceptsAt _).1 haccepted
  obtain ⟨g, -, hg, ht⟩ := Grammar.exists_tabulates_of_compile hcompile
  obtain ⟨-, htake⟩ := take_eq_takeWhile_of_acceptsAt hg ht hposition
  rw [List.take_of_length_le (hall _ t _ position hcompile hknown hposition)] at htake
  exact absurd htake (by decide)

end SlrCompiler
