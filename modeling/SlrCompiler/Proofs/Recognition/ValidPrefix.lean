import SlrCompiler.Proofs.Automaton.Completion
import SlrCompiler.Proofs.Recognition.Soundness

/-! # Errors are noticed in time

    Where a run finds no action, nothing that was read before is to blame: some
    input goes on from there and is a sentence. However many reductions were
    made in vain, and however conflicts were settled, the string on the path
    still derives what has been read (`Configuration.Follows`); and as every
    path, it can be completed in a productive grammar (`Completes`).
-/

namespace SlrCompiler

variable {g : Grammar} {t : ParseTable}

/-- The terminals that complete the path of a run complete what it has read. -/
theorem Configuration.Follows.exists_derives {ts γ : List Nat} {c : Configuration}
    (h : c.Follows g ts γ) (hg : g.WellFormed) (hproductive : g.Productive) :
    ∃ z, g.AllTerminal z ∧ g.Derives [g.startSymbol] (ts.take c.position ++ z) := by
  obtain ⟨i, hi⟩ := hg.exists_reads h.spells
  obtain ⟨z, hz⟩ := Grammar.exists_completes_of_reads hg hproductive hi
  exact ⟨z, hz.allTerminal, hz.derives.trans (h.derives.append .refl)⟩

/-- What has been read when a run on terminals is refused goes on to a sentence. -/
theorem exists_isSentence_of_run (hg : g.WellFormed) (ht : g.Tabulates t)
    (hproductive : g.Productive) {names : List String} {w : List Nat}
    (hw : t.terminalIndices names = .ok w) {steps state position : Nat} {token : String}
    (hrun : t.run (t.input w) steps t.begin = .rejected (.noAction state position token)) :
    position ≤ names.length ∧
      ∃ sentence, g.IsSentence sentence ∧ names.take position <+: sentence := by
  obtain ⟨hts, hinput⟩ := allTerminal_input hg ht hw
  obtain ⟨hterminal, rfl⟩ := (ht.terminalIndices_eq_ok_iff hg).1 hw
  have hend : g.endMark ∈ w ++ [g.endMark] := by simp
  rw [hinput] at hrun
  obtain ⟨d, γ, x, o, hγ, -, hmoves, hverdict⟩ :=
    exists_moves_of_run hg ht hts hend (by rw [hrun]; simp)
  rw [hrun] at hverdict
  cases hmoves with
  | shift => simp [Outcome.verdict] at hverdict
  | reduce => simp [Outcome.verdict] at hverdict
  | accept => simp [Outcome.verdict] at hverdict
  | refuse =>
    obtain ⟨-, rfl, -⟩ : d.top = state ∧ d.position = position ∧ _ = token := by
      simpa [Outcome.verdict] using hverdict
    have hlt := hγ.position_lt hend
    -- From the stack something can still be read, so what has been read goes on with that.
    obtain ⟨z, hz, hderives⟩ := hγ.exists_derives hg hproductive
    rw [hγ.take_position] at hderives
    have hread : g.AllTerminal (w.take d.position) :=
      fun s hs => hterminal s (List.mem_of_mem_take hs)
    refine ⟨by simpa [Nat.lt_succ_iff] using hlt, (w.take d.position ++ z).map g.symbolName,
      hg.isSentence_iff.2 ⟨_, hread.append hz, rfl, hderives⟩, ?_⟩
    rw [List.map_append, ← List.map_take]
    exact List.prefix_append _ _

/-- **Valid prefixes**: where an input is refused for want of an action, the names
    before that place begin some sentence. -/
theorem exists_isSentence_of_noAction {spec : String} (hcompile : compile spec = .ok t)
    (hparse : Grammar.parse spec = .ok g) (hproductive : g.Productive) {names : List String}
    {state position : Nat} {token : String}
    (hrefused : t.recognize names = .rejected (.noAction state position token)) :
    position ≤ names.length ∧
      ∃ sentence, g.IsSentence sentence ∧ names.take position <+: sentence := by
  obtain ⟨g', hparse', hg, ht⟩ := Grammar.exists_tabulates_of_compile hcompile
  obtain rfl := Except.ok.inj (hparse.symm.trans hparse')
  unfold ParseTable.recognize at hrefused
  split at hrefused
  · rename_i e he
    obtain ⟨name, rfl⟩ := ParseTable.eq_unknownTerminal_of_terminalIndices he
    simp at hrefused
  · rename_i w hw
    exact exists_isSentence_of_run hg ht hproductive hw hrefused

/-- A grammar with precedence and with conflicts: all that has been read is
    reduced before the bracket is refused. -/
theorem exists_isSentence_of_noAction_ambiguous :
    ∃ t g, compile "%left '+'\n%% e : e '+' e | e 'x' e | '(' e ')' | 'a' ; %%" = .ok t ∧
      Grammar.parse "%left '+'\n%% e : e '+' e | e 'x' e | '(' e ')' | 'a' ; %%" = .ok g ∧
      g.Productive ∧ t.conflicts ≠ [] ∧
      t.recognize ["'a'", "'x'", "'a'", "')'"] = .rejected (.noAction 3 3 "')'") ∧
      ∃ sentence, g.IsSentence sentence ∧ ["'a'", "'x'", "'a'"] <+: sentence := by
  have htable : (compile "%left '+'\n%% e : e '+' e | e 'x' e | '(' e ')' | 'a' ; %%").map
      (fun t => decide (t.conflicts ≠ [] ∧ t.recognize ["'a'", "'x'", "'a'", "')'"]
        = .rejected (.noAction 3 3 "')'"))) = .ok true := by
    decide +kernel
  have hgrammar : (Grammar.parse "%left '+'\n%% e : e '+' e | e 'x' e | '(' e ')' | 'a' ; %%").map
      (fun g => decide (g.RankedBy fun s => g.symbolCount - s)) = .ok true := by
    decide +kernel
  obtain ⟨t, hcompile, hconflicts, hrefused⟩ := exists_of_map_decide htable
  obtain ⟨g, hparse, hranked⟩ := exists_of_map_decide hgrammar
  obtain ⟨-, hsentence⟩ := exists_isSentence_of_noAction hcompile hparse hranked.productive hrefused
  exact ⟨t, g, hcompile, hparse, hranked.productive, hconflicts, hrefused, hsentence⟩

end SlrCompiler
