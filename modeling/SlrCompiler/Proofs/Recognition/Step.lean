import Mathlib.Logic.Relation
import SlrCompiler.Recognition

/-! # Steps and runs of any table

    What the cell of the next terminal says is what a step does, one lemma for
    each action. A run iterates steps: a configuration that it comes by is one
    that the first one `Reaches`, and a run that ends has a last step
    (`ParseTable.exists_last_step`). Nothing here depends on how a table came
    about.
-/

namespace SlrCompiler

/-! ## Section 1: One step -/

namespace Configuration

variable {t : ParseTable} {input : Array Nat} {c : Configuration} {x : Nat}

/-- The action that a step carries out stands in the cell of the next terminal. -/
theorem action_eq (hx : input[c.position]? = some x) :
    c.action t input = some (x, t.actionAt c.top x) := by
  rw [action, hx, Option.map_some]

theorem step_of_shift (hx : input[c.position]? = some x) {target : Nat}
    (haction : t.actionAt c.top x = .shift target) :
    c.step t input = .next ⟨target, c.top :: c.below, c.position + 1⟩ := by
  unfold step
  rw [action_eq hx, haction]

theorem step_of_reduce (hx : input[c.position]? = some x) {rule s target : Nat}
    {r : TableRule} {below : List Nat} (haction : t.actionAt c.top x = .reduce rule)
    (hrule : t.rules[rule]? = some r) (hdrop : (c.top :: c.below).drop r.arity = s :: below)
    (hgoto : t.gotoCell? s r.left = some (some target)) :
    c.step t input = .next ⟨target, s :: below, c.position⟩ := by
  unfold step
  rw [action_eq hx, haction]
  simp only [hrule, reduce, hdrop, hgoto]

theorem step_of_accept (hx : input[c.position]? = some x)
    (haction : t.actionAt c.top x = .accept) : c.step t input = .accepted := by
  unfold step
  rw [action_eq hx, haction]

theorem step_of_error (hx : input[c.position]? = some x)
    (haction : t.actionAt c.top x = .error) :
    c.step t input = .rejected (.noAction c.top c.position (t.terminalName x)) := by
  unfold step
  rw [action_eq hx, haction]

end Configuration

/-- The verdict on a run whose last step came to the given outcome. -/
def Outcome.verdict : Outcome → Verdict
  | .next _ => .endless
  | .accepted => .accepted
  | .rejected e => .rejected e
  | .broken b => .broken b

/-! ## Section 2: Runs -/

namespace ParseTable

variable {t : ParseTable} {input : Array Nat} {c d : Configuration}

variable (t input) in
/-- The second configuration comes up in a run from the first one. -/
def Reaches : Configuration → Configuration → Prop :=
  Relation.ReflTransGen fun c d => c.step t input = .next d

theorem run_succ_of_next (h : c.step t input = .next d) (n : Nat) :
    t.run input (n + 1) c = t.run input n d := by
  rw [run, h]

/-- A run that comes to a step of acceptance accepts. -/
theorem exists_run_of_reaches (h : t.Reaches input c d) (hlast : d.step t input = .accepted) :
    ∃ n, t.run input n c = .accepted := by
  induction h using Relation.ReflTransGen.head_induction_on with
  | refl => exact ⟨1, by rw [run, hlast]⟩
  | head hstep _ ih =>
    obtain ⟨n, hn⟩ := ih
    exact ⟨n + 1, by rw [run_succ_of_next hstep, hn]⟩

/-- A run that ends has a last step. -/
theorem exists_last_step {n : Nat} (h : t.run input n c ≠ .endless) :
    ∃ d, t.Reaches input c d ∧ (d.step t input).verdict = t.run input n c := by
  induction n generalizing c with
  | zero => exact absurd rfl h
  | succ n ih =>
    unfold run at h ⊢
    cases hstep : c.step t input with
    | next next =>
      simp only [hstep] at h ⊢
      obtain ⟨d, hreaches, hlast⟩ := ih h
      exact ⟨d, Relation.ReflTransGen.head hstep hreaches, hlast⟩
    | accepted => exact ⟨c, .refl, by rw [hstep]; rfl⟩
    | rejected e => exact ⟨c, .refl, by rw [hstep]; rfl⟩
    | broken b => exact ⟨c, .refl, by rw [hstep]; rfl⟩

/-- A run ends if it ends after a first step. -/
theorem exists_run_of_next (h : ∀ d, c.step t input = .next d → ∃ n, t.run input n d ≠ .endless) :
    ∃ n, t.run input n c ≠ .endless := by
  cases hstep : c.step t input with
  | next d =>
    obtain ⟨n, hn⟩ := h d hstep
    exact ⟨n + 1, by rwa [run_succ_of_next hstep]⟩
  | accepted => exact ⟨1, by simp [run, hstep]⟩
  | rejected e => exact ⟨1, by simp [run, hstep]⟩
  | broken b => exact ⟨1, by simp [run, hstep]⟩

/-- A run ends if every step leaves fewer steps to be made. -/
theorem run_ne_endless_of_decreasing (left : Nat → Configuration → Prop)
    (hstep : ∀ n c d, left n c → c.step t input = .next d → ∃ m < n, left m d) {n : Nat}
    (h : left n c) : t.run input (n + 1) c ≠ .endless := by
  induction n using Nat.strongRecOn generalizing c with
  | ind n ih =>
    unfold run
    split
    · rename_i d hd
      obtain ⟨m, hlt, hm⟩ := hstep n c d h hd
      have hends := ih m hlt hm
      rwa [t.run_of_le hlt hends]
    all_goals simp

/-- Names are refused only if one of them is unknown. -/
theorem eq_unknownTerminal_of_terminalIndices {names : List String} {e : RecognizeError}
    (h : t.terminalIndices names = .error e) : ∃ name, e = .unknownTerminal name := by
  induction names with
  | nil => simp [terminalIndices] at h
  | cons name rest ih =>
    unfold terminalIndices at h
    split at h
    · exact ⟨name, (Except.error.inj h).symm⟩
    · cases hrest : t.terminalIndices rest with
      | error e' =>
        rw [hrest] at h
        exact ih (hrest.trans h)
      | ok w => simp [hrest, Except.map] at h

end ParseTable

end SlrCompiler
