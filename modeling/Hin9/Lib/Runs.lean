import Mathlib

/-!
# `Lib.Runs` — runs of a partial step function, and the two rules every invariant uses

A system is a state type `σ`, a label type `ι` and a partial step function `step : σ → ι → Option σ`
(`none` = the label is not enabled in the state). `RunWith step G s₀ es s` says that the labels `es` take
`s₀` to `s` and that every single step met the guard `G`; `Run` is the unguarded case.

* `RunWith.invariant` — a property that holds at the start and survives every guarded step holds in every
  state a guarded run reaches;
* `RunWith.of_exec` — a computed run (`execWith`) is a run, so concrete traces are checked by evaluation.
-/

namespace Hin9.Lib

variable {σ ι : Type}

/-- A run of `step` from `s₀` along the labels `es` all of whose steps meet the guard `G`. -/
inductive RunWith (step : σ → ι → Option σ) (G : σ → ι → Prop) (s₀ : σ) : List ι → σ → Prop where
  | nil : RunWith step G s₀ [] s₀
  | snoc {es : List ι} {s s' : σ} {e : ι} :
      RunWith step G s₀ es s → G s e → step s e = some s' → RunWith step G s₀ (es ++ [e]) s'

/-- A run of `step` with no condition on its steps. -/
abbrev Run (step : σ → ι → Option σ) (s₀ : σ) : List ι → σ → Prop :=
  RunWith step (fun _ _ => True) s₀

variable {step : σ → ι → Option σ} {G : σ → ι → Prop} {s₀ : σ}

/-- **The invariant rule.** What holds at the start and is kept by every guarded step holds at the end of
    every guarded run, hence in every state such a run reaches. -/
theorem RunWith.invariant {I : σ → Prop} (hinit : I s₀)
    (hstep : ∀ s e s', I s → G s e → step s e = some s' → I s')
    {es : List ι} {s : σ} (h : RunWith step G s₀ es s) : I s := by
  induction h with
  | nil => exact hinit
  | snoc _ hg hs ih => exact hstep _ _ _ ih hg hs

/-- The invariant rule for a property of the labels taken so far as well as of the state. -/
theorem RunWith.invariant_trace {I : List ι → σ → Prop} (hinit : I [] s₀)
    (hstep : ∀ es s e s', I es s → G s e → step s e = some s' → I (es ++ [e]) s')
    {es : List ι} {s : σ} (h : RunWith step G s₀ es s) : I es s := by
  induction h with
  | nil => exact hinit
  | snoc _ hg hs ih => exact hstep _ _ _ _ ih hg hs

/-- A run under a stronger guard is a run under a weaker one. -/
theorem RunWith.mono {G' : σ → ι → Prop} (hG : ∀ s e, G s e → G' s e)
    {es : List ι} {s : σ} (h : RunWith step G s₀ es s) : RunWith step G' s₀ es s := by
  induction h with
  | nil => exact .nil
  | snoc _ hg hs ih => exact .snoc ih (hG _ _ hg) hs

/-- Two guarded runs compose. -/
theorem RunWith.trans {es es' : List ι} {s s' : σ} (h : RunWith step G s₀ es s)
    (h' : RunWith step G s es' s') : RunWith step G s₀ (es ++ es') s' := by
  induction h' with
  | nil => simpa using h
  | snoc _ hg hs ih => rw [← List.append_assoc]; exact .snoc ih hg hs

/-- Execute the labels `es` one after the other, failing where a step is not enabled or misses the
    (decidable) guard `g`. -/
def execWith (step : σ → ι → Option σ) (g : σ → ι → Bool) : σ → List ι → Option σ
  | s, [] => some s
  | s, e :: es => if g s e then (step s e).bind fun s' => execWith step g s' es else none

/-- **A computed run is a run.** -/
theorem RunWith.of_exec {g : σ → ι → Bool} (hg : ∀ s e, g s e = true → G s e) :
    ∀ (es : List ι) {s s' : σ}, execWith step g s es = some s' → RunWith step G s es s' := by
  intro es
  induction es with
  | nil =>
      intro s s' h
      simp only [execWith, Option.some.injEq] at h
      subst h
      exact .nil
  | cons e es ih =>
      intro s s' h
      simp only [execWith] at h
      split at h
      · rename_i hge
        obtain ⟨t, hst, hrest⟩ := Option.bind_eq_some_iff.mp h
        have h1 : RunWith step G s ([] ++ [e]) t := .snoc .nil (hg s e hge) hst
        exact h1.trans (ih hrest)
      · exact absurd h (by simp)

end Hin9.Lib
