import Mathlib.Data.List.Induction

/-!
# Runs of a labelled step relation

`Run step s₀ ops s`: starting in `s₀`, the steps labelled `ops` lead to `s`, in
this order. A safety property is shown once for the start and once for a step
(`Run.invariant`), also when the steps of the run are known to meet a guard
(`Guarded`, `Run.guarded_invariant`) or the property is about the labels so far as well
(`Run.history_invariant`); so is a refinement (`Run.simulates`).
-/

namespace Runs

variable {σ ι : Type*} {step : σ → ι → σ → Prop}

inductive Run (step : σ → ι → σ → Prop) (s₀ : σ) : List ι → σ → Prop where
  | start : Run step s₀ [] s₀
  | snoc {ops : List ι} {op : ι} {s s' : σ} :
      Run step s₀ ops s → step s op s' → Run step s₀ (ops ++ [op]) s'

/-- The steps of `step` taken from states and with labels that meet `guard`. -/
def Guarded (guard : σ → ι → Prop) (step : σ → ι → σ → Prop) : σ → ι → σ → Prop :=
  fun s op s' => guard s op ∧ step s op s'

theorem run_nil {s₀ s : σ} : Run step s₀ [] s ↔ s = s₀ := by
  constructor
  · intro h
    generalize hops : [] = ops at h
    cases h with
    | start => rfl
    | snoc _ _ => exact absurd hops (by simp)
  · rintro rfl
    exact .start

theorem run_snoc {s₀ s' : σ} {ops : List ι} {op : ι} :
    Run step s₀ (ops ++ [op]) s' ↔ ∃ s, Run step s₀ ops s ∧ step s op s' := by
  constructor
  · intro h
    generalize hops : ops ++ [op] = all at h
    cases h with
    | start => exact absurd hops (by simp)
    | @snoc ops' op' s _ hrun hstep =>
        obtain ⟨rfl, hop⟩ := List.append_inj' hops rfl
        obtain rfl := List.singleton_inj.mp hop
        exact ⟨s, hrun, hstep⟩
  · rintro ⟨s, hrun, hstep⟩
    exact hrun.snoc hstep

theorem Run.invariant {P : σ → Prop} {s₀ s : σ} {ops : List ι}
    (h : Run step s₀ ops s) (h₀ : P s₀)
    (hstep : ∀ s op s', P s → step s op s' → P s') : P s := by
  induction h with
  | start => exact h₀
  | snoc _ hs ih => exact hstep _ _ _ ih hs

theorem Run.guarded_invariant {guard : σ → ι → Prop} {P : σ → Prop} {s₀ s : σ}
    {ops : List ι} (h : Run (Guarded guard step) s₀ ops s) (h₀ : P s₀)
    (hstep : ∀ s op s', P s → guard s op → step s op s' → P s') : P s :=
  h.invariant h₀ fun s op s' hs hg => hstep s op s' hs hg.1 hg.2

theorem Run.history_invariant {P : List ι → σ → Prop} {s₀ s : σ} {ops : List ι}
    (h : Run step s₀ ops s) (h₀ : P [] s₀)
    (hstep : ∀ ops s op s', P ops s → step s op s' → P (ops ++ [op]) s') : P ops s := by
  induction h with
  | start => exact h₀
  | snoc _ hs ih => exact hstep _ _ _ _ ih hs

theorem Run.mono {R : σ → ι → σ → Prop} {s₀ s : σ} {ops : List ι} (h : Run step s₀ ops s)
    (hstep : ∀ s op s', step s op s' → R s op s') : Run R s₀ ops s := by
  induction h with
  | start => exact .start
  | snoc _ hs ih => exact ih.snoc (hstep _ _ _ hs)

theorem Run.trans {s₀ s s' : σ} {ops ops' : List ι} (h : Run step s₀ ops s)
    (h' : Run step s ops' s') : Run step s₀ (ops ++ ops') s' := by
  induction h' with
  | start => rwa [List.append_nil]
  | snoc _ hs ih =>
      rw [← List.append_assoc]
      exact .snoc ih hs

theorem run_append {s₀ s' : σ} {ops ops' : List ι} :
    Run step s₀ (ops ++ ops') s' ↔ ∃ s, Run step s₀ ops s ∧ Run step s ops' s' := by
  constructor
  · intro h
    induction ops' using List.reverseRecOn generalizing s' with
    | nil =>
        rw [List.append_nil] at h
        exact ⟨s', h, .start⟩
    | append_singleton ops' op ih =>
        rw [← List.append_assoc] at h
        obtain ⟨t, ht, hstep⟩ := run_snoc.mp h
        obtain ⟨s, hs, hrest⟩ := ih ht
        exact ⟨s, hs, hrest.snoc hstep⟩
  · rintro ⟨s, hs, hrest⟩
    exact hs.trans hrest

theorem run_singleton {s₀ s' : σ} {op : ι} : Run step s₀ [op] s' ↔ step s₀ op s' := by
  constructor
  · intro h
    obtain ⟨s, hs, hstep⟩ := run_snoc.mp (show Run step s₀ ([] ++ [op]) s' from h)
    rwa [run_nil.mp hs] at hstep
  · intro h
    exact Run.start.snoc h

/-- **Simulation.** Where each step from a state of the invariant is a step of another
relation between the abstracted states, under an abstracted label, each run is one of that
relation. -/
theorem Run.simulates {τ κ : Type*} {R : τ → κ → τ → Prop} {P : σ → Prop}
    (view : σ → τ) (label : ι → κ) {s₀ s : σ} {ops : List ι} (h : Run step s₀ ops s)
    (h₀ : P s₀)
    (hstep : ∀ s op s', P s → step s op s' → P s' ∧ R (view s) (label op) (view s')) :
    P s ∧ Run R (view s₀) (ops.map label) (view s) := by
  induction h with
  | start => exact ⟨h₀, .start⟩
  | snoc _ hs ih =>
      obtain ⟨hinv, hrun⟩ := ih
      obtain ⟨hinv', hs'⟩ := hstep _ _ _ hinv hs
      rw [List.map_append]
      exact ⟨hinv', hrun.snoc hs'⟩

end Runs
