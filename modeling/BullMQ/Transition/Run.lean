import Mathlib.Data.List.Basic
import Mathlib.Data.Prod.Basic

/-!
# Runs of a transition system

A `Run` of a labelled step relation records every step it took, with the state before and after,
so that a statement can speak about what happened between two points of the run. The induction
rules are `Run.invariant`, for a property of the states, and `Run.induct`, for a property that
also reads the history; `Run.split` cuts a run at a step. `Since` speaks about the steps after the
last one of a kind.
-/

namespace Transition

variable {σ ℓ : Type}

/-- The runs of a step relation from a state, with the steps taken in order. -/
inductive Run (step : σ → ℓ → σ → Prop) (s : σ) : List (σ × ℓ × σ) → σ → Prop
  | nil : Run step s [] s
  | snoc {steps : List (σ × ℓ × σ)} {t u : σ} {l : ℓ} (run : Run step s steps t)
      (last : step t l u) : Run step s (steps ++ [(t, l, u)]) u

variable {step : σ → ℓ → σ → Prop} {s t : σ} {steps : List (σ × ℓ × σ)}

/-- A property of the history and the state that every step keeps holds at the end of a run. -/
theorem Run.induct {I : List (σ × ℓ × σ) → σ → Prop} (h₀ : I [] s)
    (hstep : ∀ steps t l u, I steps t → step t l u → I (steps ++ [(t, l, u)]) u)
    (run : Run step s steps t) : I steps t := by
  induction run with
  | nil => exact h₀
  | snoc _ last ih => exact hstep _ _ _ _ ih last

/-- A property of the state that every step keeps holds at the end of a run. -/
theorem Run.invariant {I : σ → Prop} (h₀ : I s)
    (hstep : ∀ t l u, I t → step t l u → I u) (run : Run step s steps t) : I t :=
  run.induct (I := fun _ t => I t) h₀ fun _ _ _ _ => hstep _ _ _

/-- Runs can be put one after the other. -/
theorem Run.append {steps' : List (σ × ℓ × σ)} {u : σ} (run : Run step s steps t)
    (run' : Run step t steps' u) : Run step s (steps ++ steps') u := by
  induction run' with
  | nil => rwa [List.append_nil]
  | snoc _ last ih =>
    rw [← List.append_assoc]
    exact ih.snoc last

/-- A run can be cut in front of one of its steps. -/
theorem Run.split {before after : List (σ × ℓ × σ)} {a b : σ} {l : ℓ}
    (run : Run step s (before ++ (a, l, b) :: after) t) :
    Run step s before a ∧ step a l b ∧ Run step b after t := by
  generalize hsteps : before ++ (a, l, b) :: after = steps at run
  induction run generalizing after with
  | nil => simp at hsteps
  | @snoc steps u v l' run last ih =>
    rcases List.eq_nil_or_concat after with rfl | ⟨after', e, rfl⟩
    · obtain ⟨rfl, he⟩ := List.append_inj' hsteps rfl
      obtain ⟨rfl, rfl, rfl⟩ : a = u ∧ l = l' ∧ b = v := by simpa using he
      exact ⟨run, last, .nil⟩
    · rw [List.concat_eq_append, ← List.cons_append, ← List.append_assoc] at hsteps
      obtain ⟨hinit, he⟩ := List.append_inj' hsteps rfl
      obtain rfl : e = (u, l', v) := by simpa using he
      obtain ⟨h₁, h₂, h₃⟩ := ih hinit
      exact ⟨h₁, h₂, by simpa using h₃.snoc last⟩

/-- The first step of a run and the run that follows it. -/
theorem Run.uncons {after : List (σ × ℓ × σ)} {a b : σ} {l : ℓ}
    (run : Run step s ((a, l, b) :: after) t) : a = s ∧ step a l b ∧ Run step b after t := by
  obtain ⟨h₁, h₂, h₃⟩ := Run.split (show Run step s ([] ++ (a, l, b) :: after) t from run)
  generalize hnil : ([] : List (σ × ℓ × σ)) = steps at h₁
  cases h₁ with
  | nil => exact ⟨rfl, h₂, h₃⟩
  | snoc _ _ => simp at hnil

/-- A single step is a run. -/
theorem Run.single {a b : σ} {l : ℓ} (h : step a l b) : Run step a [(a, l, b)] b :=
  Run.snoc .nil h

/-- The labels that a step function accepts one after the other make a run. -/
theorem Run.of_foldlM {next : σ → ℓ → Option σ} {labels : List ℓ}
    (h : labels.foldlM next s = some t) :
    ∃ steps, Run (fun a l b => next a l = some b) s steps t := by
  induction labels generalizing s with
  | nil =>
    obtain rfl : s = t := by simpa using h
    exact ⟨[], .nil⟩
  | cons l labels ih =>
    obtain ⟨b, hnext, hrest⟩ : ∃ b, next s l = some b ∧ labels.foldlM next b = some t := by
      simpa [Option.bind_eq_some_iff] using h
    obtain ⟨steps, run⟩ := ih hrest
    have hfirst : Run (fun a l b => next a l = some b) s [(s, l, b)] b := .single hnext
    exact ⟨_, hfirst.append run⟩

/-- Some step of the history satisfies `start`, and every step after it satisfies `keep`. -/
def Since (start keep : σ × ℓ × σ → Prop) (steps : List (σ × ℓ × σ)) : Prop :=
  ∃ before e after, steps = before ++ e :: after ∧ start e ∧ ∀ e' ∈ after, keep e'

variable {start keep : σ × ℓ × σ → Prop}

@[simp]
theorem not_since_nil : ¬ Since start keep [] := by
  rintro ⟨before, e, after, h, -⟩
  simp at h

/-- The last step either starts the period or continues it. -/
theorem since_snoc {e : σ × ℓ × σ} :
    Since start keep (steps ++ [e]) ↔ start e ∨ keep e ∧ Since start keep steps := by
  constructor
  · rintro ⟨before, e₀, after, h, hstart, hkeep⟩
    rcases List.eq_nil_or_concat after with rfl | ⟨after, e₁, rfl⟩
    · obtain ⟨-, he⟩ := List.append_inj' h rfl
      obtain rfl : e = e₀ := by simpa using he
      exact .inl hstart
    · rw [List.concat_eq_append, ← List.cons_append, ← List.append_assoc] at h
      obtain ⟨hinit, he⟩ := List.append_inj' h rfl
      obtain rfl : e = e₁ := by simpa using he
      exact .inr ⟨hkeep e (by simp), before, e₀, after, hinit, hstart,
        fun e' he' => hkeep e' (by simp [he'])⟩
  · rintro (hstart | ⟨hkeep, before, e₀, after, rfl, hstart, hafter⟩)
    · exact ⟨steps, e, [], rfl, hstart, by simp⟩
    · refine ⟨before, e₀, after ++ [e], by simp, hstart, fun e' he' => ?_⟩
      rcases List.mem_append.mp he' with he' | he'
      · exact hafter e' he'
      · obtain rfl : e' = e := by simpa using he'
        exact hkeep

end Transition
