import Mathlib.Tactic.Common

/-!
# Runs of labelled systems

A run keeps the trace of its labels, the newest first. Invariants are proved
from one step; two deterministic machines that stay in a relation step by step
produce the same outputs.
-/

namespace Zeos.Runs

set_option autoImplicit false

universe u v w x

section Traces
variable {σ : Type u} {ε : Type v}

inductive Run (step : σ → ε → σ → Prop) (s : σ) : List ε → σ → Prop where
  | nil : Run step s [] s
  | snoc {tr : List ε} {t u : σ} {e : ε} : Run step s tr t → step t e u → Run step s (e :: tr) u

variable {step : σ → ε → σ → Prop} {s t : σ} {tr : List ε}

/-- An invariant of the state together with the trace so far. -/
theorem Run.invariant_trace (I : List ε → σ → Prop) (h0 : I [] s)
    (hstep : ∀ tr t e u, I tr t → step t e u → I (e :: tr) u) (h : Run step s tr t) : I tr t := by
  induction h with
  | nil => exact h0
  | snoc _ hs ih => exact hstep _ _ _ _ ih hs

theorem Run.invariant (I : σ → Prop) (h0 : I s)
    (hstep : ∀ t e u, I t → step t e u → I u) (h : Run step s tr t) : I t :=
  h.invariant_trace (fun _ => I) h0 (fun _ => hstep)

theorem Run.mono {step' : σ → ε → σ → Prop} (hs : ∀ t e u, step t e u → step' t e u)
    (h : Run step s tr t) : Run step' s tr t := by
  induction h with
  | nil => exact .nil
  | snoc _ hst ih => exact .snoc ih (hs _ _ _ hst)

theorem Run.append {u : σ} {tr' : List ε} (h : Run step s tr t) (h' : Run step t tr' u) :
    Run step s (tr' ++ tr) u := by
  induction h' with
  | nil => exact h
  | snoc _ hs ih => exact .snoc ih hs

end Traces

section Lockstep
variable {σ : Type u} {τ : Type v} {α : Type w} {β : Type x}

/-- The outputs of a deterministic machine on a list of commands, up to the first
command that it cannot carry out. -/
def outputs (m : α → σ → Option (β × σ)) : List α → σ → List β
  | [], _ => []
  | a :: as, s =>
    match m a s with
    | none => []
    | some (b, s) => b :: outputs m as s

/-- Both stop, or both go on with the same output and related states. -/
inductive Agree (R : σ → τ → Prop) : Option (β × σ) → Option (β × τ) → Prop where
  | stop : Agree R none none
  | go (b : β) {s : σ} {t : τ} : R s t → Agree R (some (b, s)) (some (b, t))

theorem outputs_eq {m : α → σ → Option (β × σ)} {n : α → τ → Option (β × τ)}
    (R : σ → τ → Prop) (hstep : ∀ a s t, R s t → Agree R (m a s) (n a t)) :
    ∀ (as : List α) (s : σ) (t : τ), R s t → outputs m as s = outputs n as t := by
  intro as
  induction as with
  | nil =>
    intro s t _
    rfl
  | cons a as ih =>
    intro s t hR
    have ha := hstep a s t hR
    unfold outputs
    generalize m a s = x at ha
    generalize n a t = y at ha
    cases ha with
    | stop => rfl
    | go b hR' => simp only [ih _ _ hR']

end Lockstep

end Zeos.Runs
