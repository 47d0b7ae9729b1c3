import Mathlib.Data.Nat.Init
import Mathlib.Tactic.Common

/-!
# Counted loops that may fail

`loop n body s` runs `body 0`, ..., `body (n-1)` in this order and stops at the
first failure. The two rules below are the only facts about it that later
modules use: what a completed loop preserves, and when it completes.
-/

namespace Zeos.Loops

set_option autoImplicit false

universe u v
variable {ε : Type u} {σ α β : Type v}

theorem bind_eq_ok {x : Except ε α} {f : α → Except ε β} {b : β} :
    (x >>= f) = .ok b ↔ ∃ a, x = .ok a ∧ f a = .ok b := by
  constructor
  · intro h
    cases x with
    | error e => cases h
    | ok a => exact ⟨a, rfl, h⟩
  · rintro ⟨a, rfl, ha⟩
    exact ha

@[simp] theorem ok_bind (a : α) (f : α → Except ε β) : (Except.ok a >>= f) = f a := rfl

@[simp] theorem error_bind (e : ε) (f : α → Except ε β) :
    ((Except.error e : Except ε α) >>= f) = .error e := rfl

@[simp] theorem pure_eq_ok (a : α) : (pure a : Except ε α) = .ok a := rfl

def loop : Nat → (Nat → σ → Except ε σ) → σ → Except ε σ
  | 0, _, s => .ok s
  | n + 1, body, s => loop n body s >>= body n

@[simp] theorem loop_zero (body : Nat → σ → Except ε σ) (s : σ) : loop 0 body s = .ok s := rfl

theorem loop_succ (n : Nat) (body : Nat → σ → Except ε σ) (s : σ) :
    loop (n + 1) body s = loop n body s >>= body n := rfl

theorem loop_preserves {body : Nat → σ → Except ε σ} (P : Nat → σ → Prop) {n : Nat}
    (step : ∀ i s s', i < n → P i s → body i s = .ok s' → P (i + 1) s')
    {s s' : σ} (h0 : P 0 s) (h : loop n body s = .ok s') : P n s' := by
  induction n generalizing s' with
  | zero =>
    cases h
    exact h0
  | succ n ih =>
    obtain ⟨t, ht, hs⟩ := bind_eq_ok.mp h
    exact step n t s' (Nat.lt_succ_self n)
      (ih (fun i s s' hi => step i s s' (Nat.lt_succ_of_lt hi)) ht) hs

/-- A loop whose body always completes under the invariant completes. -/
theorem loop_completes {body : Nat → σ → Except ε σ} (P : Nat → σ → Prop) {n : Nat}
    (step : ∀ i s, i < n → P i s → ∃ s', body i s = .ok s' ∧ P (i + 1) s')
    {s : σ} (h0 : P 0 s) : ∃ s', loop n body s = .ok s' ∧ P n s' := by
  induction n with
  | zero => exact ⟨s, rfl, h0⟩
  | succ n ih =>
    obtain ⟨t, ht, hp⟩ := ih (fun i s hi => step i s (Nat.lt_succ_of_lt hi))
    obtain ⟨s', hs, hp'⟩ := step n t (Nat.lt_succ_self n) hp
    exact ⟨s', by rw [loop_succ, ht, ok_bind, hs], hp'⟩

theorem loop_fixed {body : Nat → σ → Except ε σ} {n : Nat} {s : σ}
    (step : ∀ i, i < n → body i s = .ok s) : loop n body s = .ok s := by
  obtain ⟨s', hok, he⟩ := loop_completes (fun _ t => t = s) (n := n) (s := s) (by
    rintro i t hi rfl
    exact ⟨t, step i hi, rfl⟩) rfl
  exact he ▸ hok

/-- The loop whose body cannot fail. -/
def times : Nat → (Nat → σ → σ) → σ → σ
  | 0, _, s => s
  | n + 1, body, s => body n (times n body s)

theorem times_preserves {body : Nat → σ → σ} (P : Nat → σ → Prop) {n : Nat}
    (step : ∀ i s, i < n → P i s → P (i + 1) (body i s)) {s : σ} (h0 : P 0 s) :
    P n (times n body s) := by
  induction n with
  | zero => exact h0
  | succ n ih =>
    exact step n _ (Nat.lt_succ_self n) (ih fun i s hi => step i s (Nat.lt_succ_of_lt hi))

section Fold
variable {γ : Type v} {f : σ → γ → Except ε σ}

theorem foldlM_preserves (P : σ → Prop) (step : ∀ a s s', P s → f s a = .ok s' → P s') (l : List γ)
    {s s' : σ} (h0 : P s) (h : l.foldlM f s = .ok s') : P s' := by
  induction l generalizing s with
  | nil =>
    cases h
    exact h0
  | cons a l ih =>
    rw [List.foldlM_cons] at h
    obtain ⟨t, ht, h⟩ := bind_eq_ok.mp h
    exact ih (step a s t h0 ht) h

/-- A pass completes when each round does; `P` sees what is done and what is left. -/
theorem foldlM_completes (P : List γ → List γ → σ → Prop)
    (step : ∀ done a rest s, P done (a :: rest) s → ∃ s', f s a = .ok s' ∧ P (done ++ [a]) rest s')
    (l : List γ) {done : List γ} {s : σ} (h0 : P done l s) :
    ∃ s', l.foldlM f s = .ok s' ∧ P (done ++ l) [] s' := by
  induction l generalizing done s with
  | nil => exact ⟨s, rfl, by simpa using h0⟩
  | cons a l ih =>
    obtain ⟨t, ht, hp⟩ := step done a l s h0
    obtain ⟨s', hs, hp'⟩ := ih hp
    refine ⟨s', ?_, by simpa using hp'⟩
    rw [List.foldlM_cons, ht, ok_bind, hs]

theorem foldlM_fails (P : List γ → List γ → σ → Prop) (bad : γ → Prop) (e : ε)
    (step : ∀ done a rest s, P done (a :: rest) s → ¬ bad a →
      ∃ s', f s a = .ok s' ∧ P (done ++ [a]) rest s')
    (stop : ∀ done a rest s, P done (a :: rest) s → bad a → f s a = .error e)
    (l : List γ) {done : List γ} {s : σ} (h0 : P done l s) (hb : ∃ a ∈ l, bad a) :
    l.foldlM f s = .error e := by
  induction l generalizing done s with
  | nil =>
    obtain ⟨a, ha, _⟩ := hb
    cases ha
  | cons a l ih =>
    rw [List.foldlM_cons]
    by_cases ha : bad a
    · rw [stop done a l s h0 ha, error_bind]
    · obtain ⟨t, ht, hp⟩ := step done a l s h0 ha
      rw [ht, ok_bind]
      apply ih hp
      obtain ⟨b, hb, hbad⟩ := hb
      rcases List.mem_cons.mp hb with rfl | hb
      · exact absurd hbad ha
      · exact ⟨b, hb, hbad⟩

end Fold

end Zeos.Loops
