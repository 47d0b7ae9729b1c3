import Mathlib.Logic.Function.Iterate

/-!
# Countdowns

A timer that runs down by a unit at each tick and stops by itself once nothing is
left. What is left is a number of whole units, so that no tick takes more than
there is.
-/

namespace Zeos.Countdown

set_option autoImplicit false

/-- Whether the timer runs, and what is left of it. -/
@[ext] structure Timer where
  on : Bool
  left : Nat
  deriving DecidableEq, Repr

def started (limit : Nat) : Timer := ⟨true, limit⟩

def stopped : Timer := ⟨false, 0⟩

def tick (unit : Nat) (t : Timer) : Timer :=
  if t.on then ⟨decide (0 < t.left - unit), t.left - unit⟩ else t

/-- The timer runs as long as whole units are left, and never more than `limit`. -/
structure Whole (unit limit : Nat) (t : Timer) : Prop where
  on_iff : t.on = true ↔ 0 < t.left
  le : t.left ≤ limit
  dvd : unit ∣ t.left

section Ticks
variable {unit limit : Nat} {t : Timer}

theorem Whole.started (hlimit : 0 < limit) (hdvd : unit ∣ limit) :
    Whole unit limit (started limit) :=
  ⟨⟨fun _ => hlimit, fun _ => rfl⟩, Nat.le_refl _, hdvd⟩

theorem Whole.stopped (unit limit : Nat) : Whole unit limit stopped :=
  ⟨by simp [Countdown.stopped], Nat.zero_le _, Nat.dvd_zero _⟩

theorem Whole.unit_le (h : Whole unit limit t) (hon : t.on = true) : unit ≤ t.left :=
  Nat.le_of_dvd (h.on_iff.mp hon) h.dvd

theorem Whole.on_iff_range (h : Whole unit limit t) : t.on = true ↔ 0 < t.left ∧ t.left ≤ limit :=
  h.on_iff.trans ⟨fun hpos => ⟨hpos, h.le⟩, And.left⟩

theorem tick_of_on (hon : t.on = true) : tick unit t = ⟨decide (0 < t.left - unit), t.left - unit⟩ :=
  if_pos hon

theorem tick_of_off (hoff : t.on = false) : tick unit t = t := if_neg (by simp [hoff])

theorem Whole.tick (h : Whole unit limit t) : Whole unit limit (tick unit t) := by
  cases hon : t.on with
  | false =>
    rw [tick_of_off hon]
    exact h
  | true =>
    rw [tick_of_on hon]
    refine ⟨?_, Nat.le_trans (Nat.sub_le _ _) h.le, Nat.dvd_sub h.dvd (Nat.dvd_refl _)⟩
    exact decide_eq_true_iff

theorem tick_iterate_started (hlimit : 0 < limit) (k : Nat) :
    (Countdown.tick unit)^[k] (Countdown.started limit) =
      if k * unit < limit then ⟨true, limit - k * unit⟩ else stopped := by
  induction k with
  | zero => simp [Countdown.started, hlimit]
  | succ k ih =>
    rw [Function.iterate_succ_apply', ih, Nat.succ_mul]
    by_cases hk : k * unit < limit
    · rw [if_pos hk, tick_of_on rfl]
      by_cases hnext : k * unit + unit < limit
      · rw [if_pos hnext]
        simp only [Timer.mk.injEq, decide_eq_true_eq]
        omega
      · rw [if_neg hnext]
        simp only [Countdown.stopped, Timer.mk.injEq, decide_eq_false_iff_not]
        omega
    · rw [if_neg hk, if_neg (by omega)]
      exact tick_of_off rfl

theorem tick_iterate_started_on (hlimit : 0 < limit) (k : Nat) :
    ((Countdown.tick unit)^[k] (Countdown.started limit)).on = true ↔ k * unit < limit := by
  rw [tick_iterate_started hlimit]
  split
  · rename_i hk
    exact ⟨fun _ => hk, fun _ => rfl⟩
  · rename_i hk
    exact ⟨fun hon => absurd hon (by simp [Countdown.stopped]), fun hlt => absurd hlt hk⟩

end Ticks

end Zeos.Countdown
