import Mathlib.Algebra.Ring.Int.Parity
import Mathlib.Data.ZMod.Basic
import Mathlib.Dynamics.PeriodicPts.Lemmas
import Mathlib.Tactic.Ring

/-!
# Linear congruential sequences modulo a power of two

With a multiplier that is 1 modulo 4 and an odd increment, a sequence modulo a power
of two runs through all residues. The iterates that are powers of two are affine
again, and each of them moves every number by an odd multiple of the number of steps.
-/

namespace Zeos.Congruential

open Function
set_option autoImplicit false

def affine {R : Type} [Semiring R] (a c x : R) : R := a * x + c

section Integers
variable {a c : ℤ}

/-- The iterate is again affine, with a multiplier ever closer to 1. -/
theorem iterate_two_pow (ha : 4 ∣ a - 1) (hc : Odd c) (n : ℕ) :
    ∃ b d o : ℤ, 2 ^ (n + 2) ∣ b - 1 ∧ Odd o ∧ d = 2 ^ n * o ∧
      ∀ x, (affine a c)^[2 ^ n] x = b * x + d := by
  induction n with
  | zero => exact ⟨a, c, c, ha, hc, (one_mul c).symm, fun x => rfl⟩
  | succ n ih =>
    obtain ⟨b, d, o, ⟨q, hq⟩, ho, hd, hx⟩ := ih
    obtain rfl : b = 2 ^ (n + 2) * q + 1 := by omega
    have hodd : Odd (2 ^ (n + 1) * q + 1) := by
      rw [pow_succ', mul_assoc]
      exact odd_two_mul_add_one _
    refine ⟨(2 ^ (n + 2) * q + 1) * (2 ^ (n + 2) * q + 1), (2 ^ (n + 2) * q + 1) * d + d,
      o * (2 ^ (n + 1) * q + 1), ⟨q * (2 ^ (n + 1) * q + 1), by ring⟩, ho.mul hodd, ?_, ?_⟩
    · rw [hd]
      ring
    · intro x
      rw [pow_succ, mul_two, iterate_add_apply, hx, hx]
      ring

/-- After `2 ^ n` steps the sequence is back modulo `2 ^ n`, and not modulo `2 ^ (n + 1)`. -/
theorem iterate_two_pow_sub (ha : 4 ∣ a - 1) (hc : Odd c) (n : ℕ) (x : ℤ) :
    2 ^ n ∣ (affine a c)^[2 ^ n] x - x ∧ ¬ 2 ^ (n + 1) ∣ (affine a c)^[2 ^ n] x - x := by
  obtain ⟨b, d, o, ⟨q, hq⟩, ho, hd, hx⟩ := iterate_two_pow ha hc n
  have hmoved : (affine a c)^[2 ^ n] x - x = 2 ^ n * (2 * (2 * (q * x)) + o) := by
    calc (affine a c)^[2 ^ n] x - x = (b - 1) * x + d := by
          rw [hx]
          ring
      _ = 2 ^ n * (2 * (2 * (q * x)) + o) := by
          rw [hq, hd]
          ring
  rw [hmoved]
  refine ⟨Dvd.intro _ rfl, ?_⟩
  rw [pow_succ, mul_dvd_mul_iff_left (pow_ne_zero n two_ne_zero)]
  intro heven
  have hodd : Odd (2 * (2 * (q * x)) + o) := (even_two_mul _).add_odd ho
  exact Int.not_even_iff_odd.mpr hodd (even_iff_two_dvd.mpr heven)

end Integers

theorem cast_iterate (N : ℕ) (a c x : ℤ) (k : ℕ) :
    (((affine a c)^[k] x : ℤ) : ZMod N) = (affine (a : ZMod N) (c : ZMod N))^[k] (x : ZMod N) := by
  have hcomm : Semiconj (Int.cast : ℤ → ZMod N) (affine a c) (affine (a : ZMod N) (c : ZMod N)) := by
    intro y
    simp only [affine, Int.cast_add, Int.cast_mul]
  exact (hcomm.iterate_right k).eq x

theorem isPeriodicPt_iff {N : ℕ} {a c x : ℤ} {k : ℕ} :
    IsPeriodicPt (affine (a : ZMod N) (c : ZMod N)) k (x : ZMod N) ↔
      (N : ℤ) ∣ (affine a c)^[k] x - x := by
  rw [IsPeriodicPt, IsFixedPt, ← cast_iterate, ← ZMod.intCast_zmod_eq_zero_iff_dvd, Int.cast_sub,
    sub_eq_zero]

/-- Every residue comes up, from wherever the sequence starts. -/
theorem affine_reaches {a c : ℤ} (ha : 4 ∣ a - 1) (hc : Odd c) (n : ℕ) (x y : ZMod (2 ^ (n + 1))) :
    ∃ k, (affine (a : ZMod (2 ^ (n + 1))) (c : ZMod (2 ^ (n + 1))))^[k] x = y := by
  obtain ⟨x, rfl⟩ := ZMod.intCast_surjective x
  have hperiod : minimalPeriod (affine (a : ZMod (2 ^ (n + 1))) (c : ZMod (2 ^ (n + 1)))) x =
      2 ^ (n + 1) := by
    apply minimalPeriod_eq_prime_pow
    · rw [isPeriodicPt_iff]
      push_cast
      exact (iterate_two_pow_sub ha hc n x).2
    · rw [isPeriodicPt_iff]
      push_cast
      exact (iterate_two_pow_sub ha hc (n + 1) x).1
  -- that many different values are all there are
  have hinj : Injective fun k : Fin (2 ^ (n + 1)) =>
      (affine (a : ZMod (2 ^ (n + 1))) (c : ZMod (2 ^ (n + 1))))^[k] (x : ZMod (2 ^ (n + 1))) := by
    intro j k hjk
    apply Fin.ext
    apply iterate_injOn_Iio_minimalPeriod _ _ hjk
    · rw [hperiod]
      exact j.isLt
    · rw [hperiod]
      exact k.isLt
  have hbij := (Fintype.bijective_iff_injective_and_card _).mpr ⟨hinj, by
    rw [Fintype.card_fin, ZMod.card]⟩
  obtain ⟨k, hk⟩ := hbij.2 y
  exact ⟨k, hk⟩

end Zeos.Congruential
