import Zeos.Libc

/-!
# How long `sleep` waits

`sleep` compares the clock with an end time that it computes once. The clock is an
`int` that comes through a system call wrapper, so that its negative half reads as
`-1`, the largest `unsigned int`. As long as the counter stays below `2 ^ 31` the
comparison is the right one; past it the loop ends at once or far too late.
-/

namespace Zeos.Libc

set_option autoImplicit false

/-- The counter at the calls of `gettime`, and the ticks since the first of them. A
process that has lost the CPU misses ticks, but no more than `2 ^ 31` between two calls. -/
structure Polled (t : Int) (zeosTicks : Nat → Int) (elapsed : Nat → Nat) : Prop where
  start : zeosTicks 0 = t ∧ elapsed 0 = 0
  next : ∀ j, ∃ n ≤ 2147483648,
    zeosTicks (j + 1) = (fun x => int32 (x + 1))^[n] (zeosTicks j) ∧ elapsed (j + 1) = elapsed j + n
  goesOn : ∀ n, ∃ j, n ≤ elapsed j

/-- The loop ends with the first test that finds `ms / TICKS_PER_MILISECOND` ticks elapsed. -/
def SleepsFor (t : Int) (ms : Nat) : Prop :=
  ∀ zeosTicks elapsed, Polled t zeosTicks elapsed →
    ∃ fuel j, sleep zeosTicks ms fuel = some j ∧ 1 ≤ j ∧ ms / ticksPerMilisecond ≤ elapsed j ∧
      ∀ i, 1 ≤ i → i < j → elapsed i < ms / ticksPerMilisecond

theorem uint32_gettime {x : Int} (hu : x < 2147483648) :
    (uint32 (gettime x) : Int) = if 0 ≤ x then x else 4294967295 := by
  unfold gettime sysenterReturn uint32
  split
  · dsimp only
    omega
  · rfl

theorem int32_add_zero {t : Int} (hl : -2147483648 ≤ t) (hu : t < 2147483648) :
    int32 (t + (0 : Nat)) = t := by
  unfold int32
  omega

/-- One tick for each call, once `n` ticks have passed before the second. -/
def elapsedAfter (n : Nat) : Nat → Nat
  | 0 => 0
  | j + 1 => n + j

section Loop
variable {zeosTicks : Nat → Int} {elapsed : Nat → Nat} {t : Int} {endTime i j : Nat}

/-- The loop ends at the first call whose result has reached the end time. -/
theorem sleepLoop_iff : (∃ fuel, sleepLoop zeosTicks endTime fuel i = some j) ↔
    i ≤ j ∧ endTime ≤ uint32 (gettime (zeosTicks j)) ∧
      ∀ k, i ≤ k → k < j → uint32 (gettime (zeosTicks k)) < endTime := by
  constructor
  · rintro ⟨fuel, h⟩
    induction fuel generalizing i with
    | zero => cases h
    | succ fuel ih =>
      unfold sleepLoop at h
      split at h
      · rename_i hwait
        obtain ⟨hle, hend, hbefore⟩ := ih h
        refine ⟨by omega, hend, fun k hk hkj => ?_⟩
        by_cases hki : k = i
        · rw [hki]
          exact hwait
        · exact hbefore k (by omega) hkj
      · rename_i hstop
        cases h
        exact ⟨le_rfl, not_lt.mp hstop, fun k hk hkj => absurd hk (not_le.mpr hkj)⟩
  · rintro ⟨hle, hend, hbefore⟩
    obtain ⟨d, rfl⟩ := Nat.exists_eq_add_of_le hle
    clear hle
    induction d generalizing i with
    | zero => exact ⟨1, if_neg (not_lt.mpr hend)⟩
    | succ d ih =>
      have hshift : i + 1 + d = i + (d + 1) := by omega
      obtain ⟨fuel, hfuel⟩ := ih (i := i + 1) (hshift ▸ hend) fun k hk hkj =>
        hbefore k (by omega) (by omega)
      refine ⟨fuel + 1, ?_⟩
      rw [sleepLoop, if_pos (hbefore i le_rfl (by omega)), hfuel, hshift]

theorem iterate_tick (h : -2147483648 ≤ t ∧ t < 2147483648) (n : Nat) : (fun x => int32 (x + 1))^[n] t = int32 (t + n) := by
  induction n with
  | zero => exact (int32_add_zero h.1 h.2).symm
  | succ n ih =>
    rw [Function.iterate_succ_apply', ih]
    unfold int32
    omega

theorem Polled.value (h : Polled t zeosTicks elapsed) (hl : -2147483648 ≤ t) (hu : t < 2147483648) (j : Nat) :
    zeosTicks j = int32 (t + elapsed j) := by
  induction j with
  | zero =>
    rw [h.start.1, h.start.2, int32_add_zero hl hu]
  | succ j ih =>
    obtain ⟨n, _, hz, he⟩ := h.next j
    rw [hz, he, ih, iterate_tick]
    · unfold int32
      omega
    · unfold int32
      omega

theorem Polled.first (h : Polled t zeosTicks elapsed) (n : Nat) :
    ∃ j, 1 ≤ j ∧ n ≤ elapsed j ∧ elapsed j ≤ n - 1 + 2147483648 ∧
      ∀ k, 1 ≤ k → k < j → elapsed k < n := by
  have hex : ∃ j, n ≤ elapsed (j + 1) := by
    obtain ⟨j, hj⟩ := h.goesOn n
    obtain ⟨m, _, _, he⟩ := h.next j
    exact ⟨j, by omega⟩
  have hbefore : elapsed (Nat.find hex) ≤ n - 1 := by
    rcases hj : Nat.find hex with _ | j
    · rw [h.start.2]
      exact Nat.zero_le _
    · have := Nat.find_min hex (show j < Nat.find hex by omega)
      omega
  obtain ⟨m, hm, _, he⟩ := h.next (Nat.find hex)
  refine ⟨Nat.find hex + 1, by omega, Nat.find_spec hex, by omega, ?_⟩
  intro k hk hkj
  obtain ⟨i, rfl⟩ := Nat.exists_eq_add_of_le' hk
  exact not_le.mp (Nat.find_min hex (Nat.lt_of_succ_lt_succ hkj))

theorem Polled.of_gaps (hl : -2147483648 ≤ t) (hu : t < 2147483648) (h0 : elapsed 0 = 0)
    (hgap : ∀ j, ∃ n ≤ 2147483648, elapsed (j + 1) = elapsed j + n) (hgo : ∀ n, ∃ j, n ≤ elapsed j) :
    Polled t (fun j => int32 (t + elapsed j)) elapsed where
  start := ⟨by rw [h0, int32_add_zero hl hu], h0⟩
  next j := by
    obtain ⟨n, hn, he⟩ := hgap j
    refine ⟨n, hn, ?_, he⟩
    rw [iterate_tick (by unfold int32; omega), he]
    unfold int32
    omega
  goesOn := hgo

theorem polled_after (hl : -2147483648 ≤ t) (hu : t < 2147483648) {n : Nat} (hn : n ≤ 2147483648) :
    Polled t (fun j => int32 (t + elapsedAfter n j)) (elapsedAfter n) := by
  apply Polled.of_gaps hl hu rfl
  · intro j
    cases j with
    | zero => exact ⟨n, hn, (Nat.zero_add n).symm⟩
    | succ j => exact ⟨1, by decide, rfl⟩
  · exact fun m => ⟨m + 1, Nat.le_add_left m n⟩

end Loop

/-- The end time that `sleep` computes from the counter at its call. -/
def endOfSleep (t : Int) (ms : Nat) : Nat := uint32 (uint32 (gettime t) + ms / ticksPerMilisecond)

theorem sleep_iff {zeosTicks : Nat → Int} {ms j : Nat} : (∃ fuel, sleep zeosTicks ms fuel = some j) ↔
    1 ≤ j ∧ endOfSleep (zeosTicks 0) ms ≤ uint32 (gettime (zeosTicks j)) ∧
      ∀ k, 1 ≤ k → k < j → uint32 (gettime (zeosTicks k)) < endOfSleep (zeosTicks 0) ms := sleepLoop_iff

section Exact
variable {t : Int} {ms : Nat}

theorem endOfSleep_eq (hl : -2147483648 ≤ t) (hu : t < 2147483648) (hms : ms < 4294967296) :
    (endOfSleep t ms : Int) = if 0 ≤ t then t + (ms / 2 : Nat)
      else if ms / 2 = 0 then 4294967295 else (ms / 2 : Nat) - 1 := by
  have hstart := uint32_gettime hu
  unfold endOfSleep
  change (uint32 ((uint32 (gettime t) : Int) + (ms / 2 : Nat)) : Int) = _
  rw [hstart]
  unfold uint32
  split
  · omega
  · split <;> omega

theorem uint32_gettime_after (t : Int) (e : Nat) :
    (uint32 (gettime (int32 (t + e))) : Int) =
      if 0 ≤ int32 (t + e) then int32 (t + e) else 4294967295 :=
  uint32_gettime (by unfold int32; omega)

theorem sleepsFor_of (hms : ms < 4294967296) (h0 : 0 ≤ t)
    (hlast : t + (ms / 2 : Nat) ≤ 2147483648) (hu : t < 2147483648) : SleepsFor t ms := by
  intro zeosTicks elapsed hp
  have hl : -2147483648 ≤ t := by omega
  have hend := endOfSleep_eq hl hu hms
  rw [if_pos h0] at hend
  have hseen : ∀ j, (uint32 (gettime (zeosTicks j)) : Int) =
      if 0 ≤ int32 (t + elapsed j) then int32 (t + elapsed j) else 4294967295 := by
    intro j
    rw [hp.value hl hu j, uint32_gettime_after]
  obtain ⟨j, hj, hlong, hgap, hbefore⟩ := hp.first (ms / 2)
  have hstop : endOfSleep t ms ≤ uint32 (gettime (zeosTicks j)) := by
    -- past `2 ^ 31` the test sees the largest number, which ends the loop as well
    have hs := hseen j
    unfold int32 at hs
    split at hs <;> omega
  have hwait : ∀ k, 1 ≤ k → k < j → uint32 (gettime (zeosTicks k)) < endOfSleep t ms := by
    intro k hk hkj
    have hs := hseen k
    have hek := hbefore k hk hkj
    unfold int32 at hs
    split at hs <;> omega
  rw [← hp.start.1] at hstop hwait
  obtain ⟨fuel, hok⟩ := sleep_iff.mpr ⟨hj, hstop, hwait⟩
  exact ⟨fuel, j, hok, hj, hlong, hbefore⟩

theorem not_sleepsFor_negative_zero (hl : -2147483648 ≤ t) (ht : t < 0) (hms : ms < 4294967296)
    (hzero : ms / 2 = 0) : ¬ SleepsFor t ms := by
  intro h
  have hu : t < 2147483648 := by omega
  have hend := endOfSleep_eq hl hu hms
  rw [if_neg (Int.not_le.mpr ht), if_pos hzero] at hend
  obtain ⟨fuel, j, hok, hj, _, hbefore⟩ := h _ _ (polled_after hl hu (n := (-t).toNat) (by omega))
  obtain ⟨_, hstop, _⟩ := sleep_iff.mp ⟨fuel, hok⟩
  obtain rfl : j = 1 := by
    by_contra hne
    have hb := hbefore 1 le_rfl (by omega)
    change _ < ms / 2 at hb
    omega
  have hs := uint32_gettime_after t (-t).toNat
  have hnow : int32 (t + ((-t).toNat : Nat)) = 0 := by
    unfold int32
    omega
  rw [hnow, if_pos le_rfl] at hs
  change endOfSleep (int32 (t + (0 : Nat))) ms ≤ uint32 (gettime (int32 (t + ((-t).toNat : Nat)))) at hstop
  rw [int32_add_zero hl hu, hnow] at hstop
  omega

/-- The test at `2 ^ 31` sees the largest number. -/
theorem not_sleepsFor_past_wrap (hu : t < 2147483648) (hms : ms < 4294967296) (h0 : 0 ≤ t)
    (hlast : 2147483648 < t + (ms / 2 : Nat)) : ¬ SleepsFor t ms := by
  intro h
  have hl : -2147483648 ≤ t := by omega
  have hend := endOfSleep_eq hl hu hms
  rw [if_pos h0] at hend
  obtain ⟨fuel, j, hok, hj, hlong, _⟩ := h _ _ (polled_after hl hu (n := 1) (by decide))
  obtain ⟨_, _, hwait⟩ := sleep_iff.mp ⟨fuel, hok⟩
  obtain ⟨i, hi⟩ : ∃ i : Nat, t + ((1 + i : Nat) : Int) = 2147483648 := ⟨(2147483647 - t).toNat, by omega⟩
  obtain ⟨j, rfl⟩ := Nat.exists_eq_add_of_le' hj
  change ms / 2 ≤ 1 + j at hlong
  have hearly := hwait (i + 1) (by omega) (by omega)
  change uint32 (gettime (int32 (t + (1 + i : Nat)))) < endOfSleep (int32 (t + (0 : Nat))) ms at hearly
  have hs := uint32_gettime_after t (1 + i)
  have hmin : int32 (t + ((1 + i : Nat) : Int)) = -2147483648 := by
    rw [hi]
    decide
  rw [hmin, if_neg (by decide)] at hs
  rw [hmin, int32_add_zero hl hu] at hearly
  omega

theorem not_sleepsFor_negative (hl : -2147483648 ≤ t) (ht : t < 0) (hms : ms < 4294967296)
    (hpos : 0 < ms / 2) : ¬ SleepsFor t ms := by
  intro h
  have hu : t < 2147483648 := by omega
  have hend := endOfSleep_eq hl hu hms
  obtain ⟨fuel, j, hok, hj, hlong, _⟩ := h _ _ (polled_after hl hu (n := 0) (by decide))
  obtain ⟨_, _, hwait⟩ := sleep_iff.mp ⟨fuel, hok⟩
  obtain ⟨j, rfl⟩ := Nat.exists_eq_add_of_le' hj
  change ms / 2 ≤ 0 + j at hlong
  rw [if_neg (Int.not_le.mpr ht), if_neg (Nat.ne_of_gt hpos)] at hend
  have hearly := hwait 1 le_rfl (by omega)
  have hs := uint32_gettime hu
  rw [if_neg (Int.not_le.mpr ht)] at hs
  change uint32 (gettime (int32 (t + (0 : Nat)))) < endOfSleep (int32 (t + (0 : Nat))) ms at hearly
  rw [int32_add_zero hl hu] at hearly
  omega

/-- `sleep` waits for the time it is given, whatever ticks its process misses, exactly if
the counter is not negative and reaches `2 ^ 31` at most when the time is over. -/
theorem sleeps_iff (t : Int) (hl : -2147483648 ≤ t) (hu : t < 2147483648) (ms : Nat)
    (hms : ms < 4294967296) :
    SleepsFor t ms ↔ 0 ≤ t ∧ t + (ms / ticksPerMilisecond : Nat) ≤ 2147483648 := by
  change _ ↔ 0 ≤ t ∧ t + (ms / 2 : Nat) ≤ 2147483648
  constructor
  · intro h
    have h0 : 0 ≤ t := by
      by_contra ht
      rcases Nat.eq_zero_or_pos (ms / 2) with hzero | hpos
      · exact not_sleepsFor_negative_zero hl (not_le.mp ht) hms hzero h
      · exact not_sleepsFor_negative hl (not_le.mp ht) hms hpos h
    exact ⟨h0, Int.not_lt.mp fun hlt => not_sleepsFor_past_wrap hu hms h0 hlt h⟩
  · rintro ⟨h0, hlast⟩
    exact sleepsFor_of hms h0 hlast hu

/-- A second, from boot on. -/
theorem sleeps_iff_second : SleepsFor 0 1000 :=
  (sleeps_iff 0 (by decide) (by decide) 1000 (by decide)).mpr (by decide)

/-- Three seconds, asked for in the last tick before the counter turns negative. -/
theorem sleep_ends_early : ¬ SleepsFor 2147483647 3000 :=
  not_sleepsFor_past_wrap (by decide) (by decide) (by decide) (by decide)

end Exact

end Zeos.Libc
