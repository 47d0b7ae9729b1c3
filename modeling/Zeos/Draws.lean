import Zeos.Encounters
import Zeos.Lib.Congruential
import Zeos.Libc

/-!
# The random directions of the ghosts

The generator of `libc.c` runs through all numbers below `2 ^ 31`, so whatever the
seed is, each direction comes up again. A ghost that has a free neighbour therefore
draws its way out.
-/

namespace Zeos.Game

open Loops Congruential Function
set_option autoImplicit false

/-- The results of `n` calls of `rand_range(0, 4)`. -/
def randDraws (lcgSeed : Nat) : Nat → List Nat
  | 0 => []
  | n + 1 =>
    let (draw, lcgSeed) := Libc.randRange 0 4 lcgSeed
    draw :: randDraws lcgSeed n

section Generator
variable (lcgSeed : Nat)

theorem rand_lt : Libc.rand lcgSeed < 2 ^ 31 := Nat.mod_lt _ (by decide)

/-- The 32-bit overflow does not show in the remainder. -/
theorem rand_cast : (Libc.rand lcgSeed : ZMod (2 ^ 31)) =
    affine ((Libc.multiplier : ℤ) : ZMod (2 ^ 31)) ((Libc.increment : ℤ) : ZMod (2 ^ 31)) lcgSeed := by
  have hwrap : Libc.rand lcgSeed = (Libc.multiplier * lcgSeed + Libc.increment) % 4294967296 % 2 ^ 31 :=
    rfl
  rw [hwrap, Nat.mod_mod_of_dvd _ (by decide), ZMod.natCast_mod, Nat.cast_add, Nat.cast_mul, affine,
    Int.cast_natCast, Int.cast_natCast]

theorem iterate_rand_cast (k : Nat) : ((Libc.rand^[k] lcgSeed : Nat) : ZMod (2 ^ 31)) =
    (affine ((Libc.multiplier : ℤ) : ZMod (2 ^ 31)) ((Libc.increment : ℤ) : ZMod (2 ^ 31)))^[k] lcgSeed := by
  have hcomm : Semiconj (Nat.cast : Nat → ZMod (2 ^ 31)) Libc.rand
      (affine ((Libc.multiplier : ℤ) : ZMod (2 ^ 31)) ((Libc.increment : ℤ) : ZMod (2 ^ 31))) := rand_cast
  exact (hcomm.iterate_right k).eq lcgSeed

theorem exists_rand {v : Nat} (hv : v < 2 ^ 31) : ∃ k, Libc.rand^[k + 1] lcgSeed = v := by
  have ha : (4 : ℤ) ∣ (Libc.multiplier : ℤ) - 1 := by decide
  have hc : Odd (Libc.increment : ℤ) := by decide
  obtain ⟨k, hk⟩ := affine_reaches ha hc 30 (Libc.rand lcgSeed : ZMod (2 ^ 31)) (v : ZMod (2 ^ 31))
  refine ⟨k, ?_⟩
  rw [iterate_succ_apply]
  have hlt : Libc.rand^[k] (Libc.rand lcgSeed) < 2 ^ 31 := by
    rw [← iterate_succ_apply, iterate_succ_apply']
    exact rand_lt _
  have hcast : ((Libc.rand^[k] (Libc.rand lcgSeed) : Nat) : ZMod (2 ^ 31)) = (v : ZMod (2 ^ 31)) := by
    rw [iterate_rand_cast]
    exact hk
  rw [ZMod.natCast_eq_natCast_iff'] at hcast
  rwa [Nat.mod_eq_of_lt hlt, Nat.mod_eq_of_lt hv] at hcast

theorem randRange_draw : (Libc.randRange 0 4 lcgSeed).1 = Libc.rand lcgSeed % 5 := by
  have hlt := rand_lt lcgSeed
  change uint32 (0 + Libc.rand lcgSeed % 5 : Nat) = _
  rw [uint32_natCast (by omega), Nat.zero_add]

theorem exists_random {d : Direction} (hd : d ≠ .none) :
    ∃ k, random (Libc.randRange 0 4 (Libc.rand^[k] lcgSeed)).1 = d := by
  obtain ⟨v, hv, hrandom⟩ : ∃ v < 4, random v = d := by
    cases d with
    | up => exact ⟨0, by decide, rfl⟩
    | down => exact ⟨1, by decide, rfl⟩
    | left => exact ⟨2, by decide, rfl⟩
    | right => exact ⟨3, by decide, rfl⟩
    | none => exact absurd rfl hd
  obtain ⟨k, hk⟩ := exists_rand lcgSeed (show v < 2 ^ 31 by omega)
  refine ⟨k, ?_⟩
  rw [iterate_succ_apply'] at hk
  rw [randRange_draw, hk, Nat.mod_eq_of_lt (by omega), hrandom]

theorem mem_randDraws (k : Nat) :
    (Libc.randRange 0 4 (Libc.rand^[k] lcgSeed)).1 ∈ randDraws lcgSeed (k + 1) := by
  induction k generalizing lcgSeed with
  | zero => exact List.mem_cons_self
  | succ k ih =>
    rw [iterate_succ_apply]
    exact List.mem_cons_of_mem _ (ih (Libc.rand lcgSeed))

end Generator

theorem retry_of_mem {g : GameState} {i : Fin numGhosts} {e : Nat} {draws : List Nat}
    (hin : Interior (g.ghosts i).position)
    (hn : CanStep g i (getNextPoint (g.ghosts i).position (random e))) (he : e ∈ draws) (d : Direction) :
    ∃ n rest, retry g (g.ghosts i).position (getNextPoint (g.ghosts i).position d) draws = .ok (n, rest) := by
  induction draws generalizing d with
  | nil => cases he
  | cons e' draws ih =>
    have hbounds : InBounds (getNextPoint (g.ghosts i).position d) := by
      rw [getNextPoint_eq]
      exact hin.next_inBounds _
    rw [retry, isTaken_of hbounds, ok_bind]
    split
    · rcases List.mem_cons.mp he with rfl | he
      · exact ⟨_, _, retry_free hn draws⟩
      · exact ih he (random e')
    · exact ⟨_, _, rfl⟩

/-- From every seed each direction comes up again; so in every round the retry loop
of a ghost that has a way out ends, whatever the seed is then. -/
theorem random_directions_recur :
    (∀ lcgSeed d, d ≠ .none → ∃ k, random (Libc.randRange 0 4 (Libc.rand^[k] lcgSeed)).1 = d) ∧
    ∀ level lives score frames g, level < numLevels → Played level lives score frames g →
      ∀ input draws i now, GhostTurn (processInput g input) draws i now → HasExit now i →
        ∀ lcgSeed d, ∃ k n rest, retry now (now.ghosts i).position
          (getNextPoint (now.ghosts i).position d) (randDraws lcgSeed k) = .ok (n, rest) := by
  refine ⟨fun lcgSeed d hd => exists_random lcgSeed hd, ?_⟩
  intro level lives score frames g hl hg input draws i now ht hexit lcgSeed d
  have hb := ((hg.board hl).congr (processInput_same g input)).turn hl ht
  have hin := hb.interior hl i
  obtain ⟨n, hn⟩ := (hasExit_iff hin).mp hexit
  obtain ⟨e, he⟩ := hn.near
  have hne : e ≠ .none := by
    rintro rfl
    exact hn.free i he.symm
  obtain ⟨k, hk⟩ := exists_random lcgSeed hne
  rw [he, ← hk] at hn
  obtain ⟨n, rest, hretry⟩ := retry_of_mem hin hn (mem_randDraws lcgSeed k) d
  exact ⟨k + 1, n, rest, hretry⟩

/-- The first ghost of the first frame, with the seed 0. -/
theorem random_directions_recur_first_turn :
    ∃ g now, Played 0 3 0 [] g ∧ GhostTurn (processInput g ' ') [] 0 now ∧ HasExit now 0 ∧
      ∃ k n rest, retry now (now.ghosts 0).position (getNextPoint (now.ghosts 0).position .none)
        (randDraws 0 k) = .ok (n, rest) := by
  have hrun : checkRun (fun _ _ => True)
      (fun g => checkTurn 0 (fun now => HasExit now 0) (List.finRange numGhosts)
        (pacmanMoved (processInput g ' ')) [] = true) [] (initialState 0 3 0) = true := by
    decide +kernel
  obtain ⟨g, hg, hcheck⟩ := Played.of_check (by decide) hrun
  have hb := (hg.board (by decide)).congr (processInput_same g ' ')
  obtain ⟨now, ht, hexit⟩ := checkTurn_sound hcheck
  have hturn : GhostTurn (processInput g ' ') [] 0 now :=
    ⟨_, updatePacmanPosition_eq hb.pacman.1 (hb.target_inBounds (by decide)), ht⟩
  exact ⟨g, now, hg, hturn, hexit,
    random_directions_recur.2 0 3 0 [] g (by decide) hg ' ' [] 0 now hturn hexit 0 .none⟩

end Zeos.Game
