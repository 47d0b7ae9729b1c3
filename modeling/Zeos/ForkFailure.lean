import Zeos.SharedPages

/-!
# Forks that fail

A fork without a free PCB returns before it has done anything. One that runs out
of logical pages of the parent returns from the middle of its loop: the PCB it took
is lost, and so are the frames and the temporary pages of the rounds before. A
`next_pid` that has overflowed makes a fork that succeeds look like one that failed.
-/

namespace Zeos

open LinkedRings Loops Runs
set_option autoImplicit false

/-- What a failed fork should leave as it was. -/
structure ForkUndone (k k' : Kernel) : Prop where
  queues : ∃ ls ls', Queues k.sched.queues ls ∧ Queues k'.sched.queues ls' ∧
    ls' .freequeue = ls .freequeue ∧ ls' .readyqueue = ls .readyqueue
  physMem : k'.mm.physMem = k.mm.physMem
  table : k'.mm.pagusrTable k.sched.current = k.mm.pagusrTable k.sched.current
  sharedPages : k'.mm.sharedPages = k.mm.sharedPages
  nextPid : k'.sched.nextPid = k.sched.nextPid

section Outcomes
variable {k k' : Kernel} {ls ls' : Queue → List Slot} {r : Int}

theorem ForkUndone.refl (hr : Queues k.sched.queues ls) : ForkUndone k k :=
  ⟨⟨ls, ls, hr, hr, rfl, rfl⟩, rfl, rfl, rfl, rfl⟩

/-- The PCB that a fork has taken is missing in `freequeue`. -/
theorem not_undone_of_taken {child : Slot} {rest : List Slot} (hr : Queues k.sched.queues ls)
    (hr' : Queues k'.sched.queues ls') (hf : ls .freequeue = child :: rest)
    (hf' : ls' .freequeue = rest) : ¬ ForkUndone k k' := by
  rintro ⟨⟨ls₁, ls₂, h₁, h₂, hfree, _⟩, _⟩
  rw [Rings.unique h₁ hr trivial, Rings.unique h₂ hr' trivial, hf, hf'] at hfree
  exact absurd (congrArg List.length hfree) (by simp)

theorem KernelInv.ForkOutcome.undone_iff (h : KernelInv false k ls)
    (hout : KernelInv.ForkOutcome false k ls r k') :
    (r < 0 → ForkUndone k k') ↔ (listEmpty k.sched.queues (.head .freequeue) = true ∨
      (numPagData ≤ (freeRegion k.mm k.sched.current).card ∧ 0 ≤ k.sched.nextPid)) := by
  cases hout with
  | noPcb hf =>
    have hempty := (h.queues.rings.empty_iff .freequeue).mpr hf
    exact ⟨fun _ => .inl hempty, fun _ _ => .refl h.queues.rings⟩
  | noPages hc hf hcard hl hinv =>
    constructor
    · intro hundone
      have hnot := not_undone_of_taken h.queues.rings hinv.queues.rings hf (by simp)
      exact absurd (hundone (by decide)) hnot
    · rintro (hempty | ⟨hle, _⟩)
      · rw [(h.queues.rings.empty_iff .freequeue).mp hempty] at hf
        cases hf
      · omega
  | created hf hcur hidle hcard hin hlink hinv =>
    constructor
    · intro hundone
      refine .inr ⟨hcard rfl, ?_⟩
      by_contra hneg
      have hnot := not_undone_of_taken h.queues.rings hinv.queues.rings hf (by simp [forkedLists])
      exact hnot (hundone (by omega))
    · rintro (hempty | ⟨_, hpid⟩) hneg
      · rw [(h.queues.rings.empty_iff .freequeue).mp hempty] at hf
        cases hf
      · omega

end Outcomes

/-- A fork that returns a negative value leaves everything as it was exactly when it
found no free PCB, or could not return a negative value at all: the parent has a free
logical page for each data page, and `next_pid` has not overflowed. -/
theorem fork_undone_iff {k k' : Kernel} {r : Int} (h : Reachable false admitted k) (ha : Awake k)
    (hok : exec false .fork k = .ok (r, k')) :
    (r < 0 → ForkUndone k k') ↔ (listEmpty k.sched.queues (.head .freequeue) = true ∨
      (numPagData ≤ (freeRegion k.mm k.sched.current).card ∧ 0 ≤ k.sched.nextPid)) := by
  obtain ⟨ls, hk⟩ := h.kernelInv
  exact (hk.fork ha hok).undone_iff hk

/-- The first fork of all. -/
theorem fork_undone_iff_boot : ∃ k k', Reachable false admitted k ∧
    exec false .fork k = .ok (2, k') ∧ ((2 : Int) < 0 → ForkUndone k k') := by
  have hboot := bootMm_spec fun _ _ => 0
  have hreach : Reachable false admitted ⟨bootState, bootMm fun _ _ => 0⟩ :=
    Reachable.boot (boot_eq fun _ _ => 0)
  obtain ⟨m', hok, _⟩ := boot_fork false fun _ _ => 0
  have hcard := hboot.freeRegion_card bootState.current
  refine ⟨_, _, hreach, hok, (fork_undone_iff hreach (boot_awake _) hok).mpr (.inr ⟨?_, by decide⟩)⟩
  dsimp only
  rw [hcard]
  decide

/-- The trace of process 1 calling `shmat(0, NULL)` for `n` times. -/
def shmatTrace : Nat → List Event
  | 0 => []
  | n + 1 => ⟨1, .shmat 0 0, ((userLastPage + n : Nat) : Int) * pageSize⟩ :: shmatTrace n

/-- The first `n` pages of the region of process 1 are in use. -/
structure FirstPagesUsed (m : Mm) (n : Nat) : Prop where
  inv : KernelInv false ⟨bootState, m⟩ bootLists
  used : ∀ p, SharedRegion p → (m.pagusrTable 8 p = .zero ↔ userLastPage + n ≤ p)

theorem FirstPagesUsed.freeRegion_card {m : Mm} {n : Nat} (h : FirstPagesUsed m n) :
    (freeRegion m 8).card = totalPages - (userLastPage + n) := by
  have hall : freeRegion m 8 = Finset.Ico (userLastPage + n) totalPages := by
    ext p
    rw [mem_freeRegion, Finset.mem_Ico]
    constructor
    · intro hp
      exact ⟨(h.used p hp.1).mp hp.2, hp.1.2⟩
    · intro hp
      have hreg : SharedRegion p := ⟨by omega, hp.2⟩
      exact ⟨hreg, (h.used p hreg).mpr hp.1⟩
  rw [hall, Nat.card_Ico]

theorem FirstPagesUsed.attach {m : Mm} {n : Nat} (h : FirstPagesUsed m n)
    (hn : userLastPage + n < totalPages) :
    exec false (.shmat 0 0) ⟨bootState, m⟩ = .ok (((userLastPage + n : Nat) : Int) * pageSize,
      ⟨bootState, KernelInv.attached m 8 (userLastPage + n) 0⟩) ∧
    FirstPagesUsed (KernelInv.attached m 8 (userLastPage + n) 0) (n + 1) := by
  have hreg : SharedRegion (userLastPage + n) := ⟨by omega, hn⟩
  have hz := (h.used _ hreg).mpr (le_refl _)
  have hget : getUserFreePage m 8 = ((userLastPage + n : Nat) : Int) := by
    apply getUserFreePage_first hreg hz
    intro q hq hlt hqz
    have := (h.used q ⟨hq, by omega⟩).mp hqz
    omega
  refine ⟨shmat_null h.inv 0 (by decide) hget hn, ?_, ?_⟩
  · exact h.inv.attached_inv (mem_freeRegion.mpr ⟨hreg, hz⟩)
  · intro p hp
    rw [KernelInv.attached_table]
    by_cases hc : p = userLastPage + n
    · rw [if_pos ⟨rfl, hc⟩]
      constructor
      · exact fun he => absurd he (ne_zero_of_present rfl)
      · omega
    · rw [if_neg (fun h => hc h.2), h.used p hp]
      omega

theorem BootedMm.firstPagesUsed {image : Nat → Fin pageSize → UInt8} {m : Mm} (h : BootedMm image m) :
    FirstPagesUsed m 0 :=
  ⟨.booted h false, fun p hp => ⟨fun _ => hp.1, fun _ => h.region 8 p hp⟩⟩

theorem run_shmatTrace (image : Nat → Fin pageSize → UInt8) (n : Nat)
    (hn : userLastPage + n ≤ totalPages) :
    ∃ m, RunFrom false admitted image (shmatTrace n) ⟨bootState, m⟩ ∧ FirstPagesUsed m n := by
  induction n with
  | zero => exact ⟨_, ⟨_, boot_eq image, .nil⟩, (bootMm_spec image).firstPagesUsed⟩
  | succ n ih =>
    obtain ⟨m, ⟨k₀, hk₀, hrun⟩, hused⟩ := ih (by omega)
    obtain ⟨hok, hused'⟩ := hused.attach (by omega)
    have hpid : (1 : Int) = bootState.pcb.pid := by decide +kernel
    have haddr : 0 < totalPages * pageSize := by decide
    exact ⟨_, ⟨k₀, hk₀, hrun.snoc ⟨hpid, .inr ⟨boot_awake _, haddr⟩, hok⟩⟩, hused'⟩

/-- Process 1 attaches shared page 0 until 19 pages of its region are left, and forks:
the call returns `-ENOMEM` and has lost a PCB. -/
theorem fork_loses_pcb : ∃ k k', RunFrom false admitted (fun _ _ => 0) (shmatTrace 721) k ∧ Awake k ∧
    exec false .fork k = .ok (-enomem, k') ∧ ¬ ForkUndone k k' := by
  obtain ⟨m, hrun, hused⟩ := run_shmatTrace (fun _ _ => 0) 721 (by decide)
  obtain ⟨q, hcur, hidle, hout, hinv, heq⟩ :=
    sysFork_taken hused.inv.queues (boot_awake m).2 (show bootLists .freequeue = _ :: _ from rfl)
  rcases hused.inv.forkMemory_cases (boot_awake m).1 rfl hcur with ⟨_, _, _, hcard⟩ | ⟨_, _, m', hm, hl⟩
  · have := hcard rfl
    dsimp only at this
    rw [bootState_current, hused.freeRegion_card] at this
    exact absurd this (by decide)
  · have hok : exec false .fork ⟨bootState, m⟩ = .ok (-enomem, ⟨forked bootState 7 q, m'⟩) := by
      change sysFork false ⟨bootState, m⟩ = _
      rw [heq]
      change forkMemory false m bootState.current 7 = .ok (m', false) at hm
      rw [hm]
      rfl
    exact ⟨_, _, hrun, boot_awake m, hok, not_undone_of_taken hused.inv.queues.rings hinv.rings rfl (by simp)⟩

end Zeos
