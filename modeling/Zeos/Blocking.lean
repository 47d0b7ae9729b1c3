import Zeos.Processes

/-!
# Who runs after `sys_block`

The call leaves the switch to the scheduler of the clock tick. That one looks at
the quantum before it looks at the state, so that a process that blocks with its
quantum used up and nobody ready stays on the CPU.
-/

namespace Zeos

open LinkedRings Loops
set_option autoImplicit false

section Block
variable {s s' : Sched} {ls : Queue → List Slot}

end Block

/-- Every block with nothing pending gives way; the other steps are free. -/
def blocksGiveWay (k : Kernel) (op : Op) (_ : Int) : Prop :=
  op = .tick ∨ UserRuns k ∧ (op = .block → k.sched.pcb.pendingUnblocks = 0 → GivesWay k.sched)

namespace RunInv
variable {useCow : Bool} {s s' : Sched} {ls : Queue → List Slot} {k k' : Kernel} {r : Int}

theorem tick (h : RunInv s ls) (hok : clkRoutine s = .ok s') : ∃ ls', RunInv s' ls' := by
  obtain ⟨s₁, ls', hok', hinv, _, hrun⟩ := clkRoutine_spec h.queues
  cases hok.symm.trans hok'
  exact ⟨ls', hinv, hrun h.current_run⟩

theorem block (h : RunInv s ls) (hu : s.current ≠ s.idleTask)
    (hg : s.pcb.pendingUnblocks = 0 → GivesWay s) (hok : sysBlock s = .ok s') :
    ∃ ls', RunInv s' ls' := by
  rcases sysBlock_spec h.queues hu h.awake with ⟨_, hok'⟩ | ⟨hp, q, s₁, ls', hok', hinv, hinv', _, hrun⟩
  · cases hok.symm.trans hok'
    exact ⟨ls, h.setPending h.awake _⟩
  · cases hok.symm.trans hok'
    exact ⟨ls', hinv', hrun ((needsSched_enqueued_iff h.queues hinv.rings).mpr (hg hp))⟩

theorem unblock (h : RunInv s ls) {son : Slot} (hok : unblockSon s son = .ok s') :
    ∃ ls', RunInv s' ls' := by
  rcases unblockSon_spec h.queues h.awake with ⟨hb, hok'⟩ | ⟨hb, q, hok', hinv⟩
  · cases hok.symm.trans hok'
    exact ⟨ls, h.setPending hb _⟩
  · cases hok.symm.trans hok'
    exact ⟨_, h.woken hb hinv⟩

theorem fork (h : RunInv k.sched ls) (hok : sysFork useCow k = .ok (r, k')) :
    ∃ ls', RunInv k'.sched ls' := by
  rcases sysFork_cases h.queues h.awake hok with ⟨_, _, rfl⟩ |
    ⟨child, rest, q, m, hf, hcur, hidle, hout, hinv, ⟨_, _, rfl⟩ | ⟨_, s, hl, rfl⟩⟩
  · exact ⟨ls, h⟩
  · exact ⟨_, h.forked hcur hinv⟩
  · obtain ⟨_, hinv', q', f, rfl⟩ := forkLink_queueInv hinv hout hcur hidle hl
    exact ⟨_, h.linked hcur hinv'⟩

theorem exit (h : RunInv k.sched ls) (hu : UserRuns k) (hok : sysExit k = .ok k') :
    ∃ ls', RunInv k'.sched ls' := by
  obtain ⟨s₁, m, q, s₂, ls', _, _, _, hinv, _, hrun, rfl⟩ :=
    sysExit_cases h.queues ⟨hu, h.awake⟩ hok
  exact ⟨ls', hinv, hrun⟩

end RunInv

section MemoryCalls
variable {useCow : Bool} {k k' : Kernel} {r : Int}

theorem sysShmat_sched {id : Int} {addr : Nat} (h : sysShmat k id addr = .ok (r, k')) :
    k'.sched = k.sched := by
  rcases sysShmat_eq_ok h with ⟨_, rfl⟩ | ⟨_, _, _, _, _, _, _, _, _, rfl⟩
  · rfl
  · rfl

theorem sysShmdt_sched {addr : Nat} (h : sysShmdt k addr = .ok (r, k')) : k'.sched = k.sched := by
  rcases sysShmdt_eq_ok h with ⟨_, rfl⟩ | ⟨_, _, _, _, _, _, _, _, _, _, _, rfl⟩
  · rfl
  · rfl

end MemoryCalls

def ticked (s : Sched) : Sched := (clkRoutine s).toOption.getD s

end Zeos
