import Zeos.Blocking

/-!
# Who can get the CPU

The idle process, the current one and those in the ready queue and in `blocked`. A
step makes nobody a candidate but the child of a fork, and a process that exits is
none afterwards.
-/

namespace Zeos

open LinkedRings Loops
set_option autoImplicit false

def Candidate (s : Sched) (ls : Queue → List Slot) (t : Slot) : Prop :=
  t = s.idleTask ∨ Runnable s ls t

section Candidates
variable {s s' : Sched} {ls ls' : Queue → List Slot} {t : Slot}

theorem Moves.candidate (h : Moves s s' ls ls') (ht : Candidate s' ls' t) : Candidate s ls t := by
  cases ht with
  | inl hi => exact .inl (hi.trans h.idleTask)
  | inr hr => exact .inr (h.runnable t hr)

theorem Candidate.of_eq (hc : s'.current = s.current) (hi : s'.idleTask = s.idleTask)
    (ht : Candidate s' ls t) : Candidate s ls t := by
  unfold Candidate Runnable at ht ⊢
  rwa [hc, hi] at ht

theorem current_candidate (s : Sched) (ls : Queue → List Slot) : Candidate s ls s.current := by
  by_cases hi : s.current = s.idleTask
  · exact .inl hi
  · exact .inr ⟨hi, .inl rfl⟩

theorem QueueInv.candidate_not_free (h : QueueInv s ls) (ht : Candidate s ls t) :
    t ∉ ls .freequeue := by
  intro hf
  rcases ht with rfl | ⟨_, rfl | hr | hb⟩
  · exact h.idle_out _ hf
  · exact h.current_out _ (by decide) hf
  · cases h.rings.unique hf hr
  · cases h.rings.unique hf hb

end Candidates

/-- What a step of another kind than a fork does to candidates and free PCBs. -/
structure Handover (s : Sched) (ls : Queue → List Slot) (exits : Prop) (s' : Sched)
    (ls' : Queue → List Slot) : Prop where
  run : RunInv s' ls'
  candidate : ∀ t, Candidate s' ls' t → Candidate s ls t ∧ (exits → t ≠ s.current)
  free : ∀ t, t ∈ ls' .freequeue → t ∈ ls .freequeue ∨ (exits ∧ t = s.current)

namespace Handover
variable {s s' : Sched} {ls ls' : Queue → List Slot}

theorem of_moves (h : Moves s s' ls ls') (hr : RunInv s' ls') : Handover s ls False s' ls' where
  run := hr
  candidate _ ht := ⟨h.candidate ht, False.elim⟩
  free _ ht := .inl (h.free ▸ ht)

theorem of_eq (hc : s'.current = s.current) (hi : s'.idleTask = s.idleTask) (hr : RunInv s' ls) :
    Handover s ls False s' ls where
  run := hr
  candidate _ ht := ⟨ht.of_eq hc hi, False.elim⟩
  free _ ht := .inl ht

theorem tick (h : RunInv s ls) (hok : clkRoutine s = .ok s') : ∃ ls', Handover s ls False s' ls' := by
  obtain ⟨s₁, ls', hok', hinv, hm, hrun⟩ := clkRoutine_spec h.queues
  cases hok.symm.trans hok'
  exact ⟨ls', of_moves hm ⟨hinv, hrun h.current_run⟩⟩

theorem block (h : RunInv s ls) (hu : s.current ≠ s.idleTask)
    (hg : s.pcb.pendingUnblocks = 0 → GivesWay s) (hok : sysBlock s = .ok s') :
    ∃ ls', Handover s ls False s' ls' := by
  have hs := h.awake
  rcases sysBlock_spec h.queues hu hs with ⟨_, hok'⟩ | ⟨hp, q, s₁, ls', hok', hinv, hinv', hm, hrun⟩
  · cases hok.symm.trans hok'
    exact ⟨ls, of_eq rfl rfl (h.setPending hs _)⟩
  · cases hok.symm.trans hok'
    have hneeds := (needsSched_enqueued_iff h.queues hinv.rings).mpr (hg hp)
    refine ⟨ls', ⟨⟨hinv', hrun hneeds⟩, ?_, ?_⟩⟩
    · intro t ht
      refine ⟨?_, False.elim⟩
      -- the process that blocks was current
      rcases hm.candidate ht with hi | ⟨hi, hc | hr | hb⟩
      · exact .inl hi
      · exact .inr ⟨hi, .inl hc⟩
      · exact .inr ⟨hi, .inr (.inl (by simpa using hr))⟩
      · rcases (mem_addTail ls .blocked s.current).mp hb with hb | ⟨_, hc⟩
        · exact .inr ⟨hi, .inr (.inr hb)⟩
        · exact .inr ⟨hi, .inl hc⟩
    · intro t ht
      rw [hm.free] at ht
      exact .inl (by simpa using ht)

theorem unblock (h : RunInv s ls) {son : Slot} (hok : unblockSon s son = .ok s') :
    ∃ ls', Handover s ls False s' ls' := by
  rcases unblockSon_spec h.queues h.awake with ⟨hb, hok'⟩ | ⟨hb, q, hok', hinv⟩
  · cases hok.symm.trans hok'
    exact ⟨ls, of_eq rfl rfl (h.setPending hb _)⟩
  · cases hok.symm.trans hok'
    have hson := (h.queues.blocked_iff son).mpr hb
    have hin : ∀ {q t}, _ := fun {q t} => mem_wokenLists (q := q) (t := t) h.queues.rings hson
    refine ⟨_, ⟨h.woken hb hinv, ?_, ?_⟩⟩
    · intro t ht
      refine ⟨?_, False.elim⟩
      rcases ht with hi | ⟨hi, hc | hr | hbl⟩
      · exact .inl hi
      · exact .inr ⟨hi, .inl hc⟩
      · rcases hin.mp hr with hr | ⟨_, rfl⟩
        · exact .inr ⟨hi, .inr (.inl hr.1)⟩
        · exact .inr ⟨hi, .inr (.inr hson)⟩
      · rcases hin.mp hbl with hbl | ⟨he, _⟩
        · exact .inr ⟨hi, .inr (.inr hbl.1)⟩
        · cases he
    · intro t ht
      rcases hin.mp ht with ht | ⟨he, _⟩
      · exact .inl ht.1
      · cases he

theorem exit {k k' : Kernel} (h : RunInv k.sched ls) (hu : UserRuns k) (hok : sysExit k = .ok k') :
    ∃ ls', Handover k.sched ls True k'.sched ls' := by
  obtain ⟨s₁, m, q, s₂, ls', _, hf, _, hinv, hm, hrun, rfl⟩ :=
    sysExit_cases h.queues ⟨hu, h.awake⟩ hok
  have hcur : (retired s₁ q).current = k.sched.current := hf.current
  have hidle : (retired s₁ q).idleTask = k.sched.idleTask := hf.idleTask
  have hfree : ls' .freequeue = ls .freequeue ++ [k.sched.current] := by
    rw [hm.free, retiredLists, Function.update_self]
  refine ⟨ls', ⟨⟨hinv, hrun⟩, ?_, ?_⟩⟩
  · intro t ht
    constructor
    · have hc := (hm.candidate ht).of_eq hcur hidle
      simpa [Candidate, Runnable, retiredLists] using hc
    · rintro _ rfl
      exact hinv.candidate_not_free ht (hfree ▸ List.mem_append_right _ List.mem_cons_self)
  · intro t ht
    rw [hfree, List.mem_append, List.mem_singleton] at ht
    exact ht.imp id fun he => ⟨trivial, he⟩

end Handover

theorem exec_handover {useCow : Bool} {k k' : Kernel} {op : Op} {r : Int} {ls : Queue → List Slot}
    (h : RunInv k.sched ls) (ha : blocksGiveWay k op r) (hf : op ≠ .fork)
    (hok : exec useCow op k = .ok (r, k')) :
    ∃ ls', Handover k.sched ls (op = .exit) k'.sched ls' := by
  have hsame : k'.sched = k.sched → op ≠ .exit → ∃ ls', Handover k.sched ls (op = .exit) k'.sched ls' := by
    intro he hne
    rw [he, eq_false hne]
    exact ⟨ls, .of_eq rfl rfl h⟩
  have htick : op = .tick → ∃ ls', Handover k.sched ls (op = .exit) k'.sched ls' := by
    rintro rfl
    obtain ⟨s, hs, _, rfl⟩ := schedOnly_eq_ok hok
    simpa using Handover.tick h hs
  rcases ha with rfl | ⟨hu, hblock⟩
  · exact htick rfl
  · cases op with
    | tick => exact htick rfl
    | fork => exact absurd rfl hf
    | exit => simpa using Handover.exit h hu (exec_exit_eq_ok hok).2
    | block =>
      obtain ⟨s, hs, _, rfl⟩ := schedOnly_eq_ok hok
      simpa using Handover.block h hu (hblock rfl) hs
    | unblock pid =>
      obtain ⟨s, hs, rfl⟩ := exec_unblock_eq_ok hok
      rcases sysUnblock_eq_ok hs with ⟨_, rfl⟩ | ⟨_, son, hson, _⟩
      · exact hsame rfl (by simp)
      · simpa using Handover.unblock h hson
    | shmat id addr => exact hsame (sysShmat_sched hok) (by simp)
    | shmdt addr => exact hsame (sysShmdt_sched hok) (by simp)
    | shmrm id =>
      rcases exec_shmrm_eq_ok hok with rfl | ⟨_, rfl⟩
      · exact hsame rfl (by simp)
      · exact hsame rfl (by simp)
    | load addr =>
      obtain ⟨pt, may, m, _, _, rfl⟩ := exec_load_eq_ok hok
      exact hsame rfl (by simp)
    | store addr v =>
      obtain ⟨pt, may, m₁, m, _, _, rfl, _⟩ := exec_store_eq_ok hok
      exact hsame rfl (by simp)
    | fault addr =>
      obtain ⟨pt, m, _, _, rfl⟩ := exec_fault_eq_ok hok
      exact hsame rfl (by simp)
    | read b maxchars c kern =>
      obtain ⟨m, rfl, _⟩ := exec_read_sameTables hok
      exact hsame rfl (by simp)

/-- What a fork does: `child` is the PCB that it takes, if there is one, and only a
fork that gets memory for it makes it a candidate. -/
structure ForkHandover (useCow : Bool) (k : Kernel) (ls : Queue → List Slot) (k' : Kernel)
    (ls' : Queue → List Slot) : Prop where
  run : RunInv k'.sched ls'
  current : k'.sched.current = k.sched.current
  candidate : ∀ t, Candidate k'.sched ls' t → Candidate k.sched ls t ∨
    listEmpty k.sched.queues (.head .freequeue) = false ∧ ∃ s m, forkTake k.sched = .ok (t, s) ∧
      forkMemory useCow k.mm k.sched.current t = .ok (m, true)
  free : ∀ t, t ∈ ls' .freequeue → t ∈ ls .freequeue
  child : listEmpty k.sched.queues (.head .freequeue) = false →
    ∀ t s, forkTake k.sched = .ok (t, s) → t ∈ ls .freequeue ∧ t ∉ ls' .freequeue

theorem fork_handover {useCow : Bool} {k k' : Kernel} {r : Int} {ls : Queue → List Slot}
    (h : RunInv k.sched ls) (hok : sysFork useCow k = .ok (r, k')) :
    ∃ ls', ForkHandover useCow k ls k' ls' := by
  have hs := h.awake
  rcases sysFork_cases h.queues hs hok with ⟨hf, _, rfl⟩ |
    ⟨child, rest, q, m, hf, hcur, hidle, hout, hinv, hcase⟩
  · have hempty := (h.queues.rings.empty_iff .freequeue).mpr hf
    refine ⟨ls, h, rfl, fun t ht => .inl ht, fun t ht => ht, ?_⟩
    intro he
    rw [hempty] at he
    cases he
  · obtain ⟨q', htake, _⟩ := forkTake_spec h.queues hs hf
    have hchild : child ∈ ls .freequeue := by
      rw [hf]
      exact List.mem_cons_self
    have hne : listEmpty k.sched.queues (.head .freequeue) = false := by
      rw [Bool.eq_false_iff]
      intro he
      rw [(h.queues.rings.empty_iff .freequeue).mp he] at hchild
      cases hchild
    have htaken : ∀ t s, forkTake k.sched = .ok (t, s) → t = child := by
      intro t s ht
      cases htake.symm.trans ht
      rfl
    rcases hcase with ⟨_, _, rfl⟩ | ⟨hm, s, hl, rfl⟩
    · -- the PCB is in no queue any more
      refine ⟨_, h.forked hcur hinv, rfl, ?_, ?_, ?_⟩
      · intro t ht
        refine .inl ?_
        simpa [Candidate, Runnable] using ht
      · intro t ht
        exact ((mem_takeFree h.queues.rings hf).mp ht).1
      · intro _ t s ht
        rw [htaken t s ht]
        exact ⟨hchild, hout _⟩
    · obtain ⟨_, hinv', q'', f, rfl⟩ := forkLink_queueInv hinv hout hcur hidle hl
      have hin : ∀ {q t}, _ := fun {q t} => mem_forkedLists (q := q) (t := t) h.queues.rings hf
      refine ⟨_, h.linked hcur hinv', rfl, ?_, ?_, ?_⟩
      · rintro t (hi | ⟨hi, hc | hr | hb⟩)
        · exact .inl (.inl hi)
        · exact .inl (.inr ⟨hi, .inl hc⟩)
        · rcases hin.mp hr with hr | ⟨_, rfl⟩
          · exact .inl (.inr ⟨hi, .inr (.inl hr.1)⟩)
          · exact .inr ⟨hne, _, m, htake, hm⟩
        · rcases hin.mp hb with hb | ⟨he, _⟩
          · exact .inl (.inr ⟨hi, .inr (.inr hb.1)⟩)
          · cases he
      · intro t ht
        exact ((mem_forked_free h.queues.rings hf).mp ht).1
      · intro _ t s ht
        rw [htaken t s ht]
        exact ⟨hchild, fun hm => ((mem_forked_free h.queues.rings hf).mp hm).2 rfl⟩

end Zeos
