import Zeos.Steps

/-!
# Processes and their PIDs

While `next_pid` does not overflow, every PCB is idle, current or in exactly one
queue, and the PIDs of live processes are distinct. `ProcessTable` puts this
together with the invariant of the queues.
-/

namespace Zeos

open LinkedRings Loops
set_option autoImplicit false

/-- PIDs and places. A PCB is live when it is neither free nor idle. -/
structure PidInv (s : Sched) (ls : Queue → List Slot) : Prop where
  next_lower : 2 ≤ s.nextPid
  next_upper : s.nextPid ≤ 2147483647
  free_pid : ∀ t ∈ ls .freequeue, (s.task t).pid = -1
  live_pid : ∀ t, t ≠ s.idleTask → t ∉ ls .freequeue →
    1 ≤ (s.task t).pid ∧ (s.task t).pid < s.nextPid
  unique : ∀ t u, t ≠ s.idleTask → t ∉ ls .freequeue → u ≠ s.idleTask → u ∉ ls .freequeue →
    (s.task t).pid = (s.task u).pid → t = u
  placed : ∀ t, t ≠ s.idleTask → t ∉ ls .freequeue → t = s.current ∨ ∃ q, t ∈ ls q

section Steps
variable {s s' : Sched} {ls ls' : Queue → List Slot}

theorem PidInv.congr (h : PidInv s ls) (hi : s'.idleTask = s.idleTask)
    (hn : s'.nextPid = s.nextPid) (hp : ∀ t, (s'.task t).pid = (s.task t).pid)
    (hf : ls' .freequeue = ls .freequeue)
    (hplaced : ∀ t, 0 < (s.task t).pid → (t = s.current ∨ ∃ q, t ∈ ls q) →
      (t = s'.current ∨ ∃ q, t ∈ ls' q)) : PidInv s' ls' := by
  refine ⟨by rw [hn]; exact h.next_lower, by rw [hn]; exact h.next_upper, ?_, ?_, ?_, ?_⟩
  · rw [hf]
    intro t ht
    rw [hp, h.free_pid t ht]
  · rw [hf, hi, hn]
    intro t hti htf
    rw [hp]
    exact h.live_pid t hti htf
  · rw [hf, hi]
    intro t u hti htf hui huf hpid
    rw [hp, hp] at hpid
    exact h.unique t u hti htf hui huf hpid
  · rw [hf, hi]
    intro t hti htf
    have := (h.live_pid t hti htf).1
    exact hplaced t (by omega) (h.placed t hti htf)

theorem PidInv.moves (h : PidInv s ls) (hm : Moves s s' ls ls') : PidInv s' ls' :=
  h.congr hm.idleTask hm.nextPid (fun t => (hm.task t).pid) hm.free hm.kept

theorem PidInv.setTask (h : PidInv s ls) (t : Slot) {f : TaskStruct → TaskStruct}
    (hf : (f (s.task t)).pid = (s.task t).pid) : PidInv (s.setTask t f) ls := by
  refine h.congr rfl rfl ?_ rfl (fun _ _ hu => hu)
  intro u
  rw [Sched.setTask_task]
  by_cases hu : u = t
  · subst hu
    simp [hf]
  · simp [hu]

theorem PidInv.enqueuedBlocked (h : PidInv s ls) (q : Heap QNode) :
    PidInv (enqueuedBlocked s q) (Function.update ls .blocked (ls .blocked ++ [s.current])) := by
  refine (h.setTask s.current (f := fun p => { p with state := .blocked }) rfl).congr rfl rfl
    (fun _ => rfl) rfl ?_
  rintro t _ (rfl | ⟨q, hq⟩)
  · exact .inl rfl
  · exact .inr ⟨q, (mem_addTail ls _ _).mpr (.inl hq)⟩

theorem PidInv.woken (h : PidInv s ls) (hr : Queues s.queues ls) {son : Slot}
    (hson : son ∈ ls .blocked) (q : Heap QNode) :
    PidInv ({ s with queues := q }.setTask son fun p =>
      { p with state := .ready, pendingUnblocks := 0 }) (wokenLists ls son) := by
  refine (h.setTask son (f := fun p => { p with state := .ready, pendingUnblocks := 0 }) rfl).congr
    rfl rfl (fun _ => rfl) ?_ ?_
  · simp [wokenLists]
  · rintro t _ (rfl | ⟨q, hq⟩)
    · exact .inl rfl
    · by_cases ht : t = son
      · exact .inr ⟨.readyqueue, (mem_wokenLists hr hson).mpr (.inr ⟨rfl, ht⟩)⟩
      · exact .inr ⟨q, (mem_wokenLists hr hson).mpr (.inl ⟨hq, ht⟩)⟩

theorem PidInv.fork (h : PidInv s ls) (hr : Queues s.queues ls) {child : Slot} {rest : List Slot}
    (hf : ls .freequeue = child :: rest) (hmax : s.nextPid < 2147483647) (q q' : Heap QNode) (f : Heap FNode) :
    PidInv (linkedChild (forked s child q) child q' f) (forkedLists ls child rest) := by
  have hfree : ∀ t, t ∉ forkedLists ls child rest .freequeue ↔ t = child ∨ t ∉ ls .freequeue := by
    intro t
    rw [mem_forked_free hr hf]
    tauto
  have hnext : (linkedChild (forked s child q) child q' f).nextPid = s.nextPid + 1 := by
    have := h.next_lower
    change int32 (s.nextPid + 1) = _
    rw [int32_of_range (by omega) (by omega)]
  have hchild : ((linkedChild (forked s child q) child q' f).task child).pid = s.nextPid := by
    simp [linkedChild, childPcb]
  have hother : ∀ t, t ≠ child → ((linkedChild (forked s child q) child q' f).task t).pid =
      (s.task t).pid := by
    intro t ht
    rw [linkedChild_other q' f ht, forked_other q ht]
  have hlive : ∀ t, t ≠ s.idleTask → t ∉ forkedLists ls child rest .freequeue → t ≠ child →
      1 ≤ (s.task t).pid ∧ (s.task t).pid < s.nextPid := by
    intro t hti htf htc
    exact h.live_pid t hti (((hfree t).mp htf).resolve_left htc)
  refine ⟨by rw [hnext]; have := h.next_lower; omega, by rw [hnext]; omega, ?_, ?_, ?_, ?_⟩
  · intro t ht
    have htc : ¬ (t = child ∨ t ∉ ls .freequeue) := fun hn => (hfree t).mpr hn ht
    rw [not_or, not_not] at htc
    rw [hother t htc.1]
    exact h.free_pid t htc.2
  · intro t hti htf
    have := h.next_lower
    by_cases htc : t = child
    · subst htc
      rw [hchild, hnext]
      omega
    · have := hlive t hti htf htc
      rw [hother t htc, hnext]
      omega
  · intro t u hti htf hui huf hpid
    by_cases htc : t = child
    · by_cases huc : u = child
      · rw [htc, huc]
      · have := hlive u hui huf huc
        rw [htc, hchild, hother u huc] at hpid
        omega
    · have htl := hlive t hti htf htc
      by_cases huc : u = child
      · rw [huc, hchild, hother t htc] at hpid
        omega
      · rw [hother t htc, hother u huc] at hpid
        exact h.unique t u hti (((hfree t).mp htf).resolve_left htc) hui
          (((hfree u).mp huf).resolve_left huc) hpid
  · intro t hti htf
    by_cases htc : t = child
    · exact .inr ⟨.readyqueue, by simp [forkedLists, htc]⟩
    · rcases h.placed t hti (((hfree t).mp htf).resolve_left htc) with ht | ⟨p, hp⟩
      · exact .inl ht
      · refine .inr ⟨p, ?_⟩
        have hin := (mem_takeFree hr hf).mpr ⟨hp, htc⟩
        by_cases hpr : p = .readyqueue
        · subst hpr
          rw [Function.update_of_ne (by decide)] at hin
          simp [forkedLists, hin]
        · rw [forkedLists, Function.update_of_ne hpr]
          exact hin

theorem PidInv.retired (h : PidInv s ls) (hf : FamilyOnly (unnamed s) s')
    (q : Heap QNode) : PidInv (retired s' q) (retiredLists s ls) := by
  have hfree : ∀ t, t ∈ retiredLists s ls .freequeue ↔ t ∈ ls .freequeue ∨ t = s.current := by
    intro t
    simp [retiredLists]
  have hcurrent : ((Zeos.retired s' q).task s.current).pid = -1 := by
    rw [retired_pid hf, if_pos rfl]
  have hother : ∀ t, t ≠ s.current → ((Zeos.retired s' q).task t).pid = (s.task t).pid := by
    intro t ht
    rw [retired_pid hf, if_neg ht]
  have hidle : (Zeos.retired s' q).idleTask = s.idleTask := hf.idleTask
  have hnext : (Zeos.retired s' q).nextPid = s.nextPid := hf.nextPid
  refine ⟨by rw [hnext]; exact h.next_lower, by rw [hnext]; exact h.next_upper, ?_, ?_, ?_, ?_⟩
  · intro t ht
    by_cases htc : t = s.current
    · rw [htc, hcurrent]
    · rw [hother t htc]
      exact h.free_pid t (((hfree t).mp ht).resolve_right htc)
  · intro t hti htf
    rw [hfree, not_or] at htf
    rw [hother t htf.2, hnext]
    exact h.live_pid t (hidle ▸ hti) htf.1
  · intro t u hti htf hui huf hpid
    rw [hfree, not_or] at htf huf
    rw [hother t htf.2, hother u huf.2] at hpid
    exact h.unique t u (hidle ▸ hti) htf.1 (hidle ▸ hui) huf.1 hpid
  · intro t hti htf
    rw [hfree, not_or] at htf
    rcases h.placed t (hidle ▸ hti) htf.1 with ht | ⟨p, hp⟩
    · exact absurd ht htf.2
    · exact .inr ⟨p, (mem_addTail ls _ _).mpr (.inl hp)⟩

end Steps

def QuantumExpired (s : Sched) : Prop := uint32 (getQuantum s.pcb) < s.ticksSinceLastSwitch

/-- What the scheduler asks for before it takes the CPU from a process that has
just blocked: somebody is ready, or the process has not used up its quantum and
is not taken for idle. -/
def GivesWay (s : Sched) : Prop :=
  listEmpty s.queues (.head .readyqueue) = false ∨ s.pcb.pid ≠ 0 ∧ ¬ QuantumExpired s

/-- A `sys_block` that leaves its caller running only if an unblock was pending. A
quantum that lasts is enough as long as no process but idle has PID 0. -/
def BlockSwitches (s : Sched) : Prop :=
  0 < s.pcb.pendingUnblocks ∨ GivesWay s ∨ ¬ QuantumExpired s

theorem needsSched_enqueued_iff {s : Sched} {ls : Queue → List Slot} (h : QueueInv s ls)
    {q : Heap QNode} (hr : Queues q (Function.update ls .blocked (ls .blocked ++ [s.current]))) :
    needsSchedRr (updateSchedDataRr (enqueuedBlocked s q)) = true ↔ GivesWay s := by
  have hpcb : (updateSchedDataRr (enqueuedBlocked s q)).pcb =
      { s.pcb with state := .blocked, nrTicks := s.ticksSinceLastSwitch } := by
    simp [updateSchedDataRr, enqueuedBlocked, Sched.pcb]
  have hq : (updateSchedDataRr (enqueuedBlocked s q)).queues = q := rfl
  have hempty : listEmpty q (.head .readyqueue) = listEmpty s.queues (.head .readyqueue) := by
    rw [Bool.eq_iff_iff, hr.empty_iff, h.rings.empty_iff, Function.update_of_ne (by decide)]
  unfold needsSchedRr GivesWay
  rw [hpcb, hq, hempty]
  -- the tests of the source, in its order
  by_cases hpid : s.pcb.pid = 0
  · simp [hpid]
  · by_cases hexp : QuantumExpired s
    · have hticks : uint32 (getQuantum { s.pcb with state := .blocked, nrTicks := s.ticksSinceLastSwitch }) <
          s.ticksSinceLastSwitch := hexp
      simp [hpid, hexp, hticks]
    · have hticks : ¬ uint32 (getQuantum { s.pcb with state := .blocked, nrTicks := s.ticksSinceLastSwitch }) <
          s.ticksSinceLastSwitch := hexp
      simp [hpid, hexp, hticks]

/-- A fork counts when it returns a PID. -/
def processSteps (k : Kernel) : Op → Int → Prop
  | .tick, _ => True
  | .exit, _ => UserRuns k
  | .block, _ => UserRuns k ∧ BlockSwitches k.sched
  | .unblock _, _ => True
  | .fork, r => 0 < r ∧ k.sched.nextPid < 2147483647
  | _, _ => False

/-- The queues are in order, and whoever runs is in `ST_RUN`. -/
structure RunInv (s : Sched) (ls : Queue → List Slot) : Prop where
  queues : QueueInv s ls
  current_run : s.current ≠ s.idleTask → s.pcb.state = .run

namespace RunInv
variable {s s' : Sched} {ls ls' : Queue → List Slot}

theorem boot : RunInv bootState bootLists := ⟨bootState_queueInv, by decide +kernel⟩

theorem awake (h : RunInv s ls) : s.pcb.state ≠ .blocked := by
  by_cases hi : s.current = s.idleTask
  · intro hb
    exact h.queues.idle_out .blocked ((h.queues.blocked_iff _).mpr (hi ▸ hb))
  · rw [h.current_run hi]
    decide

theorem of_state (h : RunInv s ls) (hq : QueueInv s' ls') (hc : s'.current = s.current)
    (hi : s'.idleTask = s.idleTask) (hs : (s'.task s.current).state = s.pcb.state) :
    RunInv s' ls' := by
  refine ⟨hq, ?_⟩
  rw [Sched.pcb, hc, hi, hs]
  exact h.current_run

theorem setPending (h : RunInv s ls) {t : Slot} (hb : (s.task t).state ≠ .blocked) (v : Int) :
    RunInv (s.setTask t fun p => { p with pendingUnblocks := v }) ls := by
  apply h.of_state (h.queues.setPending hb v) rfl rfl
  rw [Sched.setTask_task]
  split
  · rename_i ht
    rw [← ht]
    rfl
  · rfl

theorem woken (h : RunInv s ls) {son : Slot} (hb : (s.task son).state = .blocked) {q : Heap QNode}
    (hinv : QueueInv ({ s with queues := q }.setTask son fun p =>
      { p with state := .ready, pendingUnblocks := 0 }) ls') :
    RunInv ({ s with queues := q }.setTask son fun p =>
      { p with state := .ready, pendingUnblocks := 0 }) ls' := by
  have hne : s.current ≠ son := by
    rintro rfl
    exact h.awake hb
  apply h.of_state hinv rfl rfl
  rw [Sched.setTask_other _ _ _ hne]
  rfl

theorem forked (h : RunInv s ls) {child : Slot} {q : Heap QNode} (hcur : child ≠ s.current)
    (hinv : QueueInv (forked s child q) ls') : RunInv (forked s child q) ls' := by
  apply h.of_state hinv rfl rfl
  rw [forked_other q hcur.symm]
  rfl

theorem linked (h : RunInv s ls) {child : Slot} {q q' : Heap QNode} {f : Heap FNode}
    (hcur : child ≠ s.current) (hinv : QueueInv (linkedChild (Zeos.forked s child q) child q' f) ls') :
    RunInv (linkedChild (Zeos.forked s child q) child q' f) ls' := by
  apply h.of_state hinv rfl rfl
  rw [linkedChild_other q' f hcur.symm, forked_other q hcur.symm]
  rfl

end RunInv

/-- The process table is in order. -/
structure ProcessTable (s : Sched) (ls : Queue → List Slot) : Prop where
  rings : Rings queueLayout s.queues (fun _ => True) ls
  idle_out : ∀ q, s.idleTask ∉ ls q
  current_out : ∀ q, s.current ∉ ls q
  placed : ∀ t, t ≠ s.idleTask → t ≠ s.current → ∃! q, t ∈ ls q
  blocked_iff : ∀ t, t ∈ ls .blocked ↔ (s.task t).state = .blocked
  blocked_pending : ∀ t ∈ ls .blocked, (s.task t).pendingUnblocks = 0
  ready_state : ∀ t ∈ ls .readyqueue, (s.task t).state = .ready
  current_run : s.current ≠ s.idleTask → (s.task s.current).state = .run
  free_pid : ∀ t ∈ ls .freequeue, (s.task t).pid = -1
  idle_pid : (s.task s.idleTask).pid = 0
  live_pid : ∀ t, t ≠ s.idleTask → t ∉ ls .freequeue → 1 ≤ (s.task t).pid

/-- The inductive form of `ProcessTable`. -/
structure ProcessInv (s : Sched) (ls : Queue → List Slot) : Prop extends RunInv s ls where
  pids : PidInv s ls

namespace ProcessInv
variable {s s' : Sched} {ls : Queue → List Slot}

theorem processTable (h : ProcessInv s ls) : ProcessTable s ls where
  rings := h.queues.rings
  idle_out := h.queues.idle_out
  current_out := h.queues.current_notMem h.toRunInv.awake
  placed := by
    intro t hti htc
    have hex : ∃ q, t ∈ ls q := by
      by_cases htf : t ∈ ls .freequeue
      · exact ⟨_, htf⟩
      · exact (h.pids.placed t hti htf).resolve_left htc
    obtain ⟨q, hq⟩ := hex
    exact ⟨q, hq, fun p hp => h.queues.rings.unique hp hq⟩
  blocked_iff := h.queues.blocked_iff
  blocked_pending := h.queues.blocked_pending
  ready_state := h.queues.ready_state
  current_run := h.current_run
  free_pid := h.pids.free_pid
  idle_pid := h.queues.idle_pid
  live_pid t hti htf := (h.pids.live_pid t hti htf).1

theorem boot : ProcessInv bootState bootLists where
  toRunInv := .boot
  pids := by
    refine ⟨by decide, by decide, by decide +kernel, by decide +kernel, by decide +kernel, ?_⟩
    intro t ht hf
    refine .inl ?_
    revert t
    decide +kernel

theorem tick (h : ProcessInv s ls) (hok : clkRoutine s = .ok s') : ∃ ls', ProcessInv s' ls' := by
  obtain ⟨s₁, ls', hok', hinv, hm, hrun⟩ := clkRoutine_spec h.queues
  rw [hok] at hok'
  cases hok'
  exact ⟨ls', ⟨hinv, hrun h.current_run⟩, h.pids.moves hm⟩

theorem setPending (h : ProcessInv s ls) {t : Slot} (hb : (s.task t).state ≠ .blocked) (v : Int) :
    ProcessInv (s.setTask t fun p => { p with pendingUnblocks := v }) ls :=
  ⟨h.toRunInv.setPending hb v, h.pids.setTask t rfl⟩

/-- Under `BlockSwitches` the scheduler does take the blocked process away. -/
theorem needsSched_of_blockSwitches (h : ProcessInv s ls) (hu : s.current ≠ s.idleTask)
    (hp : s.pcb.pendingUnblocks = 0) (hsw : BlockSwitches s) {q : Heap QNode}
    (hr : Queues q (Function.update ls .blocked (ls .blocked ++ [s.current]))) :
    needsSchedRr (updateSchedDataRr (enqueuedBlocked s q)) = true := by
  have hpid : 1 ≤ s.pcb.pid :=
    (h.pids.live_pid s.current hu (h.queues.current_out .freequeue (by decide))).1
  apply (needsSched_enqueued_iff h.queues hr).mpr
  rcases hsw with hpos | hgives | hlasts
  · omega
  · exact hgives
  · exact .inr ⟨by omega, hlasts⟩

theorem block (h : ProcessInv s ls) (hu : s.current ≠ s.idleTask) (hsw : BlockSwitches s)
    (hok : sysBlock s = .ok s') : ∃ ls', ProcessInv s' ls' := by
  have hs := h.toRunInv.awake
  rcases sysBlock_spec h.queues hu hs with ⟨_, hok'⟩ | ⟨hp, q, s₁, ls', hok', hinv, hinv', hm, hrun⟩
  · rw [hok] at hok'
    cases hok'
    exact ⟨ls, h.setPending hs _⟩
  · rw [hok] at hok'
    cases hok'
    have hneeds := h.needsSched_of_blockSwitches hu hp hsw hinv.rings
    exact ⟨ls', ⟨hinv', hrun hneeds⟩, (h.pids.enqueuedBlocked q).moves hm⟩

theorem unblock (h : ProcessInv s ls) {son : Slot} (hok : unblockSon s son = .ok s') :
    ∃ ls', ProcessInv s' ls' := by
  rcases unblockSon_spec h.queues h.toRunInv.awake with ⟨hb, hok'⟩ | ⟨hb, q, hok', hinv⟩
  · rw [hok] at hok'
    cases hok'
    exact ⟨ls, h.setPending hb _⟩
  · rw [hok] at hok'
    cases hok'
    exact ⟨_, h.toRunInv.woken hb hinv,
      h.pids.woken h.queues.rings ((h.queues.blocked_iff son).mpr hb) q⟩

theorem fork {useCow : Bool} {k k' : Kernel} {r : Int} (h : ProcessInv k.sched ls) (hr : 0 < r)
    (hmax : k.sched.nextPid < 2147483647) (hok : sysFork useCow k = .ok (r, k')) :
    ∃ ls', ProcessInv k'.sched ls' := by
  rcases sysFork_cases h.queues h.toRunInv.awake hok with ⟨_, he, _⟩ |
    ⟨child, rest, q, m, hf, hcur, hidle, hout, hinv, ⟨_, he, _⟩ | ⟨_, s, hl, rfl⟩⟩
  · subst he
    exact absurd hr (by decide)
  · subst he
    exact absurd hr (by decide)
  · obtain ⟨_, hinv', q', f, rfl⟩ := forkLink_queueInv hinv hout hcur hidle hl
    exact ⟨_, h.toRunInv.linked hcur hinv', h.pids.fork h.queues.rings hf hmax q q' f⟩

theorem exit {k k' : Kernel} (h : ProcessInv k.sched ls) (hu : UserRuns k)
    (hok : sysExit k = .ok k') : ∃ ls', ProcessInv k'.sched ls' := by
  obtain ⟨s₁, m, q, s₂, ls', _, hf, _, hinv, hm, hrun, rfl⟩ :=
    sysExit_cases h.queues ⟨hu, h.toRunInv.awake⟩ hok
  exact ⟨ls', ⟨hinv, hrun⟩, (h.pids.retired hf q).moves hm⟩

end ProcessInv

theorem exec_processInv {useCow : Bool} {k k' : Kernel} {op : Op} {r : Int}
    (h : ∃ ls, ProcessInv k.sched ls) (ha : processSteps k op r)
    (hok : exec useCow op k = .ok (r, k')) : ∃ ls, ProcessInv k'.sched ls := by
  obtain ⟨ls, h⟩ := h
  cases op with
  | tick =>
    obtain ⟨s, hs, _, rfl⟩ := schedOnly_eq_ok hok
    exact h.tick hs
  | fork => exact h.fork ha.1 ha.2 hok
  | exit => exact h.exit ha (exec_exit_eq_ok hok).2
  | block =>
    obtain ⟨s, hs, _, rfl⟩ := schedOnly_eq_ok hok
    exact h.block ha.1 ha.2 hs
  | unblock pid =>
    obtain ⟨s, hs, rfl⟩ := exec_unblock_eq_ok hok
    rcases sysUnblock_eq_ok hs with ⟨_, rfl⟩ | ⟨_, son, hson, _⟩
    · exact ⟨ls, h⟩
    · exact h.unblock hson
  | shmat id addr => exact ha.elim
  | shmdt addr => exact ha.elim
  | shmrm id => exact ha.elim
  | load addr => exact ha.elim
  | store addr v => exact ha.elim
  | fault addr => exact ha.elim
  | read b maxchars c kern => exact ha.elim

/-- In every state reached by these steps the three queues are disjoint rings,
every PCB is where its state and PID say, and nobody is lost. -/
theorem reachable_processTable {useCow : Bool} {k : Kernel}
    (h : Reachable useCow processSteps k) : ∃ ls, ProcessTable k.sched ls := by
  obtain ⟨ls, hinv⟩ := h.invariant (fun k => ∃ ls, ProcessInv k.sched ls)
    (by
      intro image k hb
      rw [boot_eq] at hb
      cases hb
      exact ⟨_, ProcessInv.boot⟩)
    (fun _ _ _ _ hi ha hok => exec_processInv hi ha hok)
  exact ⟨ls, hinv.processTable⟩

/-- Process 1 blocks right after boot, and idle runs. -/
theorem reachable_processTable_idle :
    ∃ k, Reachable false processSteps k ∧ k.sched.current = 9 ∧
      (k.sched.task 8).state = .blocked ∧ ∃ ls, ProcessTable k.sched ls := by
  have hval : (sysBlock bootState).toOption.map (fun s => (s.current, (s.task 8).state)) =
      some (9, .blocked) := by decide +kernel
  cases hb : sysBlock bootState with
  | error e =>
    rw [hb] at hval
    cases hval
  | ok s =>
    have hstep : exec false .block ⟨bootState, bootMm fun _ _ => 0⟩ =
        .ok (0, ⟨s, bootMm fun _ _ => 0⟩) := by
      simp [exec, schedOnly, hb]
    have hallowed : processSteps ⟨bootState, bootMm fun _ _ => 0⟩ .block 0 := by
      refine ⟨by unfold UserRuns; decide, .inr (.inr ?_)⟩
      unfold QuantumExpired
      decide +kernel
    have hr : Reachable false processSteps ⟨s, bootMm fun _ _ => 0⟩ :=
      (Reachable.boot (boot_eq _)).step hallowed hstep
    rw [hb] at hval
    simp only [Except.toOption, Option.map_some, Option.some.injEq, Prod.mk.injEq] at hval
    exact ⟨_, hr, hval.1, hval.2, reachable_processTable hr⟩

end Zeos
