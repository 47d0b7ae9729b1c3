import Zeos.Processes
import Zeos.Memory

/-!
# Conservation of wake-ups

Every `sys_unblock` that succeeds for a process is spent by exactly one of its
`sys_block` calls, or is still pending. The balance is kept between the trace of
a run and two fields of the PCB.
-/

namespace Zeos

open LinkedRings Loops Runs
set_option autoImplicit false

/-- The part of a trace after the fork that returned `pid`; the newest event is first. -/
def sinceFork (pid : Int) (tr : List Event) : List Event :=
  tr.takeWhile fun e => !decide (e.op = .fork ∧ e.ret = pid)

/-- The `sys_unblock` calls that returned 0 for `pid` since its fork. -/
def unblocksOf (pid : Int) (tr : List Event) : Nat :=
  (sinceFork pid tr).countP fun e => decide (e.op = .unblock pid ∧ e.ret = 0)

/-- The `sys_block` calls that `pid` made. -/
def blocksBy (pid : Int) (tr : List Event) : Nat :=
  tr.countP fun e => decide (e.op = .block ∧ e.caller = pid)

def isUnblock : Op → Bool
  | .unblock _ => true
  | _ => false

def unblockCalls (tr : List Event) : Nat := tr.countP fun e => isUnblock e.op

/-- System calls of processes that are not blocked, and any clock tick. -/
def wakeSteps (k : Kernel) : Op → Int → Prop
  | .tick, _ => True
  | .fork, r => k.sched.pcb.state ≠ .blocked ∧ 0 < r ∧ k.sched.nextPid < 2147483647
  | .exit, _ => Awake k
  | .block, _ => Awake k
  | .unblock _, _ => k.sched.pcb.state ≠ .blocked
  | _, _ => False

section Counts
variable {pid : Int} {e : Event} {tr : List Event}

theorem unblocksOf_fork (h : e.op = .fork ∧ e.ret = pid) : unblocksOf pid (e :: tr) = 0 := by
  simp [unblocksOf, sinceFork, h]

theorem unblocksOf_cons (h : ¬ (e.op = .fork ∧ e.ret = pid)) :
    unblocksOf pid (e :: tr) =
      unblocksOf pid tr + if e.op = .unblock pid ∧ e.ret = 0 then 1 else 0 := by
  unfold unblocksOf sinceFork
  rw [List.takeWhile_cons_of_pos (by rw [decide_eq_false h]; rfl), List.countP_cons]
  simp

theorem blocksBy_cons :
    blocksBy pid (e :: tr) = blocksBy pid tr + if e.op = .block ∧ e.caller = pid then 1 else 0 := by
  simp [blocksBy, List.countP_cons]

theorem unblocksOf_le (pid : Int) (tr : List Event) : unblocksOf pid tr ≤ unblockCalls tr := by
  refine le_trans ((List.takeWhile_sublist _).countP_le) (List.countP_mono_left ?_)
  intro e _ he
  have := (of_decide_eq_true he).1
  simp [this, isUnblock]

theorem blocksBy_eq_zero (h : ∀ e ∈ tr, e.caller < pid) : blocksBy pid tr = 0 := by
  refine List.countP_eq_zero.mpr ?_
  intro e he hd
  have hlt := h e he
  have := (of_decide_eq_true hd).2
  omega

end Counts

/-- Unblocks received minus blocks made is what is pending, less one for a
process that waits. -/
def Balanced (tr : List Event) (p : TaskStruct) : Prop :=
  (unblocksOf p.pid tr : Int) - blocksBy p.pid tr =
      p.pendingUnblocks - (if p.state = .blocked then 1 else 0) ∧ 0 ≤ p.pendingUnblocks

section Balance
variable {tr : List Event} {p p' : TaskStruct} {e : Event}

theorem Balanced.skip (h : Balanced tr p) (hpid : p'.pid = p.pid)
    (hpend : p'.pendingUnblocks = p.pendingUnblocks)
    (hst : p'.state = .blocked ↔ p.state = .blocked)
    (hf : ¬ (e.op = .fork ∧ e.ret = p.pid)) (hu : ¬ (e.op = .unblock p.pid ∧ e.ret = 0))
    (hb : ¬ (e.op = .block ∧ e.caller = p.pid)) : Balanced (e :: tr) p' := by
  unfold Balanced at h ⊢
  rw [hpid, hpend, unblocksOf_cons hf, blocksBy_cons, if_neg hu, if_neg hb]
  simpa [hst] using h

/-- A pending counter never exceeds the unblocks that were made. -/
theorem Balanced.pending_le (h : Balanced tr p) (hs : p.state ≠ .blocked) :
    p.pendingUnblocks ≤ unblockCalls tr := by
  obtain ⟨heq, _⟩ := h
  rw [if_neg hs] at heq
  have := unblocksOf_le p.pid tr
  omega

theorem Balanced.block_pending (h : Balanced tr p) (hs : p.state ≠ .blocked)
    (hp : p.pendingUnblocks ≠ 0) (hb : unblockCalls tr < 2147483648)
    (he : e.op = .block) (hc : e.caller = p.pid) :
    Balanced (e :: tr) { p with pendingUnblocks := int32 (p.pendingUnblocks - 1) } := by
  have hle := h.pending_le hs
  obtain ⟨heq, hpos⟩ := h
  have hint : int32 (p.pendingUnblocks - 1) = p.pendingUnblocks - 1 :=
    int32_of_range (by omega) (by omega)
  rw [if_neg hs] at heq
  refine ⟨?_, by change 0 ≤ int32 _; omega⟩
  simp only [hint]
  rw [unblocksOf_cons (by simp [he]), blocksBy_cons, if_neg (by simp [he]), if_pos ⟨he, hc⟩, if_neg hs]
  push_cast
  omega

theorem Balanced.block_wait (h : Balanced tr p) (hs : p.state ≠ .blocked)
    (hp : p.pendingUnblocks = 0) (he : e.op = .block) (hc : e.caller = p.pid) :
    Balanced (e :: tr) { p with state := .blocked } := by
  obtain ⟨heq, hpos⟩ := h
  rw [if_neg hs] at heq
  refine ⟨?_, hpos⟩
  change (unblocksOf p.pid (e :: tr) : Int) - blocksBy p.pid (e :: tr) = p.pendingUnblocks - 1
  rw [unblocksOf_cons (by simp [he]), blocksBy_cons, if_neg (by simp [he]), if_pos ⟨he, hc⟩]
  push_cast
  omega

theorem Balanced.unblock_pending (h : Balanced tr p) (hs : p.state ≠ .blocked)
    (hb : unblockCalls (e :: tr) < 2147483648) (he : e.op = .unblock p.pid) (hr : e.ret = 0) :
    Balanced (e :: tr) { p with pendingUnblocks := int32 (p.pendingUnblocks + 1) } := by
  have hle := h.pending_le hs
  obtain ⟨heq, hpos⟩ := h
  have hcalls : unblockCalls (e :: tr) = unblockCalls tr + 1 := by
    simp [unblockCalls, he, isUnblock]
  have hint : int32 (p.pendingUnblocks + 1) = p.pendingUnblocks + 1 :=
    int32_of_range (by omega) (by omega)
  rw [if_neg hs] at heq
  refine ⟨?_, by change 0 ≤ int32 _; omega⟩
  simp only [hint]
  rw [unblocksOf_cons (by simp [he]), blocksBy_cons, if_pos ⟨he, hr⟩, if_neg (by simp [he]), if_neg hs]
  push_cast
  omega

theorem Balanced.unblock_wake (h : Balanced tr p) (hs : p.state = .blocked)
    (hp : p.pendingUnblocks = 0) (he : e.op = .unblock p.pid) (hr : e.ret = 0) :
    Balanced (e :: tr) { p with state := .ready, pendingUnblocks := 0 } := by
  obtain ⟨heq, hpos⟩ := h
  rw [if_pos hs] at heq
  refine ⟨?_, le_refl 0⟩
  change (unblocksOf p.pid (e :: tr) : Int) - blocksBy p.pid (e :: tr) = 0 - 0
  rw [unblocksOf_cons (by simp [he]), blocksBy_cons, if_pos ⟨he, hr⟩, if_neg (by simp [he])]
  push_cast
  omega

end Balance

/-- The state of the balance during a run. -/
structure WakeInv (tr : List Event) (s : Sched) (ls : Queue → List Slot) : Prop where
  queues : QueueInv s ls
  pids : PidInv s ls
  callers : ∀ e ∈ tr, e.caller < s.nextPid
  balance : ∀ t, 1 < (s.task t).pid → Balanced tr (s.task t)

namespace WakeInv
variable {tr : List Event} {s s' : Sched} {ls : Queue → List Slot} {c : Int}

theorem caller_lt (h : WakeInv tr s ls) : s.pcb.pid < s.nextPid := by
  have hn := h.pids.next_lower
  by_cases hi : s.current = s.idleTask
  · rw [Sched.pcb, hi, h.queues.idle_pid]
    omega
  · exact (h.pids.live_pid _ hi (h.queues.current_out .freequeue (by decide))).2

theorem live_of_pid (h : WakeInv tr s ls) {t : Slot} (ht : 1 < (s.task t).pid) :
    t ≠ s.idleTask ∧ t ∉ ls .freequeue := by
  constructor
  · rintro rfl
    rw [h.queues.idle_pid] at ht
    omega
  · intro hf
    rw [h.pids.free_pid t hf] at ht
    omega

theorem eq_of_pid (h : WakeInv tr s ls) {t u : Slot} (ht : 1 < (s.task t).pid)
    (he : (s.task t).pid = (s.task u).pid) : t = u := by
  obtain ⟨hti, htf⟩ := h.live_of_pid ht
  obtain ⟨hui, huf⟩ := h.live_of_pid (he ▸ ht)
  exact h.pids.unique t u hti htf hui huf he

theorem callers_cons (h : WakeInv tr s ls) {e : Event} (hc : e.caller = s.pcb.pid) {n : Int}
    (hn : s.nextPid ≤ n) : ∀ e' ∈ e :: tr, e'.caller < n := by
  intro e' he'
  rcases List.mem_cons.mp he' with rfl | he'
  · have := h.caller_lt
    omega
  · have := h.callers e' he'
    omega

theorem moves {ls' : Queue → List Slot} (h : WakeInv tr s ls) (hinv : QueueInv s' ls')
    (hm : Moves s s' ls ls') : WakeInv tr s' ls' := by
  refine ⟨hinv, h.pids.moves hm, by rw [hm.nextPid]; exact h.callers, ?_⟩
  intro t ht
  have hst : (s'.task t).state = .blocked ↔ (s.task t).state = .blocked := by
    rw [← hinv.blocked_iff, ← h.queues.blocked_iff, hm.blocked]
  rw [(hm.task t).pid] at ht
  obtain ⟨heq, hpos⟩ := h.balance t ht
  unfold Balanced
  rw [(hm.task t).pid, (hm.task t).pendingUnblocks]
  exact ⟨by simpa [hst] using heq, hpos⟩

theorem setTask {ls' : Queue → List Slot} (h : WakeInv tr s ls) {e : Event} {t : Slot}
    {f : TaskStruct → TaskStruct} {q : Heap QNode}
    (hinv : QueueInv ({ s with queues := q }.setTask t f) ls')
    (hpids : PidInv ({ s with queues := q }.setTask t f) ls') (hc : e.caller = s.pcb.pid)
    (hpid : (f (s.task t)).pid = (s.task t).pid)
    (hthis : 1 < (s.task t).pid → Balanced (e :: tr) (f (s.task t)))
    (hother : ∀ u, u ≠ t → 1 < (s.task u).pid → ¬ (e.op = .fork ∧ e.ret = (s.task u).pid) ∧
      ¬ (e.op = .unblock (s.task u).pid ∧ e.ret = 0) ∧
      ¬ (e.op = .block ∧ e.caller = (s.task u).pid)) :
    WakeInv (e :: tr) ({ s with queues := q }.setTask t f) ls' := by
  refine ⟨hinv, hpids, h.callers_cons hc (le_refl _), ?_⟩
  intro u hu
  by_cases hut : u = t
  · subst hut
    rw [Sched.setTask_same] at hu ⊢
    exact hthis (by rw [hpid] at hu; exact hu)
  · rw [Sched.setTask_other _ _ _ hut] at hu ⊢
    obtain ⟨hf, hun, hb⟩ := hother u hut hu
    exact (h.balance u hu).skip rfl rfl Iff.rfl hf hun hb

theorem tick (h : WakeInv tr s ls) {r : Int} (hok : clkRoutine s = .ok s') :
    ∃ ls', WakeInv (⟨s.pcb.pid, .tick, r⟩ :: tr) s' ls' := by
  obtain ⟨s₁, ls', hok', hinv, hm, _⟩ := clkRoutine_spec h.queues
  rw [hok] at hok'
  cases hok'
  have h' : WakeInv (⟨s.pcb.pid, .tick, r⟩ :: tr) s ls := by
    refine ⟨h.queues, h.pids, h.callers_cons rfl (le_refl _), ?_⟩
    intro t ht
    exact (h.balance t ht).skip rfl rfl Iff.rfl (by simp) (by simp) (by simp)
  exact ⟨ls', h'.moves hinv hm⟩

theorem block (h : WakeInv tr s ls) (hu : s.current ≠ s.idleTask) (hs : s.pcb.state ≠ .blocked)
    (hb : unblockCalls tr < 2147483648) {r : Int} (hok : sysBlock s = .ok s') :
    ∃ ls', WakeInv (⟨s.pcb.pid, .block, r⟩ :: tr) s' ls' := by
  have hother : ∀ u, u ≠ s.current → 1 < (s.task u).pid →
      ¬ (Op.block = .fork ∧ r = (s.task u).pid) ∧ ¬ (Op.block = .unblock (s.task u).pid ∧ r = 0) ∧
      ¬ (Op.block = .block ∧ s.pcb.pid = (s.task u).pid) := by
    intro u hne hu
    refine ⟨by simp, by simp, ?_⟩
    rintro ⟨_, he⟩
    exact hne (h.eq_of_pid hu he.symm)
  rcases sysBlock_spec h.queues hu hs with ⟨hp, hok'⟩ | ⟨hp, q, s₁, ls', hok', hinv, hinv', hm, _⟩
  · rw [hok] at hok'
    cases hok'
    refine ⟨ls, h.setTask (q := s.queues) (h.queues.setPending hs _) (h.pids.setTask _ rfl) rfl rfl ?_ hother⟩
    intro hpid
    exact (h.balance s.current hpid).block_pending hs hp hb rfl rfl
  · rw [hok] at hok'
    cases hok'
    refine ⟨ls', WakeInv.moves ?_ hinv' hm⟩
    refine h.setTask hinv (h.pids.enqueuedBlocked q) rfl rfl ?_ hother
    intro hpid
    exact (h.balance s.current hpid).block_wait hs hp rfl rfl

theorem unblock (h : WakeInv tr s ls) (hs : s.pcb.state ≠ .blocked) {son : Slot}
    {e : Event} (hop : e.op = .unblock (s.task son).pid) (hret : e.ret = 0)
    (hc : e.caller = s.pcb.pid) (hb : unblockCalls (e :: tr) < 2147483648)
    (hok : unblockSon s son = .ok s') : ∃ ls', WakeInv (e :: tr) s' ls' := by
  have hother : ∀ u, u ≠ son → 1 < (s.task u).pid → ¬ (e.op = .fork ∧ e.ret = (s.task u).pid) ∧
      ¬ (e.op = .unblock (s.task u).pid ∧ e.ret = 0) ∧
      ¬ (e.op = .block ∧ e.caller = (s.task u).pid) := by
    intro u hne hu
    rw [hop]
    refine ⟨by simp, ?_, by simp⟩
    rintro ⟨he, _⟩
    injection he with he
    exact hne (h.eq_of_pid hu he.symm)
  rcases unblockSon_spec h.queues hs with ⟨hst, hok'⟩ | ⟨hst, q, hok', hinv⟩
  · rw [hok] at hok'
    cases hok'
    refine ⟨ls, h.setTask (q := s.queues) (h.queues.setPending hst _) (h.pids.setTask _ rfl) hc rfl ?_ hother⟩
    intro hpid
    exact (h.balance son hpid).unblock_pending hst hb hop hret
  · rw [hok] at hok'
    cases hok'
    have hmem := (h.queues.blocked_iff son).mpr hst
    refine ⟨_, h.setTask hinv (h.pids.woken h.queues.rings hmem q) hc rfl ?_ hother⟩
    intro hpid
    exact (h.balance son hpid).unblock_wake hst (h.queues.blocked_pending son hmem) hop hret

theorem fork {useCow : Bool} {k k' : Kernel} {r : Int} (h : WakeInv tr k.sched ls)
    (hs : k.sched.pcb.state ≠ .blocked) (hr : 0 < r) (hmax : k.sched.nextPid < 2147483647)
    (hok : sysFork useCow k = .ok (r, k')) :
    ∃ ls', WakeInv (⟨k.sched.pcb.pid, .fork, r⟩ :: tr) k'.sched ls' := by
  rcases sysFork_cases h.queues hs hok with ⟨_, he, _⟩ |
    ⟨child, rest, q, m, hf, hcur, hidle, hout, hinv, ⟨_, he, _⟩ | ⟨_, s, hl, rfl⟩⟩
  · subst he
    exact absurd hr (by decide)
  · subst he
    exact absurd hr (by decide)
  · obtain ⟨hret, hinv', q', f, rfl⟩ := forkLink_queueInv hinv hout hcur hidle hl
    have hpids := h.pids.fork h.queues.rings hf hmax q q' f
    have hnext := h.pids.next_lower
    have hsucc : (linkedChild (forked k.sched child q) child q' f).nextPid = k.sched.nextPid + 1 := by
      change int32 (k.sched.nextPid + 1) = _
      rw [int32_of_range (by omega) (by omega)]
    refine ⟨_, hinv', hpids, h.callers_cons rfl (by rw [hsucc]; omega), ?_⟩
    intro t ht
    by_cases htc : t = child
    · subst htc
      have htask : (linkedChild (forked k.sched t q) t q' f).task t =
          childPcb (forked k.sched t q) ((forked k.sched t q).task t) := by
        simp [linkedChild]
      rw [htask]
      refine ⟨?_, le_refl 0⟩
      change (unblocksOf k.sched.nextPid _ : Int) - blocksBy k.sched.nextPid _ = 0 - 0
      rw [unblocksOf_fork ⟨rfl, hret⟩, blocksBy_cons, blocksBy_eq_zero h.callers]
      simp
    · rw [linkedChild_other q' f htc, forked_other q htc] at ht ⊢
      obtain ⟨hti, htf⟩ := h.live_of_pid ht
      have hlt := (h.pids.live_pid t hti htf).2
      refine (h.balance t ht).skip rfl rfl Iff.rfl ?_ (by simp) (by simp)
      rintro ⟨_, he⟩
      have he' : r = (k.sched.task t).pid := he
      have hret' : r = k.sched.nextPid := hret
      omega

theorem exit {k k' : Kernel} {r : Int} (h : WakeInv tr k.sched ls) (ha : Awake k)
    (hok : sysExit k = .ok k') : ∃ ls', WakeInv (⟨k.sched.pcb.pid, .exit, r⟩ :: tr) k'.sched ls' := by
  obtain ⟨s₁, m, q, s₂, ls', _, hf, _, hinv, hm, _, rfl⟩ := sysExit_cases h.queues ha hok
  have hpids := h.pids.retired hf q
  refine ⟨ls', hinv, hpids.moves hm, ?_, ?_⟩
  · rw [hm.nextPid]
    exact h.callers_cons rfl (le_of_eq hf.nextPid.symm)
  · intro t ht
    rw [(hm.task t).pid] at ht
    have htc : t ≠ k.sched.current := by
      rintro rfl
      have hfree : k.sched.current ∈ retiredLists k.sched ls .freequeue := by simp [retiredLists]
      rw [hpids.free_pid _ hfree] at ht
      omega
    have hcur : s₁.current = k.sched.current := hf.current
    obtain ⟨p, hp⟩ := hf.task t
    have htask : (retired s₁ q).task t = { k.sched.task t with parent := p } := by
      rw [retired, Sched.setTask_other _ _ _ (by rw [hcur]; exact htc)]
      simp only [hp, unnamed, Sched.setTask_other _ _ _ htc]
    have hst : (s₂.task t).state = .blocked ↔ (k.sched.task t).state = .blocked := by
      rw [← hinv.blocked_iff, ← h.queues.blocked_iff, hm.blocked, retiredLists,
        Function.update_of_ne (by decide)]
    have hsame := hm.task t
    rw [htask] at ht hsame
    exact (h.balance t ht).skip hsame.pid hsame.pendingUnblocks hst (by simp) (by simp) (by simp)

end WakeInv

theorem findSon_pid {s : Sched} {head : FNode} {pid : Int} {son : Slot} :
    ∀ (fuel : Nat) (pos : Option FNode), findSon s head pid fuel pos = .ok (some son) →
      (s.task son).pid = pid := by
  intro fuel
  induction fuel with
  | zero =>
    intro pos h
    cases h
  | succ fuel ih =>
    intro pos h
    obtain ⟨x, _, h⟩ := bind_eq_ok.mp h
    split at h
    · cases h
    · split at h
      · rename_i hpid
        cases h
        exact hpid
      · exact ih _ h

theorem exec_wakeInv {useCow : Bool} {tr : List Event} {k k' : Kernel} {op : Op} {r : Int}
    (h : ∃ ls, WakeInv tr k.sched ls) (ha : wakeSteps k op r)
    (hb : unblockCalls (⟨k.sched.pcb.pid, op, r⟩ :: tr) < 2147483648)
    (hok : exec useCow op k = .ok (r, k')) :
    ∃ ls, WakeInv (⟨k.sched.pcb.pid, op, r⟩ :: tr) k'.sched ls := by
  obtain ⟨ls, h⟩ := h
  cases op with
  | tick =>
    obtain ⟨s, hs, _, rfl⟩ := schedOnly_eq_ok hok
    exact h.tick hs
  | fork => exact h.fork ha.1 ha.2.1 ha.2.2 hok
  | exit => exact h.exit ha (exec_exit_eq_ok hok).2
  | block =>
    obtain ⟨s, hs, _, rfl⟩ := schedOnly_eq_ok hok
    have hb' : unblockCalls tr < 2147483648 := by simpa [unblockCalls, isUnblock] using hb
    exact h.block ha.1 ha.2 hb' hs
  | unblock pid =>
    obtain ⟨s, hs, rfl⟩ := exec_unblock_eq_ok hok
    rcases sysUnblock_eq_ok hs with ⟨hr, rfl⟩ | ⟨hr, son, hson, hfind⟩
    · refine ⟨ls, h.queues, h.pids, h.callers_cons rfl (le_refl _), ?_⟩
      intro t ht
      refine (h.balance t ht).skip rfl rfl Iff.rfl (by simp) ?_ (by simp)
      rintro ⟨_, h0⟩
      rw [hr] at h0
      cases h0
    · have hpid := findSon_pid _ _ hfind
      exact h.unblock ha (by rw [hpid]) hr rfl hb hson
  | shmat id addr => exact ha.elim
  | shmdt addr => exact ha.elim
  | shmrm id => exact ha.elim
  | load addr => exact ha.elim
  | store addr v => exact ha.elim
  | fault addr => exact ha.elim
  | read b maxchars c kern => exact ha.elim

/-- At every point of such a run, for every process but the first: the unblocks it
received less the blocks it made is what it has pending, less one if it waits. -/
theorem wakeups_conserved {useCow : Bool} {image : Nat → Fin pageSize → UInt8} {tr : List Event}
    {k : Kernel} (h : RunFrom useCow wakeSteps image tr k) (hb : unblockCalls tr < 2147483648)
    (t : Slot) (ht : 1 < (k.sched.task t).pid) :
    (unblocksOf (k.sched.task t).pid tr : Int) - blocksBy (k.sched.task t).pid tr =
        (k.sched.task t).pendingUnblocks - (if (k.sched.task t).state = .blocked then 1 else 0) ∧
      0 ≤ (k.sched.task t).pendingUnblocks := by
  obtain ⟨k₀, hk₀, hrun⟩ := h
  rw [boot_eq] at hk₀
  cases hk₀
  have hinv := hrun.invariant_trace
    (fun tr k => unblockCalls tr < 2147483648 → ∃ ls, WakeInv tr k.sched ls)
    (by
      intro _
      refine ⟨_, bootState_queueInv, ProcessInv.boot.pids, by simp, ?_⟩
      intro t ht
      have hle : ∀ t, (bootState.task t).pid ≤ 1 := by decide +kernel
      exact absurd ht (not_lt.mpr (hle t)))
    (by
      rintro tr k ⟨c, op, r⟩ k' ih ⟨hc, ha, hok⟩ hb
      have hcaller : c = k.sched.pcb.pid := hc
      subst hcaller
      have hb' : unblockCalls tr < 2147483648 := by
        refine lt_of_le_of_lt ?_ hb
        simp [unblockCalls, List.countP_cons]
      exact exec_wakeInv (ih hb') ha hb hok)
  obtain ⟨ls, hw⟩ := hinv hb
  exact hw.balance t ht

def bootUnblocked : Sched :=
  match sysUnblock bootForked 2 with
  | .ok (_, s) => s
  | .error _ => bootForked

theorem sysUnblock_bootForked : sysUnblock bootForked 2 = .ok (0, bootUnblocked) := rfl

/-- An unblock that comes before the child blocks is kept for it. -/
theorem wakeups_conserved_early : ∃ k,
    RunFrom false wakeSteps (fun _ _ => 0) [⟨1, .unblock 2, 0⟩, ⟨1, .fork, 2⟩] k ∧
      (unblocksOf 2 [⟨1, .unblock 2, 0⟩, ⟨1, .fork, 2⟩] : Int) -
        blocksBy 2 [⟨1, .unblock 2, 0⟩, ⟨1, .fork, 2⟩] = (k.sched.task 7).pendingUnblocks := by
  obtain ⟨m, hok, _⟩ := boot_fork false (fun _ _ => 0)
  have hpid : (1 : Int) = bootState.pcb.pid := by decide +kernel
  have hpid' : (1 : Int) = bootForked.pcb.pid := by decide +kernel
  have hfork : wakeSteps ⟨bootState, bootMm fun _ _ => 0⟩ .fork 2 := by
    refine ⟨(boot_awake (bootMm fun _ _ => 0)).2, by decide, ?_⟩
    change bootState.nextPid < 2147483647
    decide
  have hstate : bootForked.pcb.state ≠ .blocked := by decide +kernel
  have hunblock : exec false (.unblock 2) ⟨bootForked, m⟩ = .ok (0, ⟨bootUnblocked, m⟩) := by
    simp only [exec, sysUnblock_bootForked, ok_bind, pure_eq_ok]
  have hrun : RunFrom false wakeSteps (fun _ _ => 0) [⟨1, .unblock 2, 0⟩, ⟨1, .fork, 2⟩]
      ⟨bootUnblocked, m⟩ :=
    ⟨_, boot_eq _, .snoc (.snoc .nil ⟨hpid, hfork, hok⟩) ⟨hpid', hstate, hunblock⟩⟩
  have hchild : (bootUnblocked.task 7).pid = 2 := by decide +kernel
  have hready : (bootUnblocked.task 7).state ≠ .blocked := by decide +kernel
  have hbal := wakeups_conserved hrun (by decide) 7 (by
    change 1 < (bootUnblocked.task 7).pid
    rw [hchild]
    decide)
  refine ⟨_, hrun, ?_⟩
  have hbal' := hbal.1
  simp only [hchild, if_neg hready, sub_zero] at hbal'
  exact hbal'

end Zeos
