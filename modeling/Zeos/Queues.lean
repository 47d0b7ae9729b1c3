import Zeos.Interrupt

/-!
# The scheduling queues

The three queues are disjoint rings of PCB nodes, and the state of a PCB says
whether it is blocked or ready. The invariant `QueueInv` does not mention PIDs:
it survives the overflow of `next_pid`. The current process may stand in
`blocked` only, which happens when `sys_block` finds nobody to switch to.
-/

namespace Zeos

open LinkedRings Loops
set_option autoImplicit false

abbrev Queues (h : Heap QNode) (ls : Queue → List Slot) : Prop :=
  Rings queueLayout h (fun _ => True) ls

section QueueLists
variable {h : Heap QNode} {ls : Queue → List Slot} {q : Queue} {t : Slot}

theorem Queues.addTail (hr : Queues h ls) (q : Queue) (ht : ∀ j, t ∉ ls j) :
    ∃ h', listAddTail h (.node t) (.head q) = .ok h' ∧
      Queues h' (Function.update ls q (ls q ++ [t])) := by
  obtain ⟨h', hok, hr', _⟩ := rings_listAddTail hr (i := q) trivial (fun j _ => ht j)
  exact ⟨h', hok, hr'⟩

theorem Queues.del (hr : Queues h ls) (ht : t ∈ ls q) :
    ∃ h', listDel h (.node t) = .ok h' ∧ Queues h' (Function.update ls q ((ls q).erase t)) := by
  obtain ⟨h', hok, hr', _⟩ := rings_listDel hr (i := q) trivial ht
  exact ⟨h', hok, hr'⟩

theorem Queues.move {p : Queue} (hr : Queues h ls) (hpq : p ≠ q) (ht : t ∈ ls q) :
    ∃ h₁ h₂, listDel h (.node t) = .ok h₁ ∧ listAddTail h₁ (.node t) (.head p) = .ok h₂ ∧
      Queues h₂ (Rings.moved ls q p t) := by
  obtain ⟨h₁, h₂, hdel, hadd, hr', _⟩ := rings_move hr (i := q) (j := p) trivial trivial hpq ht
  exact ⟨h₁, h₂, hdel, hadd, hr'⟩

theorem Queues.empty_iff (hr : Queues h ls) (q : Queue) :
    listEmpty h (.head q) = true ↔ ls q = [] :=
  rings_listEmpty hr (i := q) trivial

theorem Queues.first (hr : Queues h ls) {l : List Slot} (hl : ls q = t :: l) :
    listFirst h (.head q) = some (.node t) :=
  rings_listFirst hr (i := q) trivial hl

theorem Queues.unique (hr : Queues h ls) {p : Queue} (hp : t ∈ ls p) (hq : t ∈ ls q) : p = q :=
  hr.eq_of_mem trivial trivial hp hq

theorem Queues.update_unlinked (hr : Queues h ls) (ht : ∀ j, t ∉ ls j) (v : Links QNode) :
    Queues (Function.update h (.node t) v) ls := by
  apply hr.congr
  intro x hx
  apply Function.update_of_ne
  intro he
  apply hx
  intro i _
  subst he
  refine ⟨fun h => (queueLayout.head_ne_entry i t) h.symm, ?_⟩
  intro k hk he
  exact ht i (queueLayout.entry_inj he ▸ hk)

end QueueLists

section Process
variable {s : Sched} {ls : Queue → List Slot} {t : Slot}

theorem updateProcessStateRr_run {q : Queue} (hr : Queues s.queues ls) (ht : t ∈ ls q)
    (st : StateT) :
    ∃ h', updateProcessStateRr s t none st =
        .ok ({ s with queues := h' }.setTask t fun p => { p with state := .run }) ∧
      Queues h' (Function.update ls q ((ls q).erase t)) := by
  obtain ⟨h', hok, hr'⟩ := hr.del ht
  exact ⟨h', by simp [updateProcessStateRr, hok], hr'⟩

theorem updateProcessStateRr_current (hr : Queues s.queues ls) (ht : ∀ q, s.current ∉ ls q)
    (d : Queue) (st : StateT) :
    ∃ h', updateProcessStateRr s s.current (some d) st =
        .ok ({ s with queues := h' }.setTask s.current fun p => { p with state := st }) ∧
      Queues h' (Function.update ls d (ls d ++ [s.current])) := by
  obtain ⟨h', hok, hr'⟩ := hr.addTail d ht
  exact ⟨h', by simp [updateProcessStateRr, hok], hr'⟩

end Process

/-- The test of `sched_next_rr` for putting the current process back. -/
def Requeues (s : Sched) : Prop := 0 < s.pcb.pid ∧ s.pcb.state ≠ .blocked

instance (s : Sched) : Decidable (Requeues s) := inferInstanceAs (Decidable (_ ∧ _))

/-- The new state of `u` when the current process of `s` gives way to `new`. -/
def stateAfter (s : Sched) (new u : Slot) : StateT :=
  if u = new then .run
  else if u = s.current ∧ Requeues s then .ready
  else (s.task u).state

/-- What `sched_next_rr` makes of `s` when it picks `new`. -/
def dispatched (s : Sched) (new : Slot) (q : Heap QNode) : Sched :=
  { s with
    current := new
    task := fun u => { s.task u with state := stateAfter s new u }
    queues := q
    ticksSinceLastSwitch := 0 }

def readyAfter (s : Sched) (rest : List Slot) : List Slot :=
  if Requeues s then rest ++ [s.current] else rest

section Switch
variable {s : Sched} {ls : Queue → List Slot}

theorem schedNextRr_empty (hr : Queues s.queues ls) (he : ls .readyqueue = []) :
    schedNextRr s = .ok { s with current := s.idleTask, ticksSinceLastSwitch := 0 } := by
  have h := (hr.empty_iff .readyqueue).mpr he
  simp [schedNextRr, h, taskSwitch]

theorem setTask_state_eq (s : Sched) (t : Slot) (st : StateT) :
    s.setTask t (fun p => { p with state := st }) =
      { s with task := fun u => { s.task u with state := if u = t then st else (s.task u).state } } := by
  unfold Sched.setTask
  congr 1
  funext u
  by_cases hu : u = t
  · subst hu
    simp
  · simp [hu]

theorem schedNextRr_cons (hr : Queues s.queues ls) {new : Slot} {rest : List Slot}
    (hn : ls .readyqueue = new :: rest) (hc : Requeues s → ∀ q, s.current ∉ ls q) :
    ∃ q, schedNextRr s = .ok (dispatched s new q) ∧
      Queues q (Function.update ls .readyqueue (readyAfter s rest)) := by
  have hne : listEmpty s.queues (.head .readyqueue) = false := by
    rw [Bool.eq_false_iff]
    intro h
    have := (hr.empty_iff .readyqueue).mp h
    simp [hn] at this
  have hfirst : listHeadToTaskStruct (listFirst s.queues (.head .readyqueue)) = .ok new := by
    rw [hr.first hn]
    rfl
  by_cases hq : Requeues s
  · obtain ⟨h₁, hok₁, hr₁⟩ := updateProcessStateRr_current hr (hc hq) .readyqueue .ready
    have hmem : new ∈ Function.update ls .readyqueue (ls .readyqueue ++ [s.current]) .readyqueue := by
      simp [hn]
    obtain ⟨h₂, hok₂, hr₂⟩ := updateProcessStateRr_run
      (s := { s with queues := h₁ }.setTask s.current fun p => { p with state := .ready }) hr₁ hmem .run
    have hcond : 0 < s.pcb.pid ∧ s.pcb.state ≠ .blocked := hq
    refine ⟨h₂, ?_, ?_⟩
    · unfold schedNextRr
      rw [hne, hfirst]
      simp only [Bool.false_eq_true, if_false, ok_bind, if_pos hcond]
      rw [hok₁, ok_bind, hok₂, ok_bind, pure_eq_ok]
      simp only [setTask_state_eq, taskSwitch, dispatched, stateAfter]
      congr 2
      funext u
      by_cases hu : u = new
      · simp [hu]
      · by_cases huc : u = s.current
        · simp [huc, hq]
        · simp [hu, huc]
    · simpa [hn, readyAfter, hq] using hr₂
  · have hmem : new ∈ ls .readyqueue := by simp [hn]
    obtain ⟨h₁, hok₁, hr₁⟩ := updateProcessStateRr_run hr hmem .run
    have hcond : ¬ (0 < s.pcb.pid ∧ s.pcb.state ≠ .blocked) := hq
    refine ⟨h₁, ?_, ?_⟩
    · unfold schedNextRr
      rw [hne, hfirst]
      simp only [Bool.false_eq_true, if_false, ok_bind, if_neg hcond, pure_eq_ok]
      rw [hok₁, ok_bind]
      simp only [setTask_state_eq, taskSwitch, dispatched, stateAfter, hq, and_false, if_false]
    · simpa [hn, readyAfter, hq] using hr₁

end Switch

/-- A process that the scheduler may still pick. -/
def Runnable (s : Sched) (ls : Queue → List Slot) (t : Slot) : Prop :=
  t ≠ s.idleTask ∧ (t = s.current ∨ t ∈ ls .readyqueue ∨ t ∈ ls .blocked)

structure QueueCore (s : Sched) (ls : Queue → List Slot) : Prop where
  rings : Queues s.queues ls
  idle_out : ∀ q, s.idleTask ∉ ls q
  idle_pid : (s.task s.idleTask).pid = 0
  blocked_iff : ∀ t, t ∈ ls .blocked ↔ (s.task t).state = .blocked
  blocked_pending : ∀ t ∈ ls .blocked, (s.task t).pendingUnblocks = 0
  ready_state : ∀ t ∈ ls .readyqueue, (s.task t).state = .ready
  dir : ∀ t, t ∉ ls .freequeue → (s.task t).dirPagesBaseAddr = some t

structure QueueInv (s : Sched) (ls : Queue → List Slot) : Prop extends QueueCore s ls where
  current_out : ∀ q, q ≠ .blocked → s.current ∉ ls q

/-- The PCB fields that scheduling leaves alone. -/
structure SameProcess (p p' : TaskStruct) : Prop where
  pid : p'.pid = p.pid
  dir : p'.dirPagesBaseAddr = p.dirPagesBaseAddr
  parent : p'.parent = p.parent
  quantum : p'.quantum = p.quantum
  pendingUnblocks : p'.pendingUnblocks = p.pendingUnblocks

theorem SameProcess.refl (p : TaskStruct) : SameProcess p p := ⟨rfl, rfl, rfl, rfl, rfl⟩

theorem SameProcess.trans {p p' p'' : TaskStruct} (h : SameProcess p p')
    (h' : SameProcess p' p'') : SameProcess p p'' :=
  ⟨h'.pid.trans h.pid, h'.dir.trans h.dir, h'.parent.trans h.parent, h'.quantum.trans h.quantum,
    h'.pendingUnblocks.trans h.pendingUnblocks⟩

/-- Changes that the scheduler makes: who is current, the order of the ready
queue, and the states and tick counts of PCBs. -/
structure Moves (s s' : Sched) (ls ls' : Queue → List Slot) : Prop where
  idleTask : s'.idleTask = s.idleTask
  family : s'.family = s.family
  nextPid : s'.nextPid = s.nextPid
  task : ∀ t, SameProcess (s.task t) (s'.task t)
  free : ls' .freequeue = ls .freequeue
  blocked : ls' .blocked = ls .blocked
  runnable : ∀ t, Runnable s' ls' t → Runnable s ls t
  /-- A process with a PID is not lost. -/
  kept : ∀ t, 0 < (s.task t).pid → (t = s.current ∨ ∃ q, t ∈ ls q) →
    (t = s'.current ∨ ∃ q, t ∈ ls' q)

theorem Moves.trans {s s' s'' : Sched} {ls ls' ls'' : Queue → List Slot}
    (h : Moves s s' ls ls') (h' : Moves s' s'' ls' ls'') : Moves s s'' ls ls'' where
  idleTask := h'.idleTask.trans h.idleTask
  family := h'.family.trans h.family
  nextPid := h'.nextPid.trans h.nextPid
  task t := (h.task t).trans (h'.task t)
  free := h'.free.trans h.free
  blocked := h'.blocked.trans h.blocked
  runnable t ht := h.runnable t (h'.runnable t ht)
  kept t hp ht := h'.kept t (by rw [(h.task t).pid]; exact hp) (h.kept t hp ht)

section Scheduling
variable {s : Sched} {ls : Queue → List Slot}

theorem QueueInv.current_blocked (h : QueueInv s ls) {q : Queue} (hm : s.current ∈ ls q) :
    s.pcb.state = .blocked := by
  have hq : q = .blocked := by
    by_contra hq
    exact h.current_out q hq hm
  subst hq
  exact (h.blocked_iff s.current).mp hm

theorem QueueInv.current_notMem (h : QueueInv s ls) (hs : s.pcb.state ≠ .blocked) (q : Queue) :
    s.current ∉ ls q :=
  fun hm => hs (h.current_blocked hm)

theorem QueueCore.getPT_live (h : QueueCore s ls) {t : Slot} (ht : t ∉ ls .freequeue) :
    getPT s t = .ok t := by
  rw [getPT, h.dir t ht]
  rfl

theorem QueueInv.getPT_current (h : QueueInv s ls) : getPT s s.current = .ok s.current :=
  h.getPT_live (h.current_out .freequeue (by decide))

theorem mem_readyAfter {new t : Slot} {rest : List Slot} (hr : Queues s.queues ls)
    (hn : ls .readyqueue = new :: rest) {q : Queue} :
    t ∈ Function.update ls .readyqueue (readyAfter s rest) q ↔
      (t ∈ ls q ∧ t ≠ new) ∨ (q = .readyqueue ∧ t = s.current ∧ Requeues s) := by
  have hnd := hr.nodup (i := .readyqueue) trivial
  rw [hn] at hnd
  have hnew := (List.nodup_cons.mp hnd).1
  by_cases hq : q = .readyqueue
  · subst hq
    have hrest : t ∈ rest ↔ t ∈ ls .readyqueue ∧ t ≠ new := by
      rw [hn]
      constructor
      · intro hm
        exact ⟨List.mem_cons_of_mem _ hm, fun he => hnew (he ▸ hm)⟩
      · rintro ⟨hm, hne⟩
        exact (List.mem_cons.mp hm).resolve_left hne
    rw [Function.update_self]
    unfold readyAfter
    by_cases hreq : Requeues s
    · simp [hreq, hrest]
    · simp [hreq, hrest]
  · rw [Function.update_of_ne hq]
    have hne : t ∈ ls q → t ≠ new := by
      rintro hm rfl
      exact hq (hr.unique hm (by rw [hn]; exact List.mem_cons_self))
    constructor
    · intro hm
      exact .inl ⟨hm, hne hm⟩
    · rintro (hm | hm)
      · exact hm.1
      · exact absurd hm.1 hq

theorem QueueCore.requeues_ne_idle (h : QueueCore s ls) (hq : Requeues s) : s.current ≠ s.idleTask := by
  intro he
  have hpid := hq.1
  rw [Sched.pcb, he, h.idle_pid] at hpid
  exact lt_irrefl _ hpid

section Dispatched
variable {new : Slot} {rest : List Slot} {q : Heap QNode}

theorem QueueCore.stateAfter_blocked (h : QueueCore s ls) (hnew : new ∈ ls .readyqueue) (t : Slot) :
    stateAfter s new t = .blocked ↔ (s.task t).state = .blocked := by
  unfold stateAfter
  by_cases ht : t = new
  · subst ht
    simp [h.ready_state t hnew]
  · rw [if_neg ht]
    by_cases hq : t = s.current ∧ Requeues s
    · rw [if_pos hq, hq.1]
      simp [show (s.task s.current).state ≠ .blocked from hq.2.2]
    · rw [if_neg hq]

theorem QueueCore.dispatched (h : QueueCore s ls) (hready : s.current ∉ ls .readyqueue)
    (hn : ls .readyqueue = new :: rest)
    (hr : Queues q (Function.update ls .readyqueue (readyAfter s rest))) :
    QueueInv (dispatched s new q) (Function.update ls .readyqueue (readyAfter s rest)) := by
  have hmem : new ∈ ls .readyqueue := by rw [hn]; exact List.mem_cons_self
  have hne : new ≠ s.current := fun he => hready (he ▸ hmem)
  have hin : ∀ {t q}, _ := fun {t q} => mem_readyAfter (t := t) (q := q) h.rings hn
  refine ⟨⟨hr, ?_, h.idle_pid, ?_, ?_, ?_, ?_⟩, ?_⟩
  · intro q hm
    rcases hin.mp hm with hm | ⟨_, he, hq⟩
    · exact h.idle_out q hm.1
    · exact h.requeues_ne_idle hq he.symm
  · intro t
    rw [Function.update_of_ne (by decide), h.blocked_iff t]
    exact (h.stateAfter_blocked hmem t).symm
  · intro t ht
    rw [Function.update_of_ne (by decide)] at ht
    exact h.blocked_pending t ht
  · intro t ht
    change stateAfter s new t = .ready
    unfold stateAfter
    rcases hin.mp ht with ⟨hm, htn⟩ | ⟨_, rfl, hq⟩
    · rw [if_neg htn]
      have htc : ¬ (t = s.current ∧ Requeues s) := by
        rintro ⟨rfl, _⟩
        exact hready hm
      rw [if_neg htc]
      exact h.ready_state t hm
    · rw [if_neg hne.symm, if_pos ⟨rfl, hq⟩]
  · intro t ht
    rw [Function.update_of_ne (by decide)] at ht
    exact h.dir t ht
  · intro q _ hm
    rcases hin.mp hm with hm | ⟨_, he, _⟩
    · exact hm.2 rfl
    · exact hne he

theorem Moves.dispatched (h : QueueCore s ls) (hn : ls .readyqueue = new :: rest) :
    Moves s (dispatched s new q) ls (Function.update ls .readyqueue (readyAfter s rest)) := by
  have hmem : new ∈ ls .readyqueue := by rw [hn]; exact List.mem_cons_self
  have hin : ∀ {t q}, _ := fun {t q} => mem_readyAfter (t := t) (q := q) h.rings hn
  refine ⟨rfl, rfl, rfl, ?_, ?_, ?_, ?_, ?_⟩
  · intro t
    exact ⟨rfl, rfl, rfl, rfl, rfl⟩
  · exact Function.update_of_ne (by decide) _ _
  · exact Function.update_of_ne (by decide) _ _
  · rintro t ⟨hi, rfl | ht | ht⟩
    · exact ⟨hi, .inr (.inl hmem)⟩
    · rcases hin.mp ht with hm | ⟨_, he, _⟩
      · exact ⟨hi, .inr (.inl hm.1)⟩
      · exact ⟨hi, .inl he⟩
    · rcases hin.mp ht with hm | ⟨hq, _⟩
      · exact ⟨hi, .inr (.inr hm.1)⟩
      · cases hq
  · intro t hp ht
    by_cases htn : t = new
    · exact .inl htn
    · refine .inr ?_
      rcases ht with rfl | ⟨q, ht⟩
      · by_cases hq : Requeues s
        · exact ⟨.readyqueue, hin.mpr (.inr ⟨rfl, rfl, hq⟩)⟩
        · have hb : s.pcb.state = .blocked := by
            by_contra hb
            exact hq ⟨hp, hb⟩
          exact ⟨.blocked, hin.mpr (.inl ⟨(h.blocked_iff _).mpr hb, htn⟩)⟩
      · exact ⟨q, hin.mpr (.inl ⟨ht, htn⟩)⟩

end Dispatched

/-- `sched_next_rr` from a state whose current process, if it is to be put back,
is in no queue. -/
theorem schedNextRr_spec (h : QueueCore s ls) (hready : s.current ∉ ls .readyqueue)
    (hc : Requeues s → ∀ q, s.current ∉ ls q)
    (hstay : ls .readyqueue = [] → 0 < s.pcb.pid → ∃ q, s.current ∈ ls q) :
    ∃ s' ls', schedNextRr s = .ok s' ∧ QueueInv s' ls' ∧ Moves s s' ls ls' ∧
      (s'.current ≠ s'.idleTask → s'.pcb.state = .run) := by
  cases hn : ls .readyqueue with
  | nil =>
    refine ⟨_, ls, schedNextRr_empty h.rings hn, ⟨⟨h.rings, h.idle_out, h.idle_pid, h.blocked_iff,
      h.blocked_pending, h.ready_state, h.dir⟩, fun q _ => h.idle_out q⟩, ?_, fun hne => absurd rfl hne⟩
    refine ⟨rfl, rfl, rfl, fun t => .refl _, rfl, rfl, ?_, ?_⟩
    · rintro t ⟨hi, ht | ht⟩
      · exact absurd ht hi
      · exact ⟨hi, .inr ht⟩
    · rintro t hp (rfl | ht)
      · exact .inr (hstay hn hp)
      · exact .inr ht
  | cons new rest =>
    obtain ⟨q, hok, hr⟩ := schedNextRr_cons h.rings hn hc
    refine ⟨_, _, hok, h.dispatched hready hn hr, .dispatched h hn, fun _ => ?_⟩
    change stateAfter s new new = .run
    simp [stateAfter]

theorem QueueCore.congr {s' : Sched} (h : QueueCore s ls) (hq : s'.queues = s.queues)
    (hi : s'.idleTask = s.idleTask) (hp : (s'.task s.idleTask).pid = 0)
    (hs : ∀ t, (s'.task t).state = (s.task t).state)
    (hd : ∀ t, (s'.task t).dirPagesBaseAddr = (s.task t).dirPagesBaseAddr)
    (hu : ∀ t ∈ ls .blocked, (s'.task t).pendingUnblocks = 0) : QueueCore s' ls where
  rings := hq ▸ h.rings
  idle_out := hi ▸ h.idle_out
  idle_pid := hi ▸ hp
  blocked_iff t := by rw [hs, h.blocked_iff]
  blocked_pending := hu
  ready_state t ht := by rw [hs, h.ready_state t ht]
  dir t ht := by rw [hd, h.dir t ht]

theorem updateSchedDataRr_task (s : Sched) (t : Slot) :
    SameProcess (s.task t) ((updateSchedDataRr s).task t) ∧
      ((updateSchedDataRr s).task t).state = (s.task t).state := by
  by_cases ht : t = s.current
  · subst ht
    rw [updateSchedDataRr, Sched.setTask_same]
    exact ⟨⟨rfl, rfl, rfl, rfl, rfl⟩, rfl⟩
  · rw [updateSchedDataRr, Sched.setTask_other _ _ _ ht]
    exact ⟨.refl _, rfl⟩

theorem QueueInv.updateSchedData (h : QueueInv s ls) : QueueInv (updateSchedDataRr s) ls := by
  refine ⟨h.toQueueCore.congr rfl rfl ?_ ?_ ?_ ?_, h.current_out⟩
  · rw [(updateSchedDataRr_task s _).1.pid]
    exact h.idle_pid
  · exact fun t => (updateSchedDataRr_task s t).2
  · exact fun t => (updateSchedDataRr_task s t).1.dir
  · intro t ht
    rw [(updateSchedDataRr_task s t).1.pendingUnblocks]
    exact h.blocked_pending t ht

/-- With nobody ready, only a blocked process gives way. -/
theorem needsSchedRr_empty (hr : Queues s.queues ls) (he : ls .readyqueue = [])
    (h : needsSchedRr s = true) : s.pcb.state = .blocked := by
  have hempty := (hr.empty_iff .readyqueue).mpr he
  unfold needsSchedRr at h
  rw [hempty] at h
  split at h
  · cases h
  · split at h
    · cases h
    · split at h
      · assumption
      · cases h

theorem schedule_spec (h : QueueInv s ls) :
    ∃ s' ls', schedule s = .ok s' ∧ QueueInv s' ls' ∧ Moves s s' ls ls' ∧
      ((needsSchedRr (updateSchedDataRr s) = false ∧ s' = updateSchedDataRr s) ∨
        (needsSchedRr (updateSchedDataRr s) = true ∧
          (s'.current ≠ s'.idleTask → s'.pcb.state = .run))) := by
  have hu := h.updateSchedData
  have hm : Moves s (updateSchedDataRr s) ls ls :=
    ⟨rfl, rfl, rfl, fun t => (updateSchedDataRr_task s t).1, rfl, rfl, fun _ ht => ht, fun _ _ ht => ht⟩
  cases hn : needsSchedRr (updateSchedDataRr s) with
  | false =>
    exact ⟨_, ls, by simp [schedule, hn], hu, hm, .inl ⟨rfl, rfl⟩⟩
  | true =>
    have hstay : ls .readyqueue = [] → 0 < (updateSchedDataRr s).pcb.pid →
        ∃ q, (updateSchedDataRr s).current ∈ ls q := by
      intro he _
      exact ⟨.blocked, (hu.blocked_iff _).mpr (needsSchedRr_empty hu.rings he hn)⟩
    obtain ⟨s', ls', hok, hinv, hmv, hrun⟩ := schedNextRr_spec hu.toQueueCore
      (hu.current_out _ (by decide)) (fun hq => hu.current_notMem hq.2) hstay
    exact ⟨s', ls', by simp [schedule, hn, hok], hinv, hm.trans hmv, .inr ⟨rfl, hrun⟩⟩

def tickCount (s : Sched) : Sched :=
  { s with
    zeosTicks := int32 (s.zeosTicks + 1)
    ticksSinceLastSwitch := (s.ticksSinceLastSwitch + 1) % 4294967296 }

theorem clkRoutine_spec (h : QueueInv s ls) :
    ∃ s' ls', clkRoutine s = .ok s' ∧ QueueInv s' ls' ∧ Moves s s' ls ls' ∧
      ((s.current ≠ s.idleTask → s.pcb.state = .run) →
        (s'.current ≠ s'.idleTask → s'.pcb.state = .run)) := by
  have ht : QueueInv (tickCount s) ls :=
    ⟨h.toQueueCore.congr rfl rfl h.idle_pid (fun _ => rfl) (fun _ => rfl) h.blocked_pending,
      h.current_out⟩
  obtain ⟨s', ls', hok, hinv, hm, hcase⟩ := schedule_spec ht
  refine ⟨s', ls', hok, hinv, ?_, ?_⟩
  · exact ⟨hm.idleTask, hm.family, hm.nextPid, hm.task, hm.free, hm.blocked, hm.runnable, hm.kept⟩
  · intro hrun
    rcases hcase with ⟨_, rfl⟩ | ⟨_, hrun'⟩
    · intro hne
      exact ((updateSchedDataRr_task (tickCount s) _).2).trans (hrun hne)
    · exact hrun'

end Scheduling

section Blocking
variable {s : Sched} {ls : Queue → List Slot}

/-- The PCB table and queues right before `sys_block` calls the scheduler. -/
def enqueuedBlocked (s : Sched) (q : Heap QNode) : Sched :=
  { s with queues := q }.setTask s.current fun p => { p with state := .blocked }

theorem mem_addTail (ls : Queue → List Slot) (d : Queue) (t : Slot) {q : Queue} {u : Slot} :
    u ∈ Function.update ls d (ls d ++ [t]) q ↔ u ∈ ls q ∨ (q = d ∧ u = t) := by
  by_cases hq : q = d
  · subst hq
    simp
  · simp [hq]

theorem enqueuedBlocked_inv (h : QueueInv s ls) (hu : s.current ≠ s.idleTask)
    (hp : s.pcb.pendingUnblocks = 0) {q : Heap QNode}
    (hr : Queues q (Function.update ls .blocked (ls .blocked ++ [s.current]))) :
    QueueInv (enqueuedBlocked s q) (Function.update ls .blocked (ls .blocked ++ [s.current])) := by
  have hready : s.current ∉ ls .readyqueue := h.current_out _ (by decide)
  refine ⟨⟨hr, ?_, ?_, ?_, ?_, ?_, ?_⟩, ?_⟩
  · intro q hm
    rcases (mem_addTail ls _ _).mp hm with hm | ⟨_, he⟩
    · exact h.idle_out q hm
    · exact hu he.symm
  · change ((enqueuedBlocked s q).task s.idleTask).pid = 0
    rw [enqueuedBlocked, Sched.setTask_other _ _ _ (Ne.symm hu)]
    exact h.idle_pid
  · intro t
    rw [mem_addTail]
    by_cases ht : t = s.current
    · subst ht
      simp [enqueuedBlocked]
    · rw [enqueuedBlocked, Sched.setTask_other _ _ _ ht]
      simp [ht, h.blocked_iff t]
  · intro t hm
    by_cases ht : t = s.current
    · subst ht
      simp only [enqueuedBlocked, Sched.setTask_same]
      exact hp
    · rw [enqueuedBlocked, Sched.setTask_other _ _ _ ht]
      exact h.blocked_pending t (((mem_addTail ls _ _).mp hm).resolve_right fun hm => ht hm.2)
  · intro t hm
    rw [Function.update_of_ne (by decide)] at hm
    have ht : t ≠ s.current := fun he => hready (he ▸ hm)
    rw [enqueuedBlocked, Sched.setTask_other _ _ _ ht]
    exact h.ready_state t hm
  · intro t hm
    rw [Function.update_of_ne (by decide)] at hm
    by_cases ht : t = s.current
    · subst ht
      simp only [enqueuedBlocked, Sched.setTask_same]
      exact h.dir _ hm
    · rw [enqueuedBlocked, Sched.setTask_other _ _ _ ht]
      exact h.dir t hm
  · intro q hq
    rw [Function.update_of_ne hq]
    exact h.current_out q hq

theorem sysBlock_spec (h : QueueInv s ls) (hu : s.current ≠ s.idleTask)
    (hs : s.pcb.state ≠ .blocked) :
    (s.pcb.pendingUnblocks ≠ 0 ∧ sysBlock s = .ok (s.setTask s.current fun p =>
      { p with pendingUnblocks := int32 (p.pendingUnblocks - 1) })) ∨
    (s.pcb.pendingUnblocks = 0 ∧ ∃ q s' ls', sysBlock s = .ok s' ∧
      QueueInv (enqueuedBlocked s q) (Function.update ls .blocked (ls .blocked ++ [s.current])) ∧
      QueueInv s' ls' ∧
      Moves (enqueuedBlocked s q) s' (Function.update ls .blocked (ls .blocked ++ [s.current])) ls' ∧
      (needsSchedRr (updateSchedDataRr (enqueuedBlocked s q)) = true →
        s'.current ≠ s'.idleTask → s'.pcb.state = .run)) := by
  by_cases hp : s.pcb.pendingUnblocks = 0
  · obtain ⟨q, hok, hr⟩ := h.rings.addTail .blocked (h.current_notMem hs)
    have hinv := enqueuedBlocked_inv h hu hp hr
    obtain ⟨s', ls', hsch, hinv', hm, hcase⟩ := schedule_spec hinv
    refine .inr ⟨hp, q, s', ls', ?_, hinv, hinv', hm, ?_⟩
    · unfold sysBlock
      rw [if_pos hp, hok, ok_bind]
      exact hsch
    · intro hn
      rcases hcase with ⟨hf, _⟩ | ⟨_, hrun⟩
      · rw [hn] at hf
        cases hf
      · exact hrun
  · exact .inl ⟨hp, by simp [sysBlock, hp]⟩

end Blocking

section Unblocking
variable {s : Sched} {ls : Queue → List Slot} {son : Slot}

/-- The lists after `son` was moved from `blocked` to the end of the ready queue. -/
def wokenLists (ls : Queue → List Slot) (son : Slot) : Queue → List Slot :=
  Function.update (Function.update ls .blocked ((ls .blocked).erase son)) .readyqueue
    (ls .readyqueue ++ [son])

theorem mem_wokenLists (hr : Queues s.queues ls) {q : Queue} {t : Slot} (hson : son ∈ ls .blocked) :
    t ∈ wokenLists ls son q ↔ (t ∈ ls q ∧ t ≠ son) ∨ (q = .readyqueue ∧ t = son) := by
  apply Rings.mem_moved hr trivial trivial (by decide) hson

theorem QueueInv.setPending {t : Slot} (h : QueueInv s ls) (hb : (s.task t).state ≠ .blocked)
    (v : Int) : QueueInv (s.setTask t fun p => { p with pendingUnblocks := v }) ls := by
  have hsame : ∀ u, ((s.setTask t fun p => { p with pendingUnblocks := v }).task u).state =
      (s.task u).state ∧ ((s.setTask t fun p => { p with pendingUnblocks := v }).task u).pid =
      (s.task u).pid ∧ ((s.setTask t fun p => { p with pendingUnblocks := v }).task u).dirPagesBaseAddr =
      (s.task u).dirPagesBaseAddr := by
    intro u
    rw [Sched.setTask_task]
    by_cases hu : u = t
    · subst hu
      simp
    · simp [hu]
  refine ⟨h.toQueueCore.congr rfl rfl ((hsame _).2.1.trans h.idle_pid) (fun u => (hsame u).1)
    (fun u => (hsame u).2.2) ?_, h.current_out⟩
  intro u hu
  have hne : u ≠ t := fun he => hb (he ▸ (h.blocked_iff u).mp hu)
  rw [Sched.setTask_other _ _ _ hne]
  exact h.blocked_pending u hu

/-- Waking a blocked son, or leaving it an unblock to spend later. -/
theorem unblockSon_spec (h : QueueInv s ls) (hc : s.pcb.state ≠ .blocked) :
    ((s.task son).state ≠ .blocked ∧ unblockSon s son = .ok (s.setTask son fun p =>
      { p with pendingUnblocks := int32 (p.pendingUnblocks + 1) })) ∨
    ((s.task son).state = .blocked ∧ ∃ q, unblockSon s son = .ok
        ({ s with queues := q }.setTask son fun p => { p with state := .ready, pendingUnblocks := 0 }) ∧
      QueueInv ({ s with queues := q }.setTask son fun p =>
        { p with state := .ready, pendingUnblocks := 0 }) (wokenLists ls son)) := by
  by_cases hb : (s.task son).state = .blocked
  · refine .inr ⟨hb, ?_⟩
    have hson := (h.blocked_iff son).mpr hb
    have hne : son ≠ s.current := by
      rintro rfl
      exact hc hb
    obtain ⟨q₁, q₂, hok₁, hok₂, hr₂⟩ := h.rings.move (p := .readyqueue) (by decide) hson
    have hin : ∀ {q t}, _ := fun {q t} => mem_wokenLists (q := q) (t := t) h.rings hson
    refine ⟨q₂, ?_, ⟨⟨hr₂, ?_, ?_, ?_, ?_, ?_, ?_⟩, ?_⟩⟩
    · unfold unblockSon
      rw [if_pos hb]
      simp only [Sched.setTask_queues, hok₁, ok_bind, hok₂]
      rfl
    · intro q hm
      rcases hin.mp hm with hm | ⟨_, he⟩
      · exact h.idle_out q hm.1
      · exact h.idle_out .blocked ((show s.idleTask = son from he) ▸ hson)
    · have hi : s.idleTask ≠ son := fun he => h.idle_out .blocked (he ▸ hson)
      change (Sched.task _ s.idleTask).pid = 0
      rw [Sched.setTask_other _ _ _ hi]
      exact h.idle_pid
    · intro t
      rw [hin]
      by_cases ht : t = son
      · subst ht
        simp
      · rw [Sched.setTask_other _ _ _ ht]
        simp [ht, h.blocked_iff t]
    · intro t hm
      by_cases ht : t = son
      · subst ht
        simp
      · rw [Sched.setTask_other _ _ _ ht]
        exact h.blocked_pending t ((hin.mp hm).resolve_right fun hm => ht hm.2).1
    · intro t hm
      by_cases ht : t = son
      · subst ht
        simp
      · rw [Sched.setTask_other _ _ _ ht]
        exact h.ready_state t ((hin.mp hm).resolve_right fun hm => ht hm.2).1
    · intro t hm
      by_cases ht : t = son
      · subst ht
        rw [Sched.setTask_same]
        refine h.dir t fun hf => ?_
        cases h.rings.unique hf hson
      · rw [Sched.setTask_other _ _ _ ht]
        exact h.dir t fun hf => hm (hin.mpr (.inl ⟨hf, ht⟩))
    · intro q hq hm
      rcases hin.mp hm with hm | ⟨_, he⟩
      · exact h.current_out q hq hm.1
      · exact hne he.symm
  · exact .inl ⟨hb, by simp [unblockSon, hb]⟩

end Unblocking

section Forking
variable {s s' : Sched} {ls : Queue → List Slot} {child : Slot} {rest : List Slot}

/-- The process table after `sys_fork` took `child` and copied the PCB of its
parent: the links of the copy are those of the parent. -/
def forked (s : Sched) (child : Slot) (q : Heap QNode) : Sched :=
  allocateDIR (copyTaskUnion { s with queues := q } s.current child) child

@[simp] theorem forked_current (q : Heap QNode) : (forked s child q).current = s.current := rfl
@[simp] theorem forked_idleTask (q : Heap QNode) : (forked s child q).idleTask = s.idleTask := rfl
@[simp] theorem forked_nextPid (q : Heap QNode) : (forked s child q).nextPid = s.nextPid := rfl

@[simp] theorem forked_child (q : Heap QNode) :
    (forked s child q).task child = { s.task s.current with dirPagesBaseAddr := some child } := by
  simp [forked, allocateDIR, copyTaskUnion]

theorem forked_other (q : Heap QNode) {t : Slot} (ht : t ≠ child) :
    (forked s child q).task t = s.task t := by
  simp [forked, allocateDIR, copyTaskUnion, ht]

theorem mem_takeFree (hr : Queues s.queues ls) (hf : ls .freequeue = child :: rest) {q : Queue}
    {t : Slot} : t ∈ Function.update ls .freequeue rest q ↔ t ∈ ls q ∧ t ≠ child := by
  have hnd := hr.nodup (i := .freequeue) trivial
  have hchild : child ∈ ls .freequeue := by rw [hf]; exact List.mem_cons_self
  by_cases hq : q = .freequeue
  · subst hq
    rw [Function.update_self, hf]
    rw [hf] at hnd
    have hnot := (List.nodup_cons.mp hnd).1
    constructor
    · intro hm
      exact ⟨List.mem_cons_of_mem _ hm, fun he => hnot (he ▸ hm)⟩
    · rintro ⟨hm, hne⟩
      exact (List.mem_cons.mp hm).resolve_left hne
  · rw [Function.update_of_ne hq]
    constructor
    · intro hm
      exact ⟨hm, fun he => hq (hr.unique hm (he ▸ hchild))⟩
    · exact fun hm => hm.1

theorem forkTake_spec (h : QueueInv s ls) (hs : s.pcb.state ≠ .blocked)
    (hf : ls .freequeue = child :: rest) :
    ∃ q, forkTake s = .ok (child, forked s child q) ∧
      QueueInv (forked s child q) (Function.update ls .freequeue rest) ∧
      (∀ q, child ∉ Function.update ls .freequeue rest q) ∧
      child ≠ s.current ∧ child ≠ s.idleTask := by
  have hchild : child ∈ ls .freequeue := by rw [hf]; exact List.mem_cons_self
  have hcur : child ≠ s.current := fun he => h.current_out .freequeue (by decide) (he ▸ hchild)
  have hidle : child ≠ s.idleTask := fun he => h.idle_out .freequeue (he ▸ hchild)
  obtain ⟨q, hok, hr⟩ := h.rings.del hchild
  rw [hf, List.erase_cons_head] at hr
  have hin : ∀ {q t}, _ := fun {q t} => mem_takeFree (q := q) (t := t) h.rings hf
  have hout : ∀ q, child ∉ Function.update ls .freequeue rest q := fun q hm => (hin.mp hm).2 rfl
  refine ⟨q, ?_, ⟨⟨?_, ?_, ?_, ?_, ?_, ?_, ?_⟩, ?_⟩, hout, hcur, hidle⟩
  · unfold forkTake takeFree
    rw [h.rings.first hf]
    simp only [deref, ok_bind, hok, listHeadToTaskStruct, pure_eq_ok]
    rfl
  · exact hr.update_unlinked hout _
  · exact fun q hm => h.idle_out q (hin.mp hm).1
  · change ((forked s child q).task s.idleTask).pid = 0
    rw [forked_other q hidle.symm]
    exact h.idle_pid
  · intro t
    rw [hin]
    by_cases ht : t = child
    · subst ht
      have : (s.task s.current).state ≠ .blocked := hs
      simp [this]
    · rw [forked_other q ht]
      simp [ht, h.blocked_iff t]
  · intro t hm
    rw [forked_other q (hin.mp hm).2]
    exact h.blocked_pending t (hin.mp hm).1
  · intro t hm
    rw [forked_other q (hin.mp hm).2]
    exact h.ready_state t (hin.mp hm).1
  · intro t hm
    by_cases ht : t = child
    · subst ht
      simp
    · rw [forked_other q ht]
      exact h.dir t fun hm' => hm (hin.mpr ⟨hm', ht⟩)
  · exact fun q hq hm => h.current_out q hq (hin.mp hm).1

/-- The PCB that `sys_fork` leaves to the child `c` of `p`. -/
def childPcb (s : Sched) (p : TaskStruct) : TaskStruct :=
  { p with pid := s.nextPid, nrTicks := 0, state := .ready, pendingUnblocks := 0,
           parent := some s.current }

def linkedChild (s : Sched) (child : Slot) (q : Heap QNode) (f : Heap FNode) : Sched :=
  { s with
    nextPid := int32 (s.nextPid + 1)
    task := Function.update s.task child (childPcb s (s.task child))
    queues := q
    family := f }

theorem linkedChild_other (q : Heap QNode) (f : Heap FNode) {t : Slot} (ht : t ≠ child) :
    (linkedChild s child q f).task t = s.task t := by
  simp [linkedChild, ht]

theorem forkLink_eq_ok {r : Int} (h : forkLink s child = .ok (r, s')) :
    ∃ q f, listAddTail s.queues (.node child) (.head .readyqueue) = .ok q ∧
      listAddTail (initListHead s.family (.sons child)) (.bros child) (.sons s.current) = .ok f ∧
      r = s.nextPid ∧ s' = linkedChild s child q f := by
  unfold forkLink at h
  obtain ⟨q, hq, h⟩ := bind_eq_ok.mp h
  obtain ⟨f, hf, h⟩ := bind_eq_ok.mp h
  cases h
  refine ⟨q, f, hq, hf, rfl, ?_⟩
  unfold linkedChild Sched.setTask childPcb
  simp

theorem linkedChild_inv (h : QueueInv s ls) (hout : ∀ q, child ∉ ls q) (hcur : child ≠ s.current)
    (hidle : child ≠ s.idleTask) {q : Heap QNode}
    (hq : listAddTail s.queues (.node child) (.head .readyqueue) = .ok q) (f : Heap FNode) :
    QueueInv (linkedChild s child q f)
      (Function.update ls .readyqueue (ls .readyqueue ++ [child])) := by
  obtain ⟨q', hok, hr⟩ := h.rings.addTail .readyqueue hout
  rw [hq] at hok
  cases hok
  have hin : ∀ {q t}, _ := fun {q t} => mem_addTail ls .readyqueue child (q := q) (u := t)
  refine ⟨⟨hr, ?_, ?_, ?_, ?_, ?_, ?_⟩, ?_⟩
  · intro q hm
    rcases hin.mp hm with hm | ⟨_, he⟩
    · exact h.idle_out q hm
    · exact hidle he.symm
  · change ((linkedChild s child q f).task s.idleTask).pid = 0
    rw [linkedChild_other q f hidle.symm]
    exact h.idle_pid
  · intro t
    rw [Function.update_of_ne (by decide)]
    by_cases ht : t = child
    · subst ht
      simp [linkedChild, childPcb, hout]
    · rw [linkedChild_other q f ht]
      exact h.blocked_iff t
  · intro t hm
    rw [Function.update_of_ne (by decide)] at hm
    have ht : t ≠ child := fun he => hout _ (he ▸ hm)
    rw [linkedChild_other q f ht]
    exact h.blocked_pending t hm
  · intro t hm
    by_cases ht : t = child
    · subst ht
      simp [linkedChild, childPcb]
    · rw [linkedChild_other q f ht]
      exact h.ready_state t ((hin.mp hm).resolve_right fun hm => ht hm.2)
  · intro t hm
    rw [Function.update_of_ne (by decide)] at hm
    by_cases ht : t = child
    · subst ht
      simp only [linkedChild, childPcb, Function.update_self]
      exact h.dir t hm
    · rw [linkedChild_other q f ht]
      exact h.dir t hm
  · intro q hq hm
    rcases hin.mp hm with hm | ⟨_, he⟩
    · exact h.current_out q hq hm
    · exact hcur he.symm

end Forking

/-- Only family links and parents differ. -/
structure FamilyOnly (s s' : Sched) : Prop where
  current : s'.current = s.current
  idleTask : s'.idleTask = s.idleTask
  queues : s'.queues = s.queues
  nextPid : s'.nextPid = s.nextPid
  task : ∀ t, ∃ p, s'.task t = { s.task t with parent := p }

section Exiting
variable {s s' : Sched} {ls : Queue → List Slot}

theorem FamilyOnly.trans {s'' : Sched} (h : FamilyOnly s s') (h' : FamilyOnly s' s'') :
    FamilyOnly s s'' where
  current := h'.current.trans h.current
  idleTask := h'.idleTask.trans h.idleTask
  queues := h'.queues.trans h.queues
  nextPid := h'.nextPid.trans h.nextPid
  task t := by
    obtain ⟨p, hp⟩ := h.task t
    obtain ⟨p', hp'⟩ := h'.task t
    exact ⟨p', by rw [hp', hp]⟩

theorem adopt_familyOnly {i : Slot} (h : adopt s i = .ok s') : FamilyOnly s s' := by
  unfold adopt at h
  split at h
  · cases h
    exact ⟨rfl, rfl, rfl, rfl, fun t => ⟨(s.task t).parent, rfl⟩⟩
  · obtain ⟨f, _, h⟩ := bind_eq_ok.mp h
    obtain ⟨f', _, h⟩ := bind_eq_ok.mp h
    cases h
    refine ⟨rfl, rfl, rfl, rfl, ?_⟩
    intro t
    by_cases ht : t = i
    · subst ht
      exact ⟨some s.idleTask, by simp⟩
    · exact ⟨(s.task t).parent, by simp [ht]⟩

def unnamed (s : Sched) : Sched := s.setTask s.current fun p => { p with pid := -1 }

theorem exitFamily_eq (s : Sched) :
    exitFamily s =
      (if s.pcb.pid ≠ 1 then listDel s.family (.bros s.current) else .ok s.family) >>= fun f =>
        (List.finRange nrTasks).foldlM adopt (unnamed { s with family := f }) := by
  unfold exitFamily
  split <;> rfl

theorem exitFamily_familyOnly (h : exitFamily s = .ok s') : FamilyOnly (unnamed s) s' := by
  rw [exitFamily_eq] at h
  obtain ⟨f, _, h⟩ := bind_eq_ok.mp h
  refine foldlM_preserves (FamilyOnly (unnamed s)) ?_ _ ?_ h
  · intro i t t' ht ha
    exact ht.trans (adopt_familyOnly ha)
  · exact ⟨rfl, rfl, rfl, rfl, fun t => ⟨((unnamed s).task t).parent, rfl⟩⟩

theorem FamilyOnly.queueInv (hf : FamilyOnly s s') (h : QueueInv s ls) : QueueInv s' ls := by
  refine ⟨h.toQueueCore.congr hf.queues hf.idleTask ?_ ?_ ?_ ?_, ?_⟩
  · obtain ⟨p, hp⟩ := hf.task s.idleTask
    rw [hp]
    exact h.idle_pid
  · intro t
    obtain ⟨p, hp⟩ := hf.task t
    rw [hp]
  · intro t
    obtain ⟨p, hp⟩ := hf.task t
    rw [hp]
  · intro t ht
    obtain ⟨p, hp⟩ := hf.task t
    rw [hp]
    exact h.blocked_pending t ht
  · rw [hf.current]
    exact h.current_out

theorem unnamed_queueInv (h : QueueInv s ls) (hu : s.current ≠ s.idleTask) :
    QueueInv (unnamed s) ls := by
  have hsame : ∀ t, ((unnamed s).task t).state = (s.task t).state ∧
      ((unnamed s).task t).dirPagesBaseAddr = (s.task t).dirPagesBaseAddr ∧
      ((unnamed s).task t).pendingUnblocks = (s.task t).pendingUnblocks := by
    intro t
    rw [unnamed, Sched.setTask_task]
    by_cases ht : t = s.current
    · subst ht
      simp
    · simp [ht]
  refine ⟨h.toQueueCore.congr rfl rfl ?_ (fun t => (hsame t).1) (fun t => (hsame t).2.1) ?_,
    h.current_out⟩
  · rw [unnamed, Sched.setTask_other _ _ _ hu.symm]
    exact h.idle_pid
  · intro t ht
    rw [(hsame t).2.2]
    exact h.blocked_pending t ht

def retired (s : Sched) (q : Heap QNode) : Sched :=
  { s with queues := q }.setTask s.current fun p =>
    { p with state := .zombie, dirPagesBaseAddr := none }

def retiredLists (s : Sched) (ls : Queue → List Slot) : Queue → List Slot :=
  Function.update ls .freequeue (ls .freequeue ++ [s.current])

theorem retired_core (h : QueueInv s ls) (hu : s.current ≠ s.idleTask)
    (hs : s.pcb.state ≠ .blocked) {q : Heap QNode} (hr : Queues q (retiredLists s ls)) :
    QueueCore (retired s q) (retiredLists s ls) := by
  have hin : ∀ {q t}, _ := fun {q t} => mem_addTail ls .freequeue s.current (q := q) (u := t)
  refine ⟨hr, ?_, ?_, ?_, ?_, ?_, ?_⟩
  · intro q hm
    rcases hin.mp hm with hm | ⟨_, he⟩
    · exact h.idle_out q hm
    · exact hu he.symm
  · change ((retired s q).task s.idleTask).pid = 0
    rw [retired, Sched.setTask_other _ _ _ hu.symm]
    exact h.idle_pid
  · intro t
    rw [retiredLists, Function.update_of_ne (by decide)]
    by_cases ht : t = s.current
    · subst ht
      simp [retired, h.current_notMem hs]
    · rw [retired, Sched.setTask_other _ _ _ ht]
      exact h.blocked_iff t
  · intro t hm
    rw [retiredLists, Function.update_of_ne (by decide)] at hm
    have ht : t ≠ s.current := fun he => h.current_notMem hs _ (he ▸ hm)
    rw [retired, Sched.setTask_other _ _ _ ht]
    exact h.blocked_pending t hm
  · intro t hm
    rw [retiredLists, Function.update_of_ne (by decide)] at hm
    have ht : t ≠ s.current := fun he => h.current_notMem hs _ (he ▸ hm)
    rw [retired, Sched.setTask_other _ _ _ ht]
    exact h.ready_state t hm
  · intro t hm
    have ht : t ≠ s.current := fun he => hm (hin.mpr (.inr ⟨rfl, he⟩))
    rw [retired, Sched.setTask_other _ _ _ ht]
    exact h.dir t fun hf => hm (hin.mpr (.inl hf))

theorem exitSched_spec (h : QueueInv s ls) (hu : s.current ≠ s.idleTask)
    (hs : s.pcb.state ≠ .blocked) (hp : s.pcb.pid = -1) :
    ∃ q s' ls', exitSched s = .ok s' ∧ QueueInv s' ls' ∧
      Moves (retired s q) s' (retiredLists s ls) ls' ∧
      (s'.current ≠ s'.idleTask → s'.pcb.state = .run) := by
  obtain ⟨q, hok, hr⟩ := updateProcessStateRr_current h.rings (h.current_notMem hs) .freequeue .zombie
  have hcore := retired_core h hu hs hr
  have hpid : (retired s q).pcb.pid = -1 := by
    change ((retired s q).task s.current).pid = -1
    rw [retired, Sched.setTask_same]
    exact hp
  have hready : (retired s q).current ∉ retiredLists s ls .readyqueue := by
    rw [retiredLists, Function.update_of_ne (by decide)]
    exact h.current_out _ (by decide)
  have hnot : ¬ Requeues (retired s q) := by
    intro hq
    have := hq.1
    omega
  obtain ⟨s', ls', hnext, hinv, hm, hrun⟩ := schedNextRr_spec hcore hready
    (fun hq => absurd hq hnot) (fun _ hp' => absurd hp' (by omega))
  refine ⟨q, s', ls', ?_, hinv, hm, hrun⟩
  unfold exitSched
  rw [hok, ok_bind, ← hnext]
  congr 1
  simp [retired, Sched.setTask]

end Exiting

end Zeos
