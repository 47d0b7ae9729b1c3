import Zeos.BootMemory

/-!
# The kernel invariant

The queues, the frames and who has data pages: free PCBs and idle have none, and
a process that can run has all of them. One lemma for each kind of step says what
it does to both halves of the kernel, and that the invariant survives.
-/

namespace Zeos

open LinkedRings Loops Holders
set_option autoImplicit false

structure KernelInv (useCow : Bool) (k : Kernel) (ls : Queue → List Slot) : Prop where
  queues : QueueInv k.sched ls
  frames : FrameInv useCow k.mm
  vacant : ∀ t, t ∈ ls .freequeue ∨ t = k.sched.idleTask → ∀ p, DataPage p →
    k.mm.pagusrTable t p = .zero
  full : ∀ t, Runnable k.sched ls t → ∀ p, DataPage p ∨ CodePage p → k.mm.pagusrTable t p ≠ .zero

/-- Nobody is born or dies: page tables, PIDs and the family tree stay. -/
structure SameRoles (s s' : Sched) (ls ls' : Queue → List Slot) : Prop where
  idleTask : s'.idleTask = s.idleTask
  family : s'.family = s.family
  nextPid : s'.nextPid = s.nextPid
  free : ls' .freequeue = ls .freequeue
  runnable : ∀ t, Runnable s' ls' t → Runnable s ls t
  kept : ∀ t, 0 < (s.task t).pid → (t = s.current ∨ ∃ q, t ∈ ls q) →
    (t = s'.current ∨ ∃ q, t ∈ ls' q)
  pid : ∀ t, (s'.task t).pid = (s.task t).pid
  parent : ∀ t, (s'.task t).parent = (s.task t).parent

section SchedSteps
variable {s s' : Sched} {ls : Queue → List Slot}

theorem Moves.roles {ls' : Queue → List Slot} (h : Moves s s' ls ls') : SameRoles s s' ls ls' :=
  ⟨h.idleTask, h.family, h.nextPid, h.free, h.runnable, h.kept, fun t => (h.task t).pid,
    fun t => (h.task t).parent⟩

theorem SameRoles.refl (s : Sched) (ls : Queue → List Slot) : SameRoles s s ls ls :=
  ⟨rfl, rfl, rfl, rfl, fun _ h => h, fun _ _ h => h, fun _ => rfl, fun _ => rfl⟩

theorem setTask_field {α : Type} (g : TaskStruct → α) {t : Slot} {f : TaskStruct → TaskStruct}
    (hf : ∀ p, g (f p) = g p) (u : Slot) : g ((s.setTask t f).task u) = g (s.task u) := by
  by_cases hu : u = t
  · rw [hu, Sched.setTask_same]
    exact hf _
  · rw [Sched.setTask_other _ _ _ hu]

theorem SameRoles.trans {s'' : Sched} {ls' ls'' : Queue → List Slot} (h : SameRoles s s' ls ls')
    (h' : SameRoles s' s'' ls' ls'') : SameRoles s s'' ls ls'' :=
  ⟨h'.idleTask.trans h.idleTask, h'.family.trans h.family, h'.nextPid.trans h.nextPid,
    h'.free.trans h.free, fun t ht => h.runnable t (h'.runnable t ht),
    fun t hp ht => h'.kept t (by rw [h.pid]; exact hp) (h.kept t hp ht),
    fun t => (h'.pid t).trans (h.pid t), fun t => (h'.parent t).trans (h.parent t)⟩

theorem setPending_roles (t : Slot) (v : TaskStruct → Int) :
    SameRoles s (s.setTask t fun p => { p with pendingUnblocks := v p }) ls ls :=
  ⟨rfl, rfl, rfl, rfl, fun _ h => h, fun _ _ h => h, setTask_field (·.pid) (by intro _; rfl),
    setTask_field (·.parent) (by intro _; rfl)⟩

theorem clkRoutine_roles (h : QueueInv s ls) (hok : clkRoutine s = .ok s') :
    ∃ ls', QueueInv s' ls' ∧ SameRoles s s' ls ls' := by
  obtain ⟨s₁, ls', hok', hinv, hm, _⟩ := clkRoutine_spec h
  rw [hok] at hok'
  cases hok'
  exact ⟨ls', hinv, hm.roles⟩

theorem enqueuedBlocked_roles (hu : s.current ≠ s.idleTask) (q : Heap QNode) :
    SameRoles s (enqueuedBlocked s q) ls
      (Function.update ls .blocked (ls .blocked ++ [s.current])) := by
  refine ⟨rfl, rfl, rfl, rfl, ?_, ?_, setTask_field (s := { s with queues := q }) (·.pid) (by intro _; rfl),
    setTask_field (s := { s with queues := q }) (·.parent) (by intro _; rfl)⟩
  · rintro t ⟨hi, ht | ht | ht⟩
    · exact ⟨hi, .inl ht⟩
    · rw [Function.update_of_ne (by decide)] at ht
      exact ⟨hi, .inr (.inl ht)⟩
    · rcases (mem_addTail ls _ _).mp ht with ht | ⟨_, rfl⟩
      · exact ⟨hi, .inr (.inr ht)⟩
      · exact ⟨hu, .inl rfl⟩
  · rintro t _ (ht | ⟨p, hp⟩)
    · exact .inl ht
    · exact .inr ⟨p, (mem_addTail ls _ _).mpr (.inl hp)⟩

theorem sysBlock_roles (h : QueueInv s ls) (hu : s.current ≠ s.idleTask)
    (hs : s.pcb.state ≠ .blocked) (hok : sysBlock s = .ok s') :
    ∃ ls', QueueInv s' ls' ∧ SameRoles s s' ls ls' := by
  rcases sysBlock_spec h hu hs with ⟨_, hok'⟩ | ⟨_, q, s₁, ls', hok', _, hinv, hm, _⟩
  · rw [hok] at hok'
    cases hok'
    exact ⟨ls, h.setPending hs _, setPending_roles _ _⟩
  · rw [hok] at hok'
    cases hok'
    exact ⟨ls', hinv, (enqueuedBlocked_roles hu q).trans hm.roles⟩

theorem sysUnblock_roles (h : QueueInv s ls) (hs : s.pcb.state ≠ .blocked) {pid r : Int}
    (hok : sysUnblock s pid = .ok (r, s')) : ∃ ls', QueueInv s' ls' ∧ SameRoles s s' ls ls' := by
  rcases sysUnblock_eq_ok hok with ⟨_, rfl⟩ | ⟨_, son, hson, _⟩
  · exact ⟨ls, h, .refl _ ls⟩
  · rcases unblockSon_spec h hs with ⟨hb, hok'⟩ | ⟨hb, q, hok', hinv⟩
    · rw [hson] at hok'
      cases hok'
      exact ⟨ls, h.setPending hb _, setPending_roles _ _⟩
    · rw [hson] at hok'
      cases hok'
      have hmem := (h.blocked_iff son).mpr hb
      refine ⟨_, hinv, rfl, rfl, rfl, by simp [wokenLists], ?_, ?_,
        setTask_field (s := { s with queues := q }) (·.pid) (by intro _; rfl),
        setTask_field (s := { s with queues := q }) (·.parent) (by intro _; rfl)⟩
      · rintro t ⟨hi, ht | ht | ht⟩
        · exact ⟨hi, .inl ht⟩
        · rcases (mem_wokenLists h.rings hmem).mp ht with ht | ⟨_, rfl⟩
          · exact ⟨hi, .inr (.inl ht.1)⟩
          · exact ⟨hi, .inr (.inr hmem)⟩
        · rcases (mem_wokenLists h.rings hmem).mp ht with ht | ⟨hq, _⟩
          · exact ⟨hi, .inr (.inr ht.1)⟩
          · cases hq
      · rintro t _ (ht | ⟨p, hp⟩)
        · exact .inl ht
        · refine .inr ?_
          by_cases hts : t = son
          · exact ⟨.readyqueue, (mem_wokenLists h.rings hmem).mpr (.inr ⟨rfl, hts⟩)⟩
          · exact ⟨p, (mem_wokenLists h.rings hmem).mpr (.inl ⟨hp, hts⟩)⟩

theorem QueueInv.free_not_runnable (h : QueueInv s ls) {t : Slot} (ht : t ∈ ls .freequeue) :
    ¬ Runnable s ls t := by
  rintro ⟨_, hc | hc | hc⟩
  · exact h.current_out .freequeue (by decide) (hc ▸ ht)
  · cases h.rings.unique hc ht
  · cases h.rings.unique hc ht

theorem runnable_of_taken {child t : Slot} {rest : List Slot} {q : Heap QNode}
    (hr : Queues s.queues ls) (hf : ls .freequeue = child :: rest)
    (ht : Runnable (forked s child q) (Function.update ls .freequeue rest) t) : Runnable s ls t := by
  refine ⟨ht.1, ?_⟩
  rcases ht.2 with ht | ht | ht
  · exact .inl ht
  · exact .inr (.inl ((mem_takeFree hr hf).mp ht).1)
  · exact .inr (.inr ((mem_takeFree hr hf).mp ht).1)

theorem runnable_of_linked {child t : Slot} {rest : List Slot} {q q' : Heap QNode} {f : Heap FNode}
    (hr : Queues s.queues ls) (hf : ls .freequeue = child :: rest) (htc : t ≠ child)
    (ht : Runnable (linkedChild (forked s child q) child q' f) (forkedLists ls child rest) t) :
    Runnable s ls t := by
  refine ⟨ht.1, ?_⟩
  rcases ht.2 with ht | ht | ht
  · exact .inl ht
  · rcases (mem_forkedLists hr hf).mp ht with ht | ⟨_, ht⟩
    · exact .inr (.inl ht.1)
    · exact absurd ht htc
  · rcases (mem_forkedLists hr hf).mp ht with ht | ⟨hc, _⟩
    · exact .inr (.inr ht.1)
    · cases hc

theorem retired_roles {s₁ s₂ : Sched} {q : Heap QNode} {ls' : Queue → List Slot}
    (hfam : FamilyOnly (unnamed s) s₁) (hinv : QueueInv s₂ ls')
    (hmv : Moves (retired s₁ q) s₂ (retiredLists s ls) ls') :
    s₂.idleTask = s.idleTask ∧ ls' .freequeue = ls .freequeue ++ [s.current] ∧
      ∀ t, Runnable s₂ ls' t → Runnable s ls t ∧ t ≠ s.current := by
  have hidle : s₂.idleTask = s.idleTask := hmv.idleTask.trans hfam.idleTask
  have hcur : s₁.current = s.current := hfam.current
  have hfree : ls' .freequeue = ls .freequeue ++ [s.current] := by
    rw [hmv.free]
    simp [retiredLists]
  refine ⟨hidle, hfree, ?_⟩
  intro t ht
  have htc : t ≠ s.current := by
    rintro rfl
    exact hinv.free_not_runnable (by simp [hfree]) ht
  obtain ⟨hti, ht'⟩ := hmv.runnable t ht
  refine ⟨⟨by rw [← hidle]; exact ht.1, ?_⟩, htc⟩
  rcases ht' with ht' | ht' | ht'
  · exact absurd (ht'.trans hcur) htc
  · rw [retiredLists, Function.update_of_ne (by decide)] at ht'
    exact .inr (.inl ht')
  · rw [retiredLists, Function.update_of_ne (by decide)] at ht'
    exact .inr (.inr ht')

end SchedSteps

theorem Repaired.zero_iff {useCow : Bool} {m m' : Mm} {t : Slot} {p : Nat}
    (h : Repaired useCow m m' t p) (u : Slot) (q : Nat) :
    m'.pagusrTable u q = .zero ↔ m.pagusrTable u q = .zero := by
  by_cases hc : u = t ∧ q = p
  · rw [hc.1, hc.2]
    exact ⟨fun hz => absurd hz h.now.1, fun hz => absurd hz h.was.1⟩
  · rw [h.other u q hc]

namespace KernelInv
variable {useCow : Bool} {k : Kernel} {ls : Queue → List Slot}

theorem roles {s' : Sched} {ls' : Queue → List Slot} (h : KernelInv useCow k ls)
    (hq : QueueInv s' ls') (hr : SameRoles k.sched s' ls ls') : KernelInv useCow ⟨s', k.mm⟩ ls' where
  queues := hq
  frames := h.frames
  vacant := by
    intro t ht
    rw [hr.free, hr.idleTask] at ht
    exact h.vacant t ht
  full t ht := h.full t (hr.runnable t ht)

theorem mem {m' : Mm} (h : KernelInv useCow k ls) (hf : FrameInv useCow m')
    (hz : ∀ u q, DataPage q ∨ CodePage q → (m'.pagusrTable u q = .zero ↔ k.mm.pagusrTable u q = .zero)) :
    KernelInv useCow ⟨k.sched, m'⟩ ls where
  queues := h.queues
  frames := hf
  vacant t ht p hp := (hz t p (.inl hp)).mpr (h.vacant t ht p hp)
  full t ht p hp := fun he => h.full t ht p hp ((hz t p hp).mp he)

theorem current_runnable (hu : UserRuns k) : Runnable k.sched ls k.sched.current :=
  ⟨hu, .inl rfl⟩

theorem getPT_current (h : KernelInv useCow k ls) : getPT k.sched k.sched.current = .ok k.sched.current :=
  h.queues.getPT_current

theorem child_empty (h : KernelInv useCow k ls) {child : Slot} {rest : List Slot}
    (hf : ls .freequeue = child :: rest) : ∀ p, DataPage p → k.mm.pagusrTable child p = .zero :=
  h.vacant child (.inl (by rw [hf]; exact List.mem_cons_self))

theorem forkMemory_cases (h : KernelInv useCow k ls) (hu : UserRuns k) {child : Slot}
    {rest : List Slot} (hf : ls .freequeue = child :: rest) (hne : child ≠ k.sched.current) :
    (∃ m', forkMemory useCow k.mm k.sched.current child = .ok (m', true) ∧
      Inherits useCow k.mm m' k.sched.current child ∧
      (useCow = false → numPagData ≤ (freeRegion k.mm k.sched.current).card)) ∨
    (useCow = false ∧ (freeRegion k.mm k.sched.current).card < numPagData ∧ ∃ m',
      forkMemory useCow k.mm k.sched.current child = .ok (m', false) ∧ Leaked k.mm m' child) := by
  have hfull := fun p hp => h.full _ (current_runnable hu) p (.inl hp)
  cases useCow with
  | true =>
    obtain ⟨hok, hin⟩ := cow_inherits h.frames hne.symm hfull (h.child_empty hf)
    exact .inl ⟨_, hok, hin, fun hc => Bool.noConfusion hc⟩
  | false =>
    rcases eager_cases h.frames hne.symm hfull (h.child_empty hf) with ⟨hc, m', hok, hin⟩ | ⟨hc, m', hok, hl⟩
    · exact .inl ⟨m', hok, hin, fun _ => hc⟩
    · exact .inr ⟨rfl, hc, m', hok, hl⟩

theorem runnable_of_forked {child t : Slot} {rest : List Slot} {q q' : Heap QNode} {f : Heap FNode}
    (h : KernelInv useCow k ls) (hf : ls .freequeue = child :: rest) (htc : t ≠ child)
    (ht : Runnable (linkedChild (forked k.sched child q) child q' f) (forkedLists ls child rest) t) :
    Runnable k.sched ls t :=
  runnable_of_linked h.queues.rings hf htc ht

theorem forked {child : Slot} {rest : List Slot} {q q' : Heap QNode} {f : Heap FNode} {m' : Mm}
    (h : KernelInv useCow k ls) (hu : UserRuns k) (hf : ls .freequeue = child :: rest)
    (hcur : child ≠ k.sched.current)
    (hq : QueueInv (linkedChild (forked k.sched child q) child q' f) (forkedLists ls child rest))
    (hin : Inherits useCow k.mm m' k.sched.current child) :
    KernelInv useCow ⟨linkedChild (Zeos.forked k.sched child q) child q' f, m'⟩
      (forkedLists ls child rest) where
  queues := hq
  frames := hin.inv
  vacant := by
    intro t ht p hp
    have htc : t ≠ child := by
      rintro rfl
      rcases ht with ht | ht
      · rcases (mem_forkedLists h.queues.rings hf).mp ht with ht | ⟨hc, _⟩
        · exact ht.2 rfl
        · cases hc
      · exact h.queues.idle_out .freequeue (by
          rw [hf]
          exact List.mem_cons.mpr (.inl ht.symm))
    apply (hin.other_zero t p htc hp).mpr
    apply h.vacant t _ p hp
    rcases ht with ht | ht
    · rcases (mem_forkedLists h.queues.rings hf).mp ht with ht | ⟨hc, _⟩
      · exact .inl ht.1
      · cases hc
    · exact .inr ht
  full := by
    rintro t ⟨hti, ht⟩ p hp
    by_cases htc : t = child
    · subst htc
      rcases hp with hp | hp
      · exact hin.child_mapped p hp
      · rw [hin.child_code p hp]
        exact h.full _ (current_runnable hu) p (.inr hp)
    · have hrun : Runnable k.sched ls t := h.runnable_of_forked hf htc ⟨hti, ht⟩
      rcases hp with hp | hp
      · exact fun hz => h.full t hrun p (.inl hp) ((hin.other_zero t p htc hp).mp hz)
      · rw [hin.other_code t p htc hp]
        exact h.full t hrun p (.inr hp)

/-- A fork that ran out of pages: the child is in no queue and never runs. -/
theorem leaked {child : Slot} {rest : List Slot} {q : Heap QNode} {m' : Mm}
    (h : KernelInv false k ls) (hf : ls .freequeue = child :: rest)
    (hidle : child ≠ k.sched.idleTask)
    (hout : ∀ q, child ∉ Function.update ls .freequeue rest q)
    (hq : QueueInv (Zeos.forked k.sched child q) (Function.update ls .freequeue rest))
    (hl : Leaked k.mm m' child) :
    KernelInv false ⟨Zeos.forked k.sched child q, m'⟩ (Function.update ls .freequeue rest) where
  queues := hq
  frames := hl.inv
  vacant := by
    intro t ht p hp
    have htc : t ≠ child := by
      rintro rfl
      rcases ht with ht | ht
      · exact hout _ ht
      · exact hidle ht
    rw [hl.other t p htc (.inl hp)]
    apply h.vacant t _ p hp
    rcases ht with ht | ht
    · exact .inl ((mem_takeFree h.queues.rings hf).mp ht).1
    · exact .inr ht
  full := by
    intro t ht p hp
    have hrun := runnable_of_taken h.queues.rings hf ht
    have htc : t ≠ child := by
      rintro rfl
      exact h.queues.free_not_runnable (by rw [hf]; exact List.mem_cons_self) hrun
    rw [hl.other t p htc hp]
    exact h.full t hrun p hp

/-- The ways through a completed `sys_fork`, with all that later modules need. -/
inductive ForkOutcome (useCow : Bool) (k : Kernel) (ls : Queue → List Slot) : Int → Kernel → Prop where
  | noPcb (hf : ls .freequeue = []) : ForkOutcome useCow k ls (-enomem) k
  | noPages {child : Slot} {rest : List Slot} {q : Heap QNode} {m' : Mm}
      (hc : useCow = false) (hf : ls .freequeue = child :: rest)
      (hcard : (freeRegion k.mm k.sched.current).card < numPagData) (hl : Leaked k.mm m' child)
      (hinv : KernelInv false ⟨Zeos.forked k.sched child q, m'⟩ (Function.update ls .freequeue rest)) :
      ForkOutcome useCow k ls (-enomem) ⟨Zeos.forked k.sched child q, m'⟩
  | created {child : Slot} {rest : List Slot} {q q' : Heap QNode} {f : Heap FNode} {m' : Mm}
      (hf : ls .freequeue = child :: rest) (hcur : child ≠ k.sched.current)
      (hidle : child ≠ k.sched.idleTask)
      (hcard : useCow = false → numPagData ≤ (freeRegion k.mm k.sched.current).card)
      (hin : Inherits useCow k.mm m' k.sched.current child)
      (hlink : forkLink (Zeos.forked k.sched child q) child =
        .ok (k.sched.nextPid, linkedChild (Zeos.forked k.sched child q) child q' f))
      (hinv : KernelInv useCow ⟨linkedChild (Zeos.forked k.sched child q) child q' f, m'⟩
        (forkedLists ls child rest)) :
      ForkOutcome useCow k ls k.sched.nextPid
        ⟨linkedChild (Zeos.forked k.sched child q) child q' f, m'⟩

theorem fork {r : Int} {k' : Kernel} (h : KernelInv useCow k ls) (ha : Awake k)
    (hok : sysFork useCow k = .ok (r, k')) : ForkOutcome useCow k ls r k' := by
  rcases sysFork_cases h.queues ha.2 hok with ⟨hf, rfl, rfl⟩ |
    ⟨child, rest, q, m, hf, hcur, hidle, hout, hinv, ⟨hm, rfl, rfl⟩ | ⟨hm, s, hl, rfl⟩⟩
  · exact .noPcb hf
  · rcases h.forkMemory_cases ha.1 hf hcur with ⟨m', hm', _⟩ | ⟨hc, hcard, m', hm', hl⟩
    · rw [hm] at hm'
      cases hm'
    · rw [hm] at hm'
      cases hm'
      subst hc
      exact .noPages rfl hf hcard hl (h.leaked hf hidle hout hinv hl)
  · rcases h.forkMemory_cases ha.1 hf hcur with ⟨m', hm', hin, hcard⟩ | ⟨_, _, m', hm', _⟩
    · rw [hm] at hm'
      cases hm'
      obtain ⟨hr, hinv', q', f, rfl⟩ := forkLink_queueInv hinv hout hcur hidle hl
      rw [hr] at hl ⊢
      exact .created hf hcur hidle hcard hin hl (h.forked ha.1 hf hcur hinv' hin)
    · rw [hm] at hm'
      cases hm'

structure ExitOutcome (useCow : Bool) (k : Kernel) (ls : Queue → List Slot) (k' : Kernel)
    (ls' : Queue → List Slot) : Prop where
  inv : KernelInv useCow k' ls'
  mm : k'.mm = freeUserPages k.mm k.sched.current
  released : Released k.mm k'.mm k.sched.current numPagData
  idleTask : k'.sched.idleTask = k.sched.idleTask
  free : ls' .freequeue = ls .freequeue ++ [k.sched.current]
  runnable : ∀ t, Runnable k'.sched ls' t → Runnable k.sched ls t ∧ t ≠ k.sched.current
  pid : ∀ t, t ≠ k.sched.current → (k'.sched.task t).pid = (k.sched.task t).pid
  family : ∃ s₁ q, exitFamily k.sched = .ok s₁ ∧ FamilyOnly (unnamed k.sched) s₁ ∧
    Moves (retired s₁ q) k'.sched (retiredLists k.sched ls) ls'

theorem Released.data_other {m m' : Mm} {t u : Slot} {p : Nat} (h : Released m m' t numPagData)
    (hup : u ≠ t ∨ ¬ DataPage p) : m'.pagusrTable u p = m.pagusrTable u p := by
  apply h.other
  rcases hup with hu | hp
  · exact .inl hu
  · exact .inr fun i hi he => hp (he ▸ ⟨by omega, by omega⟩)

theorem Released.data_zero {m m' : Mm} {t : Slot} {p : Nat} (h : Released m m' t numPagData)
    (hp : DataPage p) : m'.pagusrTable t p = .zero := by
  obtain ⟨hi, he⟩ := dataPage_index hp
  have := h.zero _ hi
  rwa [he] at this

theorem released {s' : Sched} {ls' : Queue → List Slot} (h : KernelInv useCow k ls)
    (hq : QueueInv s' ls') (hidle : s'.idleTask = k.sched.idleTask)
    (hfree : ls' .freequeue = ls .freequeue ++ [k.sched.current])
    (hrun : ∀ t, Runnable s' ls' t → Runnable k.sched ls t ∧ t ≠ k.sched.current) :
    KernelInv useCow ⟨s', freeUserPages k.mm k.sched.current⟩ ls' := by
  obtain ⟨hframes, hrel⟩ := freeUserPages_spec h.frames k.sched.current
  refine ⟨hq, hframes, ?_, ?_⟩
  · intro t ht p hp
    by_cases htc : t = k.sched.current
    · rw [htc]
      exact Released.data_zero hrel hp
    · rw [Released.data_other hrel (.inl htc)]
      apply h.vacant t _ p hp
      rcases ht with ht | ht
      · rw [hfree] at ht
        simp only [List.mem_append, List.mem_singleton] at ht
        exact .inl (ht.resolve_right htc)
      · exact .inr (ht.trans hidle)
  · intro t ht p hp
    obtain ⟨hr, htc⟩ := hrun t ht
    rw [Released.data_other hrel (.inl htc)]
    exact h.full t hr p hp

theorem exit {k' : Kernel} (h : KernelInv useCow k ls) (ha : Awake k)
    (hok : sysExit k = .ok k') : ∃ ls', ExitOutcome useCow k ls k' ls' := by
  obtain ⟨s₁, m, q, s₂, ls', hf, hfam, hm, hinv, hmv, _, rfl⟩ := sysExit_cases h.queues ha hok
  rw [exitShared_eq h.frames.shared_frame] at hm
  cases hm
  obtain ⟨hidle, hfree, hrun⟩ := retired_roles hfam hinv hmv
  refine ⟨ls', h.released hinv hidle hfree hrun, rfl, (freeUserPages_spec h.frames _).2, hidle,
    hfree, hrun, ?_, s₁, q, hf, hfam, hmv⟩
  intro t htc
  calc (s₂.task t).pid = ((retired s₁ q).task t).pid := (hmv.task t).pid
    _ = (k.sched.task t).pid := by rw [retired_pid hfam, if_neg htc]

theorem userRetry_cases {m m' : Mm} {t : Slot} {addr : Nat} {write may : Bool} (h : FrameInv useCow m)
    (ha : addr < totalPages * pageSize) (hok : userRetry m t addr write = .ok (may, m')) :
    m' = m ∨ Repaired useCow m m' t (addr / pageSize) :=
  (userRetry_eq_ok hok).imp And.right fun hr => pgfRoutine_repaired h ha hr.2.1

/-- Neither the shared pages nor the region above code and data change. -/
structure SameShared (m m' : Mm) : Prop where
  sharedPages : m'.sharedPages = m.sharedPages
  region : ∀ u p, SharedRegion p → m'.pagusrTable u p = m.pagusrTable u p

theorem SameShared.refl (m : Mm) : SameShared m m := ⟨rfl, fun _ _ _ => rfl⟩

/-- A memory after a user access: the fault repaired, and bytes written. -/
theorem access {m₁ m' : Mm} {p : Nat} (h : KernelInv useCow k ls)
    (hr : m₁ = k.mm ∨ Repaired useCow k.mm m₁ k.sched.current p) (hs : SameTables m₁ m') :
    KernelInv useCow ⟨k.sched, m'⟩ ls ∧ SameShared k.mm m' := by
  rcases hr with rfl | hr
  · exact ⟨h.mem (h.frames.sameTables hs) (fun u q _ => by rw [hs.pagusrTable]), hs.sharedPages,
      fun u q _ => by rw [hs.pagusrTable]⟩
  · refine ⟨h.mem (hr.inv.sameTables hs) (fun u q _ => by rw [hs.pagusrTable, hr.zero_iff]),
      hs.sharedPages.trans hr.sharedPages, ?_⟩
    intro u q hq
    rw [hs.pagusrTable, hr.other u q]
    rintro ⟨_, rfl⟩
    exact hr.page.elim (region_disjoint hq).1 (region_disjoint hq).2

theorem load {r : Int} {k' : Kernel} {addr : Nat} (h : KernelInv useCow k ls)
    (ha : addr < totalPages * pageSize) (hok : exec useCow (.load addr) k = .ok (r, k')) :
    KernelInv useCow k' ls ∧ k'.sched = k.sched ∧ SameShared k.mm k'.mm := by
  obtain ⟨pt, may, m', hpt, hm, rfl⟩ := exec_load_eq_ok hok
  rw [h.getPT_current] at hpt
  cases hpt
  obtain ⟨hinv, hs⟩ := h.access (userRetry_cases h.frames ha hm) (.refl _)
  exact ⟨hinv, rfl, hs⟩

theorem store {r : Int} {k' : Kernel} {addr : Nat} {v : UInt8} (h : KernelInv useCow k ls)
    (ha : addr < totalPages * pageSize) (hok : exec useCow (.store addr v) k = .ok (r, k')) :
    KernelInv useCow k' ls ∧ k'.sched = k.sched ∧ SameShared k.mm k'.mm := by
  obtain ⟨pt, may, m₁, m', hpt, hm, rfl, hsame⟩ := exec_store_sameTables hok
  rw [h.getPT_current] at hpt
  cases hpt
  obtain ⟨hinv, hs⟩ := h.access (userRetry_cases h.frames ha hm) hsame
  exact ⟨hinv, rfl, hs⟩

theorem read {r : Int} {k' : Kernel} {b : Nat} {maxchars : Int} {c : CircularBuffer} {kern : Staging}
    (h : KernelInv useCow k ls) (hok : exec useCow (.read b maxchars c kern) k = .ok (r, k')) :
    KernelInv useCow k' ls ∧ k'.sched = k.sched ∧ SameShared k.mm k'.mm := by
  obtain ⟨m, rfl, hsame⟩ := exec_read_sameTables hok
  obtain ⟨hinv, hs⟩ := h.access (p := 0) (.inl rfl) hsame
  exact ⟨hinv, rfl, hs⟩

theorem fault {r : Int} {k' : Kernel} {addr : Nat} (h : KernelInv useCow k ls)
    (ha : addr < totalPages * pageSize) (hok : exec useCow (.fault addr) k = .ok (r, k')) :
    KernelInv useCow k' ls ∧ k'.sched = k.sched ∧ SameShared k.mm k'.mm := by
  obtain ⟨pt, m', hpt, hm, rfl⟩ := exec_fault_eq_ok hok
  rw [h.getPT_current] at hpt
  cases hpt
  obtain ⟨hinv, hs⟩ := h.access (.inr (pgfRoutine_repaired h.frames ha hm)) (.refl _)
  exact ⟨hinv, rfl, hs⟩

theorem shmatPage_cases (h : KernelInv useCow k ls) (hu : UserRuns k) {addr : Nat}
    (ha : addr < totalPages * pageSize) {page : Int}
    (hok : shmatPage k.mm k.sched.current addr = .ok page) :
    page < 0 ∨ ∃ p : Nat, page = p ∧ p ∈ freeRegion k.mm k.sched.current := by
  rcases shmatPage_eq_ok hok with (hneg | ⟨p, rfl, hp, hz⟩) | ⟨h0, hmod, rfl, he⟩
  · exact .inl hneg
  · exact .inr ⟨p, rfl, mem_freeRegion.mpr ⟨hp, hz⟩⟩
  · have hlt : addr / pageSize < totalPages := by
      simp only [totalPages, pageSize] at ha ⊢
      omega
    rw [readPte_of_lt _ _ hlt] at he
    have hz := Except.ok.inj he
    refine .inr ⟨addr / pageSize, rfl, mem_freeRegion.mpr ⟨?_, hz⟩⟩
    rcases page_cases hlt with hk | hd | hc | hr
    · -- the only kernel page without an entry is page 0, and `addr` is not null
      rw [h.frames.kernel _ _ hk, kernelEntry] at hz
      split at hz
      · exact absurd hz (ne_zero_of_present rfl)
      · simp only [numPagKernel, pageSize] at *
        omega
    · exact absurd hz (h.full _ (current_runnable hu) _ (.inl hd))
    · exact absurd hz (h.full _ (current_runnable hu) _ (.inr hc))
    · exact hr

/-- Memory after a successful `sys_shmat`. -/
def attached (m : Mm) (t : Slot) (p id : Nat) : Mm :=
  addRefs (m.setEntry t p (ssEntry (256 + 2 * id))) id 1

theorem attached_table (m : Mm) (t : Slot) (p id : Nat) (u : Slot) (q : Nat) :
    (attached m t p id).pagusrTable u q =
      if u = t ∧ q = p then ssEntry (256 + 2 * id) else m.pagusrTable u q := rfl

theorem shmat_cases (h : KernelInv useCow k ls) (hu : UserRuns k) {id : Int} {addr : Nat}
    (ha : addr < totalPages * pageSize) {r : Int} {k' : Kernel}
    (hok : sysShmat k id addr = .ok (r, k')) :
    (r < 0 ∧ k' = k) ∨ ∃ p, p ∈ freeRegion k.mm k.sched.current ∧ 0 ≤ id ∧ id ≤ 9 ∧
      r = (p * pageSize : Nat) ∧ k' = ⟨k.sched, attached k.mm k.sched.current p id.toNat⟩ := by
  unfold sysShmat at hok
  split at hok
  · cases hok
    exact .inl ⟨by decide, rfl⟩
  · rename_i hid
    rw [h.getPT_current, ok_bind] at hok
    obtain ⟨page, hpage, hok⟩ := bind_eq_ok.mp hok
    split at hok
    · rename_i hneg
      cases hok
      exact .inl ⟨hneg, rfl⟩
    · rename_i hpos
      rcases h.shmatPage_cases hu ha hpage with hneg | ⟨p, rfl, hp⟩
      · exact absurd hneg hpos
      · have hlt : p < totalPages := (mem_freeRegion.mp hp).1.2
        have hframe : Zeos.uint32 (k.mm.sharedPages id.toNat).frame = 256 + 2 * id.toNat :=
          SharedFrames.uint32 h.frames.shared_frame (by simp only [numSharedPages]; omega)
        rw [Int.toNat_natCast, setSsPag, writePte_of_lt _ _ _ hlt, hframe, ok_bind] at hok
        cases hok
        exact .inr ⟨p, hp, by omega, by omega, (Int.natCast_mul p pageSize).symm, rfl⟩

/-- Memory after a successful `sys_shmdt`. -/
structure Detached (m m' : Mm) (t : Slot) (p id : Nat) : Prop where
  physMem : m'.physMem = m.physMem
  sharedPages : m'.sharedPages = (addRefs m id (-1)).sharedPages
  pagusrTable : m'.pagusrTable = (m.setEntry t p .zero).pagusrTable

/-- Clearing the page `id`, at `addr` of table `pt`, when nobody is left and it was removed. -/
def clearLast (m : Mm) (pt : Slot) (id addr : Nat) : Except Fault Mm :=
  if (m.sharedPages id).numRefs = 0 ∧ (m.sharedPages id).toClear = 1 then zeroOut m pt addr pageSize
  else .ok m

theorem clearLast_sameTables {m m' : Mm} {pt : Slot} {id addr : Nat}
    (hok : clearLast m pt id addr = .ok m') : SameTables m m' := by
  unfold clearLast at hok
  split at hok
  · exact zeroOut_sameTables hok
  · cases hok
    exact .refl _

/-- `addr` is the address of a page that `sys_shmdt` recognises as the shared page `id`. -/
def Detachable (k : Kernel) (addr id : Nat) : Prop :=
  addr % pageSize = 0 ∧ 1 ≤ id ∧ id < numSharedPages ∧
    k.mm.pagusrTable k.sched.current (addr / pageSize) ≠ .zero ∧
    (k.mm.pagusrTable k.sched.current (addr / pageSize)).pbaseAddr = 256 + 2 * id

section Detach
variable {addr id : Nat}

theorem page_of_addr (ha : addr < totalPages * pageSize) : addr / pageSize < totalPages := by
  simp only [totalPages, pageSize] at ha ⊢
  omega

theorem Detachable.region (hd : Detachable k addr id) (h : KernelInv useCow k ls)
    (ha : addr < totalPages * pageSize) : SharedRegion (addr / pageSize) :=
  h.frames.region_of_shared (page_of_addr ha) hd.2.2.1 hd.2.2.2.1 hd.2.2.2.2

theorem shmdt_detachable (h : KernelInv useCow k ls) (ha : addr < totalPages * pageSize)
    (hd : Detachable k addr id) :
    sysShmdt k addr = clearLast (addRefs k.mm id (-1)) k.sched.current id addr >>= fun m =>
      .ok (0, ⟨k.sched, m.setEntry k.sched.current (addr / pageSize) .zero⟩) := by
  have hreg := Detachable.region hd h ha
  obtain ⟨hmod, h1, hid, hz, hf⟩ := hd
  have hlt := page_of_addr ha
  have h0 : addr ≠ 0 := by
    rintro rfl
    exact absurd hreg.1 (by decide)
  unfold sysShmdt
  rw [if_neg h0, if_neg (by omega), h.getPT_current, ok_bind, readPte_of_lt _ _ hlt, ok_bind,
    if_neg hz, hf, isFrameShared_shared h.frames.shared_frame hid, if_pos (by omega)]
  simp only [delSsPag, writePte_of_lt _ _ _ hlt, clearLast]
  split <;> rfl

theorem shmdt_other (h : KernelInv useCow k ls) (ha : addr < totalPages * pageSize)
    (hd : ∀ id, ¬ Detachable k addr id) : ∃ r, r < 0 ∧ sysShmdt k addr = .ok (r, k) := by
  have hlt := page_of_addr ha
  unfold sysShmdt
  split
  · exact ⟨_, by decide, rfl⟩
  · split
    · exact ⟨_, by decide, rfl⟩
    · rename_i hmod
      rw [h.getPT_current, ok_bind, readPte_of_lt _ _ hlt, ok_bind]
      split
      · exact ⟨_, by decide, rfl⟩
      · rename_i hz
        -- a frame that is recognised is one of the ten, and not the first
        have hno : isFrameShared k.mm (k.mm.pagusrTable k.sched.current (addr / pageSize)).pbaseAddr = 0 := by
          by_contra hshared
          apply hshared
          apply isFrameShared_unshared h.frames.shared_frame
          intro id hid he
          rw [he, isFrameShared_shared h.frames.shared_frame hid] at hshared
          exact hd id ⟨not_not.mp hmod, by omega, hid, hz, he⟩
        rw [if_neg (not_not.mpr hno)]
        exact ⟨_, by decide, rfl⟩

theorem shmdt_eq_ok (h : KernelInv useCow k ls) (ha : addr < totalPages * pageSize)
    {r : Int} {k' : Kernel} (hok : sysShmdt k addr = .ok (r, k')) :
    (r < 0 ∧ k' = k) ∨ ∃ id m₁, Detachable k addr id ∧ r = 0 ∧
      clearLast (addRefs k.mm id (-1)) k.sched.current id addr = .ok m₁ ∧
      k' = ⟨k.sched, m₁.setEntry k.sched.current (addr / pageSize) .zero⟩ := by
  by_cases hd : ∃ id, Detachable k addr id
  · obtain ⟨id, hd⟩ := hd
    rw [h.shmdt_detachable ha hd] at hok
    obtain ⟨m₁, hm₁, hok⟩ := bind_eq_ok.mp hok
    cases hok
    exact .inr ⟨id, m₁, hd, rfl, hm₁, rfl⟩
  · obtain ⟨r', hr', hok'⟩ := h.shmdt_other ha (not_exists.mp hd)
    rw [hok'] at hok
    cases hok
    exact .inl ⟨hr', rfl⟩

end Detach

theorem shmdt_cases (h : KernelInv useCow k ls) {addr : Nat} (ha : addr < totalPages * pageSize)
    {r : Int} {k' : Kernel} (hok : sysShmdt k addr = .ok (r, k')) :
    (r < 0 ∧ k' = k) ∨ ∃ p id, SharedRegion p ∧ 1 ≤ id ∧ id < numSharedPages ∧ r = 0 ∧
      k.mm.pagusrTable k.sched.current p ≠ .zero ∧
      (k.mm.pagusrTable k.sched.current p).pbaseAddr = 256 + 2 * id ∧
      k'.sched = k.sched ∧ Detached k.mm k'.mm k.sched.current p id := by
  rcases h.shmdt_eq_ok ha hok with hno | ⟨id, m₁, hd, hr, hm₁, rfl⟩
  · exact .inl hno
  · have hs := clearLast_sameTables hm₁
    refine .inr ⟨addr / pageSize, id, Detachable.region hd h ha, hd.2.1, hd.2.2.1, hr, hd.2.2.2.1,
      hd.2.2.2.2, rfl, hs.physMem, hs.sharedPages, ?_⟩
    funext u q
    rw [Mm.setEntry_table, Mm.setEntry_table, hs.pagusrTable]
    rfl

theorem attached_inv {p id : Nat} (h : KernelInv useCow k ls)
    (hp : p ∈ freeRegion k.mm k.sched.current) :
    KernelInv useCow ⟨k.sched, attached k.mm k.sched.current p id⟩ ls := by
  obtain ⟨hreg, hz⟩ := mem_freeRegion.mp hp
  have hk : ¬ p < numPagKernel := not_lt.mpr (user_page (.inr (.inr hreg)))
  refine h.mem (FrameInv.congr (h.frames.updateOther (region_disjoint hreg).1
    (fun hc => absurd hc (region_disjoint hreg).2) (fun hc => absurd hc hk) (fun _ => .inr rfl))
    rfl (addRefs_frame _ _ _) rfl) ?_
  · intro u q hq
    rw [attached_table, if_neg]
    rintro ⟨_, rfl⟩
    exact hq.elim (region_disjoint hreg).1 (region_disjoint hreg).2

theorem detached_inv {p id : Nat} {m' : Mm} (h : KernelInv useCow k ls) (hreg : SharedRegion p)
    (hd : Detached k.mm m' k.sched.current p id) : KernelInv useCow ⟨k.sched, m'⟩ ls := by
  have hk : ¬ p < numPagKernel := not_lt.mpr (user_page (.inr (.inr hreg)))
  have hset : FrameInv useCow (k.mm.setEntry k.sched.current p .zero) :=
    h.frames.updateOther (region_disjoint hreg).1 (fun hc => absurd hc (region_disjoint hreg).2)
      (fun hc => absurd hc hk) (fun _ => .inl rfl)
  refine h.mem (hset.congr hd.physMem ?_ hd.pagusrTable) ?_
  · intro i
    rw [hd.sharedPages]
    exact addRefs_frame k.mm id (-1) i
  · intro u q hq
    rw [hd.pagusrTable, Mm.setEntry_table, if_neg]
    rintro ⟨_, rfl⟩
    exact hq.elim (region_disjoint hreg).1 (region_disjoint hreg).2

theorem shmrm_inv (h : KernelInv useCow k ls) (id : Int) : KernelInv useCow (sysShmrm k id).2 ls := by
  unfold sysShmrm
  split
  · exact h
  · exact h.mem (h.frames.congr rfl (fun i => setShared_frame (by rfl) i) rfl) (fun _ _ _ => Iff.rfl)

theorem booted {image : Nat → Fin pageSize → UInt8} {m : Mm} (hb : BootedMm image m)
    (useCow : Bool) : KernelInv useCow ⟨bootState, m⟩ bootLists := by
  refine ⟨bootState_queueInv, hb.inv useCow, ?_, ?_⟩
  · intro t ht p hp
    apply hb.other t p _ (user_page (.inl hp))
    rintro rfl
    rcases ht with ht | ht
    · exact absurd ht (by decide)
    · exact absurd (ht.trans bootState_idleTask) (by decide)
  · rintro t ⟨hi, ht⟩ p hp
    have ht8 : t = 8 := by
      rcases ht with ht | ht | ht
      · exact ht
      · cases ht
      · cases ht
    subst ht8
    rcases hp with hp | hp
    · exact hb.data p hp
    · rw [hb.code p hp]
      exact ne_zero_of_present rfl

theorem boot (useCow : Bool) (image : Nat → Fin pageSize → UInt8) :
    KernelInv useCow ⟨bootState, bootMm image⟩ bootLists :=
  booted (bootMm_spec image) useCow

end KernelInv

/-- The addresses that a process passes lie in its address space. -/
def Op.AddrOk : Op → Prop
  | .shmat _ addr => addr < totalPages * pageSize
  | .shmdt addr => addr < totalPages * pageSize
  | .load addr => addr < totalPages * pageSize
  | .store addr _ => addr < totalPages * pageSize
  | .fault addr => addr < totalPages * pageSize
  | _ => True

/-- Clock ticks, and steps of processes that are awake on addresses of their own. -/
def admitted (k : Kernel) (op : Op) (_ : Int) : Prop := op = .tick ∨ (Awake k ∧ op.AddrOk)

/-- What an admitted step does to the process table and to shared memory. -/
inductive Effect (useCow : Bool) (k : Kernel) (ls : Queue → List Slot) :
    Op → Int → Kernel → (Queue → List Slot) → Prop where
  | quiet {op : Op} {r : Int} {k' : Kernel} {ls' : Queue → List Slot}
      (hroles : SameRoles k.sched k'.sched ls ls') (hmem : KernelInv.SameShared k.mm k'.mm) :
      Effect useCow k ls op r k' ls'
  | attach {id : Int} {addr p : Nat} (hp : p ∈ freeRegion k.mm k.sched.current)
      (hid : 0 ≤ id ∧ id ≤ 9) :
      Effect useCow k ls (.shmat id addr) (p * pageSize : Nat)
        ⟨k.sched, KernelInv.attached k.mm k.sched.current p id.toNat⟩ ls
  | detach {addr p id : Nat} {m' : Mm} (hp : SharedRegion p) (hid : 1 ≤ id ∧ id < numSharedPages)
      (hz : k.mm.pagusrTable k.sched.current p ≠ .zero)
      (hf : (k.mm.pagusrTable k.sched.current p).pbaseAddr = 256 + 2 * id)
      (hd : KernelInv.Detached k.mm m' k.sched.current p id) :
      Effect useCow k ls (.shmdt addr) 0 ⟨k.sched, m'⟩ ls
  | clear (id : Int) : Effect useCow k ls (.shmrm id) (sysShmrm k id).1 (sysShmrm k id).2 ls
  | leak {child : Slot} {rest : List Slot} {q : Heap QNode} {m' : Mm}
      (hc : useCow = false) (hf : ls .freequeue = child :: rest)
      (hcard : (freeRegion k.mm k.sched.current).card < numPagData) (hl : Leaked k.mm m' child) :
      Effect useCow k ls .fork (-enomem) ⟨forked k.sched child q, m'⟩
        (Function.update ls .freequeue rest)
  | create {child : Slot} {rest : List Slot} {q q' : Heap QNode} {f : Heap FNode} {m' : Mm}
      (hf : ls .freequeue = child :: rest) (hcur : child ≠ k.sched.current)
      (hin : Inherits useCow k.mm m' k.sched.current child)
      (hlink : forkLink (forked k.sched child q) child =
        .ok (k.sched.nextPid, linkedChild (forked k.sched child q) child q' f)) :
      Effect useCow k ls .fork k.sched.nextPid
        ⟨linkedChild (forked k.sched child q) child q' f, m'⟩ (forkedLists ls child rest)
  | exit {k' : Kernel} {ls' : Queue → List Slot} (h : KernelInv.ExitOutcome useCow k ls k' ls') :
      Effect useCow k ls .exit 0 k' ls'

theorem exec_effect {useCow : Bool} {k k' : Kernel} {op : Op} {r : Int} {ls : Queue → List Slot}
    (h : KernelInv useCow k ls) (ha : admitted k op r) (hok : exec useCow op k = .ok (r, k')) :
    ∃ ls', KernelInv useCow k' ls' ∧ Effect useCow k ls op r k' ls' := by
  have htick : ∀ r k', exec useCow .tick k = .ok (r, k') →
      ∃ ls', KernelInv useCow k' ls' ∧ Effect useCow k ls .tick r k' ls' := by
    intro r k' hok
    obtain ⟨s, hs, _, rfl⟩ := schedOnly_eq_ok hok
    obtain ⟨ls', hq, hr⟩ := clkRoutine_roles h.queues hs
    exact ⟨ls', h.roles hq hr, .quiet hr (.refl _)⟩
  have hsame : ∀ {op r} {k' : Kernel}, KernelInv useCow k' ls ∧ k'.sched = k.sched ∧
      KernelInv.SameShared k.mm k'.mm → ∃ ls', KernelInv useCow k' ls' ∧ Effect useCow k ls op r k' ls' := by
    rintro op r ⟨s, m⟩ ⟨hinv, rfl, hs⟩
    exact ⟨ls, hinv, .quiet (.refl _ ls) hs⟩
  rcases ha with rfl | ⟨hawake, haddr⟩
  · exact htick r k' hok
  · cases op with
    | tick => exact htick r k' hok
    | fork =>
      cases h.fork hawake hok with
      | noPcb hf => exact ⟨ls, h, .quiet (.refl _ ls) (.refl _)⟩
      | noPages hc hf hcard hl hinv => exact ⟨_, hc ▸ hinv, .leak hc hf hcard hl⟩
      | created hf hcur hidle hcard hin hlink hinv => exact ⟨_, hinv, .create hf hcur hin hlink⟩
    | exit =>
      obtain ⟨rfl, hexit⟩ := exec_exit_eq_ok hok
      obtain ⟨ls', hex⟩ := h.exit hawake hexit
      exact ⟨ls', hex.inv, .exit hex⟩
    | block =>
      obtain ⟨s, hs, _, rfl⟩ := schedOnly_eq_ok hok
      obtain ⟨ls', hq, hr⟩ := sysBlock_roles h.queues hawake.1 hawake.2 hs
      exact ⟨ls', h.roles hq hr, .quiet hr (.refl _)⟩
    | unblock pid =>
      obtain ⟨s, hs, rfl⟩ := exec_unblock_eq_ok hok
      obtain ⟨ls', hq, hr⟩ := sysUnblock_roles h.queues hawake.2 hs
      exact ⟨ls', h.roles hq hr, .quiet hr (.refl _)⟩
    | shmat id addr =>
      rcases h.shmat_cases hawake.1 haddr hok with ⟨_, rfl⟩ | ⟨p, hp, h0, h9, rfl, rfl⟩
      · exact hsame ⟨h, rfl, .refl _⟩
      · exact ⟨ls, h.attached_inv hp, .attach hp ⟨h0, h9⟩⟩
    | shmdt addr =>
      rcases h.shmdt_cases haddr hok with ⟨_, rfl⟩ | ⟨p, id, hp, h1, h10, rfl, hz, hf, hs, hd⟩
      · exact hsame ⟨h, rfl, .refl _⟩
      · obtain ⟨s, m⟩ := k'
        obtain rfl : s = k.sched := hs
        exact ⟨ls, h.detached_inv hp hd, .detach hp ⟨h1, h10⟩ hz hf hd⟩
    | shmrm id =>
      have hret : sysShmrm k id = (r, k') := Except.ok.inj hok
      have hclear : Effect useCow k ls (.shmrm id) (sysShmrm k id).1 (sysShmrm k id).2 ls := .clear id
      have hinv := h.shmrm_inv id
      rw [hret] at hclear hinv
      exact ⟨ls, hinv, hclear⟩
    | load addr => exact hsame (h.load haddr hok)
    | store addr v => exact hsame (h.store haddr hok)
    | fault addr => exact hsame (h.fault haddr hok)
    | read b maxchars c kern => exact hsame (h.read hok)

theorem Reachable.kernelInv {useCow : Bool} {k : Kernel} (h : Reachable useCow admitted k) :
    ∃ ls, KernelInv useCow k ls := by
  apply h.invariant (fun k => ∃ ls, KernelInv useCow k ls)
  · intro image k hb
    rw [boot_eq] at hb
    cases hb
    exact ⟨_, KernelInv.boot useCow image⟩
  · rintro k op r k' ⟨ls, hi⟩ ha hok
    obtain ⟨ls', hinv, _⟩ := exec_effect hi ha hok
    exact ⟨ls', hinv⟩

theorem freeRegion_card_of_empty {m : Mm} {t : Slot}
    (hz : ∀ p, SharedRegion p → m.pagusrTable t p = .zero) : (freeRegion m t).card = 740 := by
  have hall : freeRegion m t = Finset.Ico userLastPage totalPages := by
    apply Finset.filter_true_of_mem
    intro p hp
    exact hz p (Finset.mem_Ico.mp hp)
  rw [hall, Nat.card_Ico]
  rfl

theorem BootedMm.freeRegion_card {image : Nat → Fin pageSize → UInt8} {m : Mm}
    (h : BootedMm image m) (t : Slot) : (freeRegion m t).card = 740 :=
  freeRegion_card_of_empty (h.region t)

theorem boot_awake (m : Mm) : Awake ⟨bootState, m⟩ :=
  .intro (by decide +kernel) (by decide +kernel)

theorem fork_bootState {useCow : Bool} {m : Mm} (h : KernelInv useCow ⟨bootState, m⟩ bootLists)
    (hcard : numPagData ≤ (freeRegion m 8).card) :
    ∃ m', sysFork useCow ⟨bootState, m⟩ = .ok (2, ⟨bootForked, m'⟩) ∧ Inherits useCow m m' 8 7 := by
  have hne : (7 : Slot) ≠ bootState.current := by
    rw [bootState_current]
    decide
  obtain ⟨m', hok, hin⟩ : ∃ m', forkMemory useCow m 8 7 = .ok (m', true) ∧ Inherits useCow m m' 8 7 := by
    rcases h.forkMemory_cases (boot_awake m).1 rfl hne with ⟨m', hok, hin, _⟩ | ⟨_, hlt, _⟩
    · exact ⟨m', hok, hin⟩
    · exact absurd hcard (not_le.mpr hlt)
  have hempty : listEmpty bootState.queues (.head .freequeue) = false := by decide +kernel
  have hchild : getPT bootTaken 7 = .ok 7 := rfl
  have hparent : getPT bootTaken bootTaken.current = .ok 8 := rfl
  refine ⟨m', ?_, hin⟩
  unfold sysFork
  simp only [hempty, forkTake_bootState, ok_bind, hchild, hparent, hok, forkLink_bootTaken]
  rfl

theorem boot_fork (useCow : Bool) (image : Nat → Fin pageSize → UInt8) :
    ∃ m', exec useCow .fork ⟨bootState, bootMm image⟩ = .ok (2, ⟨bootForked, m'⟩) ∧
      Inherits useCow (bootMm image) m' 8 7 := by
  apply fork_bootState (KernelInv.boot useCow image)
  rw [(bootMm_spec image).freeRegion_card]
  decide

end Zeos
