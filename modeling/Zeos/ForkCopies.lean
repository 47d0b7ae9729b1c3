import Zeos.OwnFrames
import Zeos.Blocking

/-!
# What a fork without `USE_COW` copies

As long as the process table is in order, a fork finds the frames of its parent, takes
twenty free ones for the child and leaves everything else as it was. The process table
is not in order when a process goes on after a `sys_block` that did not switch. If it
exits, its PCB goes to the free queue while the blocked queue still leads to it; the
next process that blocks is linked behind it, and so into the free queue, and a later
fork takes the PCB of that process with its page table.
-/

namespace Zeos

open LinkedRings Loops
set_option autoImplicit false

/-- The queues are in order, the processes have frames of their own, and there are
frames for as many children as there are PCBs. -/
structure CopyInv (k : Kernel) (ls : Queue → List Slot) : Prop where
  queues : QueueInv k.sched ls
  frames : SeparateFrames k.mm (Runnable k.sched ls)
  room : (usedFrames k.mm).card + numPagData * (ls .freequeue).length ≤ 198
  unused : ∀ t ∈ ls .freequeue, (k.sched.task t).pid = -1

namespace CopyInv
variable {k k' : Kernel} {ls : Queue → List Slot} {r : Int}

theorem booted {m : Mm} (hs : SeparateFrames m (· = 8)) (hused : (usedFrames m).card ≤ 38) :
    CopyInv ⟨bootState, m⟩ bootLists := by
  have hunused : ∀ t ∈ bootLists .freequeue, (bootState.task t).pid = -1 := by decide +kernel
  refine ⟨bootState_queueInv, hs.mono ?_, ?_, hunused⟩
  · rintro t ⟨_, ht | ht | ht⟩
    · exact ht
    · cases ht
    · cases ht
  · have hlen : (bootLists .freequeue).length = 8 := rfl
    simp only [hlen, numPagData]
    omega

theorem roles {s' : Sched} {ls' : Queue → List Slot} (h : CopyInv k ls) (hq : QueueInv s' ls')
    (hr : SameRoles k.sched s' ls ls') : CopyInv ⟨s', k.mm⟩ ls' where
  queues := hq
  frames := h.frames.mono hr.runnable
  room := by
    rw [hr.free]
    exact h.room
  unused := by
    intro t ht
    rw [hr.free] at ht
    rw [hr.pid]
    exact h.unused t ht

theorem mem {m' : Mm} (h : CopyInv k ls)
    (hm : SeparateFrames m' (Runnable k.sched ls) ∧ m'.physMem = k.mm.physMem) :
    CopyInv ⟨k.sched, m'⟩ ls where
  queues := h.queues
  frames := hm.1
  room := by
    have hused : usedFrames m' = usedFrames k.mm := by rw [usedFrames, usedFrames, hm.2]
    rw [hused]
    exact h.room
  unused := h.unused

theorem exit (h : CopyInv k ls) (ha : Awake k) (hok : sysExit k = .ok k') : ∃ ls', CopyInv k' ls' := by
  obtain ⟨s₁, m, q, s₂, ls', _, hfam, hm, hinv, hmv, _, rfl⟩ := sysExit_cases h.queues ha hok
  rw [exitShared_eq h.frames.shared] at hm
  cases hm
  obtain ⟨_, hfree, hrun⟩ := retired_roles hfam hinv hmv
  have hlive : Runnable k.sched ls k.sched.current := ⟨ha.1, .inl rfl⟩
  have hfreed := h.frames.freeUserPages_freed hlive
  refine ⟨ls', hinv, h.frames.freed hlive hrun hfreed, ?_, ?_⟩
  · have hused := h.frames.usedFrames_freed hlive hfreed
    have hroom := h.room
    rw [hfree, List.length_append, List.length_singleton, Nat.mul_succ]
    dsimp only at hused ⊢
    omega
  · intro t ht
    rw [(hmv.task t).pid, retired_pid hfam]
    split
    · rfl
    · rename_i htc
      rw [hfree, List.mem_append, List.mem_singleton] at ht
      exact h.unused t (ht.resolve_right htc)

theorem forkMemory_cases (h : CopyInv k ls) (hu : UserRuns k) {child : Slot} {rest : List Slot}
    (hf : ls .freequeue = child :: rest) (hne : child ≠ k.sched.current) :
    (∃ m' fr, forkMemory false k.mm k.sched.current child = .ok (m', true) ∧
      Duplicated k.mm m' k.sched.current child fr) ∨
    ∃ m' pages fr n, n < numPagData ∧ forkMemory false k.mm k.sched.current child = .ok (m', false) ∧
      Reserving (forkBase k.mm k.sched.current child) m' k.sched.current child n pages fr ∧
      (freeRegion k.mm k.sched.current).card ≤ n := by
  have hlive : Runnable k.sched ls k.sched.current := ⟨hu, .inl rfl⟩
  apply forkMemory_eager h.frames.shared hne.symm
  · have hroom := h.room
    rw [hf, List.length_cons, Nat.mul_succ] at hroom
    simp only [frameRoom]
    omega
  · exact fun p hp => (h.frames.data _ p hlive hp).present
  · intro p _
    rw [h.frames.taken]
    decide

/-- The frames that a fork takes are paid for by its PCB. -/
theorem room_taken {m' : Mm} {child : Slot} {rest : List Slot} {n : Nat} {fr : Nat → Nat}
    (h : CopyInv k ls) (hf : ls .freequeue = child :: rest) (hn : n ≤ numPagData)
    (hcount : ∀ f, (∀ i, i < n → f ≠ fr i) → m'.physMem f = k.mm.physMem f) :
    (usedFrames m').card + numPagData * rest.length ≤ 198 := by
  have hused := usedFrames_card_le hcount
  have hroom := h.room
  rw [hf, List.length_cons, Nat.mul_succ] at hroom
  omega

theorem leak {m' : Mm} {child : Slot} {rest : List Slot} {q : Heap QNode} {n : Nat} {pages fr : Nat → Nat}
    (h : CopyInv k ls) (hf : ls .freequeue = child :: rest) (hne : child ≠ k.sched.current)
    (hq : QueueInv (forked k.sched child q) (Function.update ls .freequeue rest)) (hn : n < numPagData)
    (hr : Reserving (forkBase k.mm k.sched.current child) m' k.sched.current child n pages fr) :
    CopyInv ⟨forked k.sched child q, m'⟩ (Function.update ls .freequeue rest) := by
  have hout : ¬ Runnable k.sched ls child :=
    h.queues.free_not_runnable (by rw [hf]; exact List.mem_cons_self)
  refine ⟨hq, ?_, ?_, ?_⟩
  · exact ((h.frames.forkBase hne.symm hout).reserving hout hr).mono
      fun t ht => runnable_of_taken h.queues.rings hf ht
  · rw [Function.update_self]
    have hcount : ∀ f, (∀ i, i < n → f ≠ fr i) → m'.physMem f = k.mm.physMem f := by
      intro f hfr
      rw [hr.count f hfr, (forkBase_sameFrames k.mm hne.symm).physMem]
    exact h.room_taken hf hn.le hcount
  · intro t ht
    obtain ⟨htf, htc⟩ := (mem_takeFree h.queues.rings hf).mp ht
    rw [forked_other q htc]
    exact h.unused t htf

theorem create {m' : Mm} {child : Slot} {rest : List Slot} {q q' : Heap QNode} {f : Heap FNode}
    {fr : Nat → Nat} (h : CopyInv k ls) (hf : ls .freequeue = child :: rest)
    (hq : QueueInv (linkedChild (forked k.sched child q) child q' f) (forkedLists ls child rest))
    (hd : Duplicated k.mm m' k.sched.current child fr) :
    CopyInv ⟨linkedChild (forked k.sched child q) child q' f, m'⟩ (forkedLists ls child rest) := by
  refine ⟨hq, h.frames.duplicated ?_ hd, ?_, ?_⟩
  · intro t ht
    by_cases htc : t = child
    · exact .inl htc
    · exact .inr (runnable_of_linked h.queues.rings hf htc ht)
  · have hfree : forkedLists ls child rest .freequeue = rest := by simp [forkedLists]
    rw [hfree]
    exact h.room_taken hf (le_refl _) hd.count
  · intro t ht
    obtain ⟨htf, htc⟩ := (mem_forked_free h.queues.rings hf).mp ht
    rw [linkedChild_other q' f htc, forked_other q htc]
    exact h.unused t htf

theorem fork (h : CopyInv k ls) (ha : Awake k) (hok : sysFork false k = .ok (r, k')) :
    (∃ ls', CopyInv k' ls') ∧ (r ≠ -enomem → ∃ child fr, (k'.sched.task child).pid = r ∧
      child ≠ k.sched.current ∧ (k.sched.task child).pid = -1 ∧
      Duplicated k.mm k'.mm k.sched.current child fr) := by
  rcases sysFork_cases h.queues ha.2 hok with ⟨_, rfl, rfl⟩ |
    ⟨child, rest, q, m, hf, hcur, hidle, hout, hinv, ⟨hm, rfl, rfl⟩ | ⟨hm, s, hl, rfl⟩⟩
  · exact ⟨⟨ls, h⟩, fun hr => absurd rfl hr⟩
  · rcases h.forkMemory_cases ha.1 hf hcur with ⟨m', fr, hm', _⟩ | ⟨m', pages, fr, n, hn, hm', hr, _⟩
    · cases hm.symm.trans hm'
    · cases hm.symm.trans hm'
      exact ⟨⟨_, h.leak hf hcur hinv hn hr⟩, fun hr => absurd rfl hr⟩
  · rcases h.forkMemory_cases ha.1 hf hcur with ⟨m', fr, hm', hd⟩ | ⟨m', pages, fr, n, hn, hm', _⟩
    · cases hm.symm.trans hm'
      obtain ⟨hpid, hinv', q', f, rfl⟩ := forkLink_queueInv hinv hout hcur hidle hl
      refine ⟨⟨_, h.create hf hinv' hd⟩, fun _ => ⟨child, fr, ?_, hcur, ?_, hd⟩⟩
      · rw [hpid]
        simp [linkedChild, childPcb]
      · exact h.unused child (by rw [hf]; exact List.mem_cons_self)
    · cases hm.symm.trans hm'

end CopyInv

/-- Clock ticks and steps of processes other than idle. -/
def userSteps (k : Kernel) (op : Op) (_ : Int) : Prop := op = .tick ∨ UserRuns k

/-- `sys_fork` without the memory: the child, both page tables, the PID. -/
def forkTable (s : Sched) : Except Fault (Slot × Slot × Slot × Int × Sched) := do
  let (child, s) ← forkTake s
  let ptChild ← getPT s child
  let ptParent ← getPT s s.current
  let (pid, s) ← forkLink s child
  pure (child, ptChild, ptParent, pid, s)

/-- `sys_exit` without the memory: the page table to release. -/
def exitTable (s : Sched) : Except Fault (Slot × Sched) := do
  let s ← exitFamily s
  let pt ← getPT s s.current
  let s ← exitSched s
  pure (pt, s)

/-- A fork that stays with the slots of `live`: the parent is one, the child is none. -/
def ForkFits (s : Sched) (live : List Slot) (child ptChild ptParent : Slot) : Prop :=
  s.current ∈ live ∧ child ∉ live ∧ ptChild = child ∧ ptParent = s.current ∧
    listEmpty s.queues (.head .freequeue) = false

instance (s : Sched) (live : List Slot) (child ptChild ptParent : Slot) :
    Decidable (ForkFits s live child ptChild ptParent) := inferInstanceAs (Decidable (_ ∧ _))

/-- One step on the process table and on the list of slots that own their data pages. -/
def tableStep (op : Op) (s : Sched) (live : List Slot) : Except Fault (Sched × List Slot) :=
  if op ≠ .tick ∧ s.current = s.idleTask then .error .divergence
  else match op with
    | .tick => do
      let s ← clkRoutine s
      pure (s, live)
    | .block => do
      let s ← sysBlock s
      pure (s, live)
    | .fork => do
      let (child, ptChild, ptParent, _, s') ← forkTable s
      if ForkFits s live child ptChild ptParent then pure (s', child :: live)
      else .error .divergence
    | .exit => do
      let (pt, s') ← exitTable s
      if pt = s.current ∧ pt ∈ live then pure (s', live.filter (· ≠ pt))
      else .error .divergence
    | _ => .error .divergence

def tableRun : List Op → Sched → List Slot → Except Fault (Sched × List Slot)
  | [], s, live => .ok (s, live)
  | op :: ops, s, live => do
    let (s, live) ← tableStep op s live
    tableRun ops s live

/-- Some run of user processes leads to the process table `s`, with `n` frames in use at
most, nothing attached, and data pages of their own for the slots of `live`. -/
structure Traced (s : Sched) (live : List Slot) (n : Nat) (m : Mm) : Prop where
  reach : Reachable false userSteps ⟨s, m⟩
  frames : SeparateFrames m (· ∈ live)
  clear : ∀ t p, SharedRegion p → m.pagusrTable t p = .zero
  used : (usedFrames m).card ≤ n

section Trace
variable {s s' : Sched} {live live' : List Slot} {n : Nat} {m : Mm}

theorem Traced.fork (h : Traced s live n m) (hn : n + numPagData ≤ frameRoom)
    {child : Slot} {pid : Int} (hcur : s.current ∈ live) (hne : child ≠ s.current)
    (hempty : listEmpty s.queues (.head .freequeue) = false)
    (hok : forkTable s = .ok (child, child, s.current, pid, s')) :
    ∃ m' fr, exec false .fork ⟨s, m⟩ = .ok (pid, ⟨s', m'⟩) ∧ Duplicated m m' s.current child fr := by
  obtain ⟨⟨child', s₁⟩, htake, hok⟩ := bind_eq_ok.mp hok
  obtain ⟨pc, hpc, hok⟩ := bind_eq_ok.mp hok
  obtain ⟨pp, hpp, hok⟩ := bind_eq_ok.mp hok
  obtain ⟨⟨pid', s₂⟩, hlink, hok⟩ := bind_eq_ok.mp hok
  cases hok
  have hroom := h.used
  rcases forkMemory_eager h.frames.shared hne.symm (by omega)
    (fun p hp => (h.frames.data _ p hcur hp).present)
    (fun p _ => by rw [h.frames.taken]; decide) with
    ⟨m', fr, hm, hd⟩ | ⟨_, _, _, k, hk, _, _, hcard⟩
  · refine ⟨m', fr, ?_, hd⟩
    change sysFork false ⟨s, m⟩ = _
    unfold sysFork
    simp only [hempty, Bool.false_eq_true, if_false, htake, ok_bind, hpc, hpp, hm, hlink, pure_eq_ok]
  · rw [freeRegion_card_of_empty (h.clear _)] at hcard
    simp only [numPagData] at hk
    omega

theorem Traced.forked {child : Slot} {pid : Int} {m' : Mm} {fr : Nat → Nat} (h : Traced s live n m)
    (hu : s.current ≠ s.idleTask) (hok : exec false .fork ⟨s, m⟩ = .ok (pid, ⟨s', m'⟩))
    (hd : Duplicated m m' s.current child fr) : Traced s' (child :: live) (n + numPagData) m' := by
  refine ⟨h.reach.step (.inr hu) hok, h.frames.duplicated ?_ hd, ?_, ?_⟩
  · intro t ht
    exact List.mem_cons.mp ht
  · intro t p hp
    by_cases ht : t = child
    · have hin : ¬ InheritedPage p := by
        rintro (hk | hc)
        · exact absurd hk (not_lt.mpr (user_page (.inr (.inr hp))))
        · exact (region_disjoint hp).2 hc
      rw [ht, hd.rest p hin (region_disjoint hp).1]
      exact h.clear child p hp
    · rw [hd.other t p ht]
      exact h.clear t p hp
  · have := usedFrames_card_le hd.count
    have := h.used
    omega

theorem Traced.exited {m' : Mm} (h : Traced s live n m) (hu : s.current ≠ s.idleTask)
    (hcur : s.current ∈ live) (hm : m' = freeUserPages m s.current)
    (hok : exec false .exit ⟨s, m⟩ = .ok (0, ⟨s', m'⟩)) :
    Traced s' (live.filter (· ≠ s.current)) n m' := by
  have hf := h.frames.freeUserPages_freed hcur
  rw [← hm] at hf
  refine ⟨h.reach.step (.inr hu) hok, h.frames.freed hcur ?_ hf, ?_, ?_⟩
  · intro t ht
    simpa using ht
  · intro t p hp
    rw [KernelInv.Released.data_other hf.toReleased (.inr (region_disjoint hp).1)]
    exact h.clear t p hp
  · have := h.frames.usedFrames_freed hcur hf
    have := h.used
    omega

theorem exitTable_exec {pt : Slot} (hs : SharedFrames m) (hok : exitTable s = .ok (pt, s')) :
    exec false .exit ⟨s, m⟩ = .ok (0, ⟨s', freeUserPages m pt⟩) := by
  obtain ⟨s₁, hf, hok⟩ := bind_eq_ok.mp hok
  obtain ⟨pt', hpt, hok⟩ := bind_eq_ok.mp hok
  obtain ⟨s₂, he, hok⟩ := bind_eq_ok.mp hok
  cases hok
  simp only [exec, sysExit, hf, ok_bind, hpt, exitShared_eq hs, he, pure_eq_ok]

/-- The process table decides what the next step does to memory. -/
theorem Traced.step {op : Op} (h : Traced s live n m) (hn : n + numPagData ≤ frameRoom)
    (hok : tableStep op s live = .ok (s', live')) : ∃ m', Traced s' live' (n + numPagData) m' := by
  unfold tableStep at hok
  split at hok
  · cases hok
  · rename_i huser
    have hu : op ≠ .tick → s.current ≠ s.idleTask := fun ht hc => huser ⟨ht, hc⟩
    have hsched : ∀ {r : Except Fault Sched}, userSteps ⟨s, m⟩ op 0 →
        exec false op ⟨s, m⟩ = schedOnly ⟨s, m⟩ r → (r >>= fun s => pure (s, live)) = .ok (s', live') →
        ∃ m', Traced s' live' (n + numPagData) m' := by
      intro r hp he hr
      obtain ⟨s₁, hs, hr⟩ := bind_eq_ok.mp hr
      cases hr
      rw [hs] at he
      have hused := h.used
      exact ⟨m, h.reach.step hp he, h.frames, h.clear, by omega⟩
    cases op with
    | tick => exact hsched (.inl rfl) rfl hok
    | block => exact hsched (.inr (hu (by decide))) rfl hok
    | fork =>
      obtain ⟨⟨child, pc, pp, pid, s₁⟩, htable, hok⟩ := bind_eq_ok.mp hok
      dsimp only at hok
      split at hok
      · rename_i hfit
        obtain ⟨hcur, hchild, rfl, rfl, hempty⟩ := hfit
        cases hok
        have hne : pc ≠ s.current := by
          rintro rfl
          exact hchild hcur
        obtain ⟨m', fr, hexec, hd⟩ := h.fork hn hcur hne hempty htable
        exact ⟨m', h.forked (hu (by decide)) hexec hd⟩
      · cases hok
    | exit =>
      obtain ⟨⟨pt, s₁⟩, htable, hok⟩ := bind_eq_ok.mp hok
      dsimp only at hok
      split at hok
      · rename_i hfit
        obtain ⟨rfl, hcur⟩ := hfit
        cases hok
        have hexit := h.exited (hu (by decide)) hcur rfl (exitTable_exec h.frames.shared htable)
        have hused := hexit.used
        exact ⟨_, hexit.reach, hexit.frames, hexit.clear, by omega⟩
      · cases hok
    | _ => cases hok

theorem Traced.run {ops : List Op} (h : Traced s live n m) (hn : n + numPagData * ops.length ≤ frameRoom)
    (hok : tableRun ops s live = .ok (s', live')) :
    ∃ m', Traced s' live' (n + numPagData * ops.length) m' := by
  induction ops generalizing s live n m with
  | nil =>
    cases hok
    exact ⟨m, h⟩
  | cons op ops ih =>
    obtain ⟨⟨s₁, live₁⟩, hstep, hok⟩ := bind_eq_ok.mp hok
    rw [List.length_cons, Nat.mul_succ] at hn ⊢
    obtain ⟨m₁, h₁⟩ := h.step (by omega) hstep
    obtain ⟨m', h'⟩ := ih h₁ (by omega) hok
    refine ⟨m', ?_⟩
    rw [show n + (numPagData * ops.length + numPagData) = n + numPagData + numPagData * ops.length by omega]
    exact h'

end Trace

theorem Traced.booted {image : Nat → Fin pageSize → UInt8} {m : Mm} (hb : boot image = .ok ⟨bootState, m⟩)
    (hm : BootedMm image m) (hs : SeparateFrames m (· = 8)) (hused : (usedFrames m).card ≤ 38) :
    Traced bootState [8] 38 m :=
  ⟨.boot hb, hs.mono fun _ ht => List.mem_singleton.mp ht, hm.region, hused⟩

theorem toOption_eq_some {α : Type} {x : Except Fault α} {a : α} (h : x.toOption = some a) : x = .ok a := by
  cases x with
  | error e => cases h
  | ok b =>
    cases h
    rfl

end Zeos
