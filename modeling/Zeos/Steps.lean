import Zeos.Queues
import Zeos.System
import Zeos.Keyboard

/-!
# Steps and the queues

Every step of the kernel taken apart into the pieces that act on the process
table and those that act on memory, given the invariant of the queues. Later
modules argue about steps through these lemmas only.
-/

namespace Zeos

open LinkedRings Loops
set_option autoImplicit false

def bootState : Sched :=
  match bootSched with
  | .ok s => s
  | .error _ => staticSched

def bootLists : Queue → List Slot
  | .freequeue => [7, 6, 5, 4, 3, 2, 1, 0]
  | _ => []

theorem bootState_current : bootState.current = 8 := rfl

theorem bootState_idleTask : bootState.idleTask = 9 := rfl

theorem bootState_rings : Queues bootState.queues bootLists := by
  constructor
  · intro q _
    cases q with
    | freequeue => exact ⟨by decide +kernel, by decide +kernel⟩
    | readyqueue => exact ⟨by decide +kernel, by decide +kernel⟩
    | blocked => exact ⟨by decide +kernel, by decide +kernel⟩
  · intro p q _ _ hpq t hp hq
    cases p <;> cases q <;> simp [bootLists] at hp hq hpq

theorem bootState_queueInv : QueueInv bootState bootLists where
  rings := bootState_rings
  idle_out q := by cases q <;> decide
  idle_pid := by decide +kernel
  blocked_iff := by decide +kernel
  blocked_pending := by decide
  ready_state := by decide
  dir := by decide +kernel
  current_out q _ := by cases q <;> decide

def bootTaken : Sched :=
  match forkTake bootState with
  | .ok (_, s) => s
  | .error _ => bootState

theorem forkTake_bootState : forkTake bootState = .ok (7, bootTaken) := rfl

def bootForked : Sched :=
  match forkLink bootTaken 7 with
  | .ok (_, s) => s
  | .error _ => bootState

theorem forkLink_bootTaken : forkLink bootTaken 7 = .ok (2, bootForked) := rfl

def bootForkedLists : Queue → List Slot
  | .freequeue => [6, 5, 4, 3, 2, 1, 0]
  | .readyqueue => [7]
  | .blocked => []

theorem bootForked_rings : Queues bootForked.queues bootForkedLists := by
  constructor
  · intro q _
    cases q with
    | freequeue => exact ⟨by decide +kernel, by decide +kernel⟩
    | readyqueue => exact ⟨by decide +kernel, by decide +kernel⟩
    | blocked => exact ⟨by decide +kernel, by decide +kernel⟩
  · intro p q _ _ hpq t hp hq
    cases p <;> cases q <;> simp_all [bootForkedLists]

def bootMm (image : Nat → Fin pageSize → UInt8) : Mm :=
  setUserPages (initMm ⟨fun _ => 0, fun _ => ⟨0, 0, 0⟩, fun _ _ => .zero, image⟩) 8

theorem boot_eq (image : Nat → Fin pageSize → UInt8) :
    boot image = .ok ⟨bootState, bootMm image⟩ := rfl

/-- A process that can make a system call: not idle, and not one that
`sys_block` has put into `blocked` and the scheduler has left running. -/
def Awake (k : Kernel) : Prop := UserRuns k ∧ k.sched.pcb.state ≠ .blocked

theorem Awake.intro {s : Sched} {m : Mm} (hu : s.current ≠ s.idleTask)
    (hs : s.pcb.state ≠ .blocked) : Awake ⟨s, m⟩ := ⟨hu, hs⟩

section Calls
variable {useCow : Bool} {k k' : Kernel} {r : Int} {ls : Queue → List Slot}

theorem schedOnly_eq_ok {x : Except Fault Sched} (h : schedOnly k x = .ok (r, k')) :
    ∃ s, x = .ok s ∧ r = 0 ∧ k' = ⟨s, k.mm⟩ := by
  obtain ⟨s, hs, h⟩ := bind_eq_ok.mp h
  cases h
  exact ⟨s, hs, rfl, rfl⟩

/-- The end of `sys_fork`, once the memory of the child is settled. -/
def forkFinish (s : Sched) (child : Slot) : Mm × Bool → Except Fault (Int × Kernel)
  | (m, false) => .ok (-enomem, ⟨s, m⟩)
  | (m, true) => do
    let (pid, s) ← forkLink s child
    pure (pid, ⟨s, m⟩)

/-- With a free PCB the call depends on memory only through `forkMemory`. -/
theorem sysFork_taken {s : Sched} (h : QueueInv s ls) (ha : s.pcb.state ≠ .blocked) {child : Slot}
    {rest : List Slot} (hf : ls .freequeue = child :: rest) :
    ∃ q, child ≠ s.current ∧ child ≠ s.idleTask ∧
      (∀ q, child ∉ Function.update ls .freequeue rest q) ∧
      QueueInv (forked s child q) (Function.update ls .freequeue rest) ∧
      ∀ useCow m, sysFork useCow ⟨s, m⟩ =
        forkMemory useCow m s.current child >>= forkFinish (forked s child q) child := by
  obtain ⟨q, htake, hinv, hout, hcur, hidle⟩ := forkTake_spec h ha hf
  refine ⟨q, hcur, hidle, hout, hinv, ?_⟩
  intro useCow m
  have hne : listEmpty s.queues (.head .freequeue) = false := by
    rw [Bool.eq_false_iff]
    intro he
    rw [(h.rings.empty_iff .freequeue).mp he] at hf
    cases hf
  have hpc : getPT (forked s child q) child = .ok child := hinv.getPT_live (hout _)
  have hpp : getPT (forked s child q) s.current = .ok s.current := hinv.getPT_current
  unfold sysFork
  simp only [hne, htake, ok_bind, hpc, forked_current, hpp]
  congr 1

/-- The three ways through `sys_fork`: no free PCB, no memory for the child, and
a new process. -/
theorem sysFork_cases (h : QueueInv k.sched ls) (ha : k.sched.pcb.state ≠ .blocked)
    (hok : sysFork useCow k = .ok (r, k')) :
    (ls .freequeue = [] ∧ r = -enomem ∧ k' = k) ∨
    ∃ child rest q m, ls .freequeue = child :: rest ∧
      child ≠ k.sched.current ∧ child ≠ k.sched.idleTask ∧
      (∀ q, child ∉ Function.update ls .freequeue rest q) ∧
      QueueInv (forked k.sched child q) (Function.update ls .freequeue rest) ∧
      ((forkMemory useCow k.mm k.sched.current child = .ok (m, false) ∧ r = -enomem ∧
          k' = ⟨forked k.sched child q, m⟩) ∨
        (forkMemory useCow k.mm k.sched.current child = .ok (m, true) ∧ ∃ s,
          forkLink (forked k.sched child q) child = .ok (r, s) ∧ k' = ⟨s, m⟩)) := by
  cases hf : ls .freequeue with
  | nil =>
    unfold sysFork at hok
    rw [if_pos ((h.rings.empty_iff .freequeue).mpr hf)] at hok
    cases hok
    exact .inl ⟨rfl, rfl, rfl⟩
  | cons child rest =>
    obtain ⟨q, hcur, hidle, hout, hinv, heq⟩ := sysFork_taken h ha hf
    refine .inr ⟨child, rest, q, ?_⟩
    rw [heq useCow k.mm] at hok
    obtain ⟨⟨m, b⟩, hm, hok⟩ := bind_eq_ok.mp hok
    refine ⟨m, rfl, hcur, hidle, hout, hinv, ?_⟩
    cases b with
    | false =>
      cases hok
      exact .inl ⟨hm, rfl, rfl⟩
    | true =>
      obtain ⟨⟨pid, s⟩, hl, hok⟩ := bind_eq_ok.mp hok
      cases hok
      exact .inr ⟨hm, s, hl, rfl⟩

def forkedLists (ls : Queue → List Slot) (child : Slot) (rest : List Slot) : Queue → List Slot :=
  Function.update (Function.update ls .freequeue rest) .readyqueue (ls .readyqueue ++ [child])

theorem mem_forkedLists {s : Sched} {child t : Slot} {rest : List Slot} (hr : Queues s.queues ls)
    (hf : ls .freequeue = child :: rest) {q : Queue} :
    t ∈ forkedLists ls child rest q ↔ (t ∈ ls q ∧ t ≠ child) ∨ (q = .readyqueue ∧ t = child) := by
  unfold forkedLists
  by_cases hq : q = .readyqueue
  · subst hq
    have hne : t ∈ ls .readyqueue → t ≠ child := by
      rintro hm rfl
      cases hr.unique hm (q := .freequeue) (by rw [hf]; exact List.mem_cons_self)
    rw [Function.update_self, List.mem_append, List.mem_singleton]
    constructor
    · rintro (hm | he)
      · exact .inl ⟨hm, hne hm⟩
      · exact .inr ⟨rfl, he⟩
    · rintro (hm | he)
      · exact .inl hm.1
      · exact .inr he.2
  · rw [Function.update_of_ne hq, mem_takeFree hr hf]
    simp [hq]

theorem mem_forked_free {s : Sched} {child t : Slot} {rest : List Slot} (hr : Queues s.queues ls)
    (hf : ls .freequeue = child :: rest) :
    t ∈ forkedLists ls child rest .freequeue ↔ t ∈ ls .freequeue ∧ t ≠ child := by
  simp [mem_forkedLists hr hf]

theorem forkLink_queueInv {s s' : Sched} {child : Slot} {rest : List Slot}
    (h : QueueInv s (Function.update ls .freequeue rest))
    (hout : ∀ q, child ∉ Function.update ls .freequeue rest q)
    (hcur : child ≠ s.current) (hidle : child ≠ s.idleTask)
    (hok : forkLink s child = .ok (r, s')) :
    r = s.nextPid ∧ QueueInv s' (forkedLists ls child rest) ∧
      ∃ q f, s' = linkedChild s child q f := by
  obtain ⟨q, f, hq, _, hr, rfl⟩ := forkLink_eq_ok hok
  refine ⟨hr, ?_, q, f, rfl⟩
  have := linkedChild_inv h hout hcur hidle hq f
  rwa [Function.update_of_ne (by decide)] at this

theorem retired_pid {s s₁ : Sched} (hf : FamilyOnly (unnamed s) s₁) (q : Heap QNode) (t : Slot) :
    ((retired s₁ q).task t).pid = if t = s.current then -1 else (s.task t).pid := by
  have hcur : s₁.current = s.current := hf.current
  obtain ⟨p, hp⟩ := hf.task t
  by_cases ht : t = s.current
  · rw [if_pos ht, retired, hcur, ht, Sched.setTask_same]
    rw [ht] at hp
    simp [hp, unnamed]
  · rw [if_neg ht, retired, Sched.setTask_other _ _ _ (by rw [hcur]; exact ht)]
    simp [hp, unnamed, ht]

theorem exitFamily_getPT {s s₁ : Sched} (h : QueueInv s ls) (hu : s.current ≠ s.idleTask)
    (hf : exitFamily s = .ok s₁) : getPT s₁ s₁.current = .ok s.current := by
  have hfam := exitFamily_familyOnly hf
  have hinv := hfam.queueInv (unnamed_queueInv h hu)
  rw [hinv.getPT_current, hfam.current]
  rfl

/-- The call when no shared page is found: the process table and the memory do not meet. -/
theorem sysExit_eq {s : Sched} {m : Mm} (h : QueueInv s ls) (hu : s.current ≠ s.idleTask)
    (hm : exitShared m s.current = .ok m) :
    sysExit ⟨s, m⟩ = (exitFamily s >>= exitSched) >>= fun s' =>
      .ok ⟨s', freeUserPages m s.current⟩ := by
  unfold sysExit
  cases hf : exitFamily s with
  | error e => rfl
  | ok s₁ => simp only [ok_bind, exitFamily_getPT h hu hf, hm, pure_eq_ok]

theorem exitSched_completes {s s₁ : Sched} (h : QueueInv s ls) (hu : s.current ≠ s.idleTask)
    (hs : s.pcb.state ≠ .blocked) (hf : exitFamily s = .ok s₁) :
    ∃ q s₂ ls', exitSched s₁ = .ok s₂ ∧ QueueInv s₂ ls' ∧
      Moves (retired s₁ q) s₂ (retiredLists s ls) ls' ∧
      (s₂.current ≠ s₂.idleTask → s₂.pcb.state = .run) := by
  have hfam := exitFamily_familyOnly hf
  have hinv := hfam.queueInv (unnamed_queueInv h hu)
  have hcur : s₁.current = s.current := hfam.current
  have hidle : s₁.idleTask = s.idleTask := hfam.idleTask
  obtain ⟨p, hp⟩ := hfam.task s.current
  have hpcb : s₁.pcb = { (unnamed s).task s.current with parent := p } := by
    rw [Sched.pcb, hcur, hp]
  have hstate : s₁.pcb.state ≠ .blocked := by
    rw [hpcb]
    simpa [unnamed, Sched.pcb] using hs
  have hlists : retiredLists s₁ ls = retiredLists s ls := by
    rw [retiredLists, retiredLists, hcur]
  rw [← hlists]
  exact exitSched_spec hinv (by rw [hcur, hidle]; exact hu) hstate (by rw [hpcb]; simp [unnamed])

theorem exitSched_cases {s s₂ : Sched} (h : QueueInv s ls) (hu : s.current ≠ s.idleTask)
    (hs : s.pcb.state ≠ .blocked) (hok : exitFamily s >>= exitSched = .ok s₂) :
    ∃ s₁ q ls', exitFamily s = .ok s₁ ∧ FamilyOnly (unnamed s) s₁ ∧ QueueInv s₂ ls' ∧
      Moves (retired s₁ q) s₂ (retiredLists s ls) ls' ∧
      (s₂.current ≠ s₂.idleTask → s₂.pcb.state = .run) := by
  obtain ⟨s₁, hf, hok⟩ := bind_eq_ok.mp hok
  obtain ⟨q, s₃, ls', hs₃, hinv, hmv, hrun⟩ := exitSched_completes h hu hs hf
  rw [hok] at hs₃
  cases hs₃
  exact ⟨s₁, q, ls', hf, exitFamily_familyOnly hf, hinv, hmv, hrun⟩

theorem sysExit_cases (h : QueueInv k.sched ls) (ha : Awake k) (hok : sysExit k = .ok k') :
    ∃ s₁ m q s₂ ls', exitFamily k.sched = .ok s₁ ∧ FamilyOnly (unnamed k.sched) s₁ ∧
      exitShared k.mm k.sched.current = .ok m ∧
      QueueInv s₂ ls' ∧ Moves (retired s₁ q) s₂ (retiredLists k.sched ls) ls' ∧
      (s₂.current ≠ s₂.idleTask → s₂.pcb.state = .run) ∧
      k' = ⟨s₂, freeUserPages m k.sched.current⟩ := by
  obtain ⟨s₁, hf, hok⟩ := bind_eq_ok.mp hok
  rw [exitFamily_getPT h ha.1 hf, ok_bind] at hok
  obtain ⟨m, hm, hok⟩ := bind_eq_ok.mp hok
  obtain ⟨s₂, hs₂, hok⟩ := bind_eq_ok.mp hok
  cases hok
  obtain ⟨s₁', q, ls', hf', hfam, hinv, hmv, hrun⟩ :=
    exitSched_cases h ha.1 ha.2 (bind_eq_ok.mpr ⟨s₁, hf, hs₂⟩)
  rw [hf] at hf'
  cases hf'
  exact ⟨s₁, m, q, s₂, ls', hf, hfam, hm, hinv, hmv, hrun, rfl⟩

theorem sysUnblock_eq_ok {s s' : Sched} {pid : Int} (h : sysUnblock s pid = .ok (r, s')) :
    (r = -echild ∧ s' = s) ∨ (r = 0 ∧ ∃ son, unblockSon s son = .ok s' ∧
      findSon s (.sons s.current) pid (2 * nrTasks + 1) (listFirst s.family (.sons s.current)) =
        .ok (some son)) := by
  obtain ⟨son, hson, h⟩ := bind_eq_ok.mp h
  cases son with
  | none =>
    cases h
    exact .inl ⟨rfl, rfl⟩
  | some son =>
    obtain ⟨t, ht, h⟩ := bind_eq_ok.mp h
    cases h
    exact .inr ⟨rfl, son, ht, hson⟩

theorem exec_exit_eq_ok (h : exec useCow .exit k = .ok (r, k')) : r = 0 ∧ sysExit k = .ok k' := by
  obtain ⟨k₁, hk, h⟩ := bind_eq_ok.mp h
  cases h
  exact ⟨rfl, hk⟩

theorem exec_unblock_eq_ok {pid : Int} (h : exec useCow (.unblock pid) k = .ok (r, k')) :
    ∃ s, sysUnblock k.sched pid = .ok (r, s) ∧ k' = ⟨s, k.mm⟩ := by
  obtain ⟨⟨r', s⟩, hs, h⟩ := bind_eq_ok.mp h
  cases h
  exact ⟨s, hs, rfl⟩

theorem exec_load_eq_ok {addr : Nat} (h : exec useCow (.load addr) k = .ok (r, k')) :
    ∃ pt may m, getPT k.sched k.sched.current = .ok pt ∧
      userRetry k.mm pt addr false = .ok (may, m) ∧ k' = ⟨k.sched, m⟩ := by
  obtain ⟨pt, hpt, h⟩ := bind_eq_ok.mp h
  obtain ⟨⟨v, m⟩, hload, h⟩ := bind_eq_ok.mp h
  cases h
  obtain ⟨⟨may, m₁⟩, hm, hload⟩ := bind_eq_ok.mp hload
  dsimp only at hload
  split at hload
  · obtain ⟨b, _, hload⟩ := bind_eq_ok.mp hload
    cases hload
    exact ⟨pt, may, m, hpt, hm, rfl⟩
  · cases hload
    exact ⟨pt, may, m, hpt, hm, rfl⟩

theorem exec_store_eq_ok {addr : Nat} {v : UInt8} (h : exec useCow (.store addr v) k = .ok (r, k')) :
    ∃ pt may m₁ m, getPT k.sched k.sched.current = .ok pt ∧
      userRetry k.mm pt addr true = .ok (may, m₁) ∧ k' = ⟨k.sched, m⟩ ∧
      ((r = 0 ∧ storeByte m₁ pt addr v = .ok m) ∨ (r = -1 ∧ m = m₁)) := by
  obtain ⟨pt, hpt, h⟩ := bind_eq_ok.mp h
  obtain ⟨⟨done, m⟩, hstore, h⟩ := bind_eq_ok.mp h
  cases h
  obtain ⟨⟨may, m₁⟩, hm, hstore⟩ := bind_eq_ok.mp hstore
  dsimp only at hstore
  split at hstore
  · obtain ⟨m₂, hbyte, hstore⟩ := bind_eq_ok.mp hstore
    cases hstore
    exact ⟨pt, may, m₁, m, hpt, hm, rfl, .inl ⟨rfl, hbyte⟩⟩
  · cases hstore
    exact ⟨pt, may, m, m, hpt, hm, rfl, .inr ⟨rfl, rfl⟩⟩

theorem exec_fault_eq_ok {addr : Nat} (h : exec useCow (.fault addr) k = .ok (r, k')) :
    ∃ pt m, getPT k.sched k.sched.current = .ok pt ∧ pgfRoutine k.mm pt addr = .ok m ∧
      k' = ⟨k.sched, m⟩ := by
  obtain ⟨pt, hpt, h⟩ := bind_eq_ok.mp h
  obtain ⟨m, hm, h⟩ := bind_eq_ok.mp h
  cases h
  exact ⟨pt, m, hpt, hm, rfl⟩

theorem exec_store_sameTables {addr : Nat} {v : UInt8} (h : exec useCow (.store addr v) k = .ok (r, k')) :
    ∃ pt may m₁ m, getPT k.sched k.sched.current = .ok pt ∧
      userRetry k.mm pt addr true = .ok (may, m₁) ∧ k' = ⟨k.sched, m⟩ ∧ SameTables m₁ m := by
  obtain ⟨pt, may, m₁, m, hpt, hm, hk, ⟨_, hstore⟩ | ⟨_, rfl⟩⟩ := exec_store_eq_ok h
  · exact ⟨pt, may, m₁, m, hpt, hm, hk, storeByte_sameTables hstore⟩
  · exact ⟨pt, may, m, m, hpt, hm, hk, .refl m⟩

theorem exec_read_eq_ok {b : Nat} {maxchars : Int} {c : CircularBuffer} {kern : Staging}
    (h : exec useCow (.read b maxchars c kern) k = .ok (r, k')) :
    ∃ pt m, getPT k.sched k.sched.current = .ok pt ∧ k' = ⟨k.sched, m⟩ ∧
      ((r = -efault ∧ m = k.mm) ∨
        (accessOk k.mm pt .verifyWrite b (uint32 maxchars) = .ok true ∧ 0 ≤ r ∧
          WroteOnly k.mm m pt b (c.pending.take (uint32 maxchars)))) := by
  obtain ⟨pt, hpt, h⟩ := bind_eq_ok.mp h
  obtain ⟨⟨c', m, n⟩, hread, h⟩ := bind_eq_ok.mp h
  cases h
  refine ⟨pt, m, hpt, rfl, ?_⟩
  rcases sysRead_cases hread with ⟨_, rfl, rfl⟩ | ⟨hok, rfl, _, _, hwrote⟩
  · exact .inl ⟨rfl, rfl⟩
  · exact .inr ⟨hok, Int.natCast_nonneg _, hwrote⟩

theorem exec_read_sameTables {b : Nat} {maxchars : Int} {c : CircularBuffer} {kern : Staging}
    (h : exec useCow (.read b maxchars c kern) k = .ok (r, k')) :
    ∃ m, k' = ⟨k.sched, m⟩ ∧ SameTables k.mm m := by
  obtain ⟨pt, m, _, rfl, ⟨_, rfl⟩ | ⟨_, _, hwrote⟩⟩ := exec_read_eq_ok h
  · exact ⟨_, rfl, .refl _⟩
  · exact ⟨m, rfl, hwrote.tables⟩

theorem exec_shmrm_eq_ok {id : Int} (h : exec useCow (.shmrm id) k = .ok (r, k')) :
    k' = k ∨ ((0 ≤ id ∧ id ≤ 9) ∧
      k' = ⟨k.sched, setShared k.mm id.toNat { k.mm.sharedPages id.toNat with toClear := 1 }⟩) := by
  have hret : sysShmrm k id = (r, k') := Except.ok.inj h
  unfold sysShmrm at hret
  split at hret
  · cases hret
    exact .inl rfl
  · rename_i hid
    cases hret
    exact .inr ⟨by omega, rfl⟩

theorem freePage_or_enomem (m : Mm) (pt : Slot) {x : Int}
    (hx : (if getUserFreePage m pt = -1 then -enomem else getUserFreePage m pt) = x) :
    x < 0 ∨ ∃ p : Nat, x = p ∧ SharedRegion p ∧ m.pagusrTable pt p = .zero := by
  rcases getUserFreePage_cases m pt with ⟨p, hp, hz, hget⟩ | ⟨_, hget⟩
  · rw [hget, if_neg (by omega)] at hx
    exact .inr ⟨p, hx.symm, hp, hz⟩
  · rw [hget, if_pos rfl] at hx
    rw [← hx]
    exact .inl (by decide)

/-- The page that `sys_shmat` settles on: any free one, or the one that was asked for. -/
theorem shmatPage_eq_ok {m : Mm} {pt : Slot} {addr : Nat} {page : Int}
    (h : shmatPage m pt addr = .ok page) :
    (page < 0 ∨ ∃ p : Nat, page = p ∧ SharedRegion p ∧ m.pagusrTable pt p = .zero) ∨
      (addr ≠ 0 ∧ addr % pageSize = 0 ∧ page = (addr / pageSize : Nat) ∧
        readPte m pt (addr / pageSize) = .ok .zero) := by
  unfold shmatPage at h
  split at h
  · exact .inl (freePage_or_enomem m pt (Except.ok.inj h))
  · rename_i h0
    split at h
    · cases h
      exact .inl (.inl (by decide))
    · rename_i hmod
      obtain ⟨free, hfree, h⟩ := bind_eq_ok.mp h
      obtain ⟨e, he, hfree⟩ := bind_eq_ok.mp hfree
      cases hfree
      split at h
      · rename_i hz
        rw [eq_of_beq hz] at he
        exact .inr ⟨h0, not_not.mp hmod, (Except.ok.inj h).symm, he⟩
      · exact .inl (freePage_or_enomem m pt (Except.ok.inj h))

theorem shmatPage_zero {m : Mm} {pt : Slot} {addr : Nat} {page : Int}
    (h : shmatPage m pt addr = .ok page) (hpos : 0 ≤ page) : readPte m pt page.toNat = .ok .zero := by
  rcases shmatPage_eq_ok h with (hneg | ⟨p, rfl, hp, hz⟩) | ⟨_, _, rfl, hz⟩
  · omega
  · rw [Int.toNat_natCast, readPte_of_lt _ _ hp.2, hz]
  · rw [Int.toNat_natCast, hz]

theorem sysShmat_eq_ok {id : Int} {addr : Nat} (h : sysShmat k id addr = .ok (r, k')) :
    (r < 0 ∧ k' = k) ∨ ∃ pt page m, (0 ≤ id ∧ id ≤ 9) ∧ 0 ≤ page ∧
      getPT k.sched k.sched.current = .ok pt ∧ shmatPage k.mm pt addr = .ok page ∧
      setSsPag k.mm pt page.toNat (uint32 (k.mm.sharedPages id.toNat).frame) = .ok m ∧
      r = page * pageSize ∧ k' = ⟨k.sched, addRefs m id.toNat 1⟩ := by
  unfold sysShmat at h
  split at h
  · cases h
    exact .inl ⟨by decide, rfl⟩
  · rename_i hid
    obtain ⟨pt, hpt, h⟩ := bind_eq_ok.mp h
    obtain ⟨page, hpage, h⟩ := bind_eq_ok.mp h
    split at h
    · rename_i hneg
      cases h
      exact .inl ⟨hneg, rfl⟩
    · rename_i hpos
      obtain ⟨m, hm, h⟩ := bind_eq_ok.mp h
      cases h
      exact .inr ⟨pt, page, m, by omega, not_lt.mp hpos, hpt, hpage, hm, rfl, rfl⟩

theorem zeroOut_aligned {m m' : Mm} {pt : Slot} {addr : Nat} {e : PageTableEntry}
    (hmod : addr % pageSize = 0) (he : readPte m pt (addr / pageSize) = .ok e)
    (h : zeroOut m pt addr pageSize = .ok m') : Spares (fun f => f ≠ e.pbaseAddr) m m' := by
  refine zeroOut_spares ?_ h
  intro k hk hlt hne
  have hpage : (addr + k) / pageSize = addr / pageSize := by
    simp only [pageSize, Int.toNat_natCast] at *
    omega
  rw [hpage] at hlt hne
  rw [readPte_of_lt _ _ hlt] at he
  exact hne (congrArg PageTableEntry.pbaseAddr (Except.ok.inj he))

/-- A completed `sys_shmdt`, without any assumption on the address. The page may have
been cleared. -/
theorem sysShmdt_eq_ok {addr : Nat} (h : sysShmdt k addr = .ok (r, k')) :
    (r < 0 ∧ k' = k) ∨ ∃ pt e m m', getPT k.sched k.sched.current = .ok pt ∧
      readPte k.mm pt (addr / pageSize) = .ok e ∧ e ≠ .zero ∧ isFrameShared k.mm e.pbaseAddr ≠ 0 ∧
      Spares (fun f => f ≠ e.pbaseAddr) (addRefs k.mm (isFrameShared k.mm e.pbaseAddr) (-1)) m ∧
      delSsPag m pt (addr / pageSize) = .ok m' ∧ r = 0 ∧ k' = ⟨k.sched, m'⟩ := by
  unfold sysShmdt at h
  split at h
  · cases h
    exact .inl ⟨by decide, rfl⟩
  · split at h
    · cases h
      exact .inl ⟨by decide, rfl⟩
    · rename_i hmod
      obtain ⟨pt, hpt, h⟩ := bind_eq_ok.mp h
      obtain ⟨e, he, h⟩ := bind_eq_ok.mp h
      split at h
      · cases h
        exact .inl ⟨by decide, rfl⟩
      · rename_i hz
        split at h
        · rename_i hs
          refine .inr ⟨pt, e, ?_⟩
          dsimp only at h
          split at h
          · obtain ⟨m, hm, h⟩ := bind_eq_ok.mp h
            obtain ⟨m', hdel, h⟩ := bind_eq_ok.mp h
            cases h
            exact ⟨m, m', hpt, he, hz, hs, zeroOut_aligned (not_not.mp hmod) he hm, hdel, rfl, rfl⟩
          · rw [pure_eq_ok, ok_bind] at h
            obtain ⟨m', hdel, h⟩ := bind_eq_ok.mp h
            cases h
            exact ⟨_, m', hpt, he, hz, hs, .refl _ _, hdel, rfl, rfl⟩
        · cases h
          exact .inl ⟨by decide, rfl⟩

end Calls

end Zeos
