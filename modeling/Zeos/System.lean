import Zeos.Interrupt
import Zeos.Circular
import Zeos.Lib.Runs

/-!
# The kernel as a transition system

`system.c` boots the kernel; afterwards it moves by clock interrupts and by what
the current process does: system calls and memory accesses. Interrupts stay off
inside the kernel, so these steps are atomic.
-/

namespace Zeos

open Loops Runs
set_option autoImplicit false

/-- Memory as `main` leaves it; `image` is the contents of the frames once the
user program has been copied into the pages of process 1. -/
def boot (image : Nat → Fin pageSize → UInt8) : Except Fault Kernel := do
  let s ← bootSched
  let pt ← getPT s s.current
  pure ⟨s, setUserPages (initMm ⟨fun _ => 0, fun _ => ⟨0, 0, 0⟩, fun _ _ => .zero, image⟩) pt⟩

/-- A clock interrupt, or a step of the current process. What `read` finds in the
keyboard buffer and on its stack is part of the step. The other entries of
`sys_call_table` change neither the process table nor memory. -/
inductive Op where
  | tick
  | fork
  | exit
  | block
  | unblock (pid : Int)
  | shmat (id : Int) (addr : Nat)
  | shmdt (addr : Nat)
  | shmrm (id : Int)
  | load (addr : Nat)
  | store (addr : Nat) (v : UInt8)
  | fault (addr : Nat)
  | read (b : Nat) (maxchars : Int) (cbuff : CircularBuffer) (kern : Staging)
  deriving DecidableEq

def schedOnly (k : Kernel) (r : Except Fault Sched) : Except Fault (Int × Kernel) := do
  let s ← r
  pure (0, ⟨s, k.mm⟩)

def loaded : Option UInt8 → Int
  | some v => v.toNat
  | none => -1

/-- The result of `op` and the kernel after it. `load` returns the byte it reads; an
access that has yet to be tried again returns `-1`. -/
def exec (useCow : Bool) (op : Op) (k : Kernel) : Except Fault (Int × Kernel) :=
  match op with
  | .tick => schedOnly k (clkRoutine k.sched)
  | .fork => sysFork useCow k
  | .exit => do
    let k ← sysExit k
    pure (0, k)
  | .block => schedOnly k (sysBlock k.sched)
  | .unblock pid => do
    let (r, s) ← sysUnblock k.sched pid
    pure (r, ⟨s, k.mm⟩)
  | .shmat id addr => sysShmat k id addr
  | .shmdt addr => sysShmdt k addr
  | .shmrm id => .ok (sysShmrm k id)
  | .load addr => do
    let pt ← getPT k.sched k.sched.current
    let (v, m) ← userLoad k.mm pt addr
    pure (loaded v, ⟨k.sched, m⟩)
  | .store addr v => do
    let pt ← getPT k.sched k.sched.current
    let (done, m) ← userStore k.mm pt addr v
    pure (if done then 0 else -1, ⟨k.sched, m⟩)
  | .fault addr => do
    let pt ← getPT k.sched k.sched.current
    let m ← pgfRoutine k.mm pt addr
    pure (0, ⟨k.sched, m⟩)
  | .read b maxchars cbuff kern => do
    let pt ← getPT k.sched k.sched.current
    let (_, m, n) ← sysRead cbuff k.mm pt b maxchars kern
    pure (n, ⟨k.sched, m⟩)

/-- A completed step: the PID of the process that ran, its step, the result. -/
structure Event where
  caller : Int
  op : Op
  ret : Int
  deriving DecidableEq

/-- A completed step that the policy `allowed` admits; the policy sees the state
before the step and the value returned. -/
def Step (useCow : Bool) (allowed : Kernel → Op → Int → Prop) (k : Kernel) (e : Event)
    (k' : Kernel) : Prop :=
  e.caller = k.sched.pcb.pid ∧ allowed k e.op e.ret ∧ exec useCow e.op k = .ok (e.ret, k')

def RunFrom (useCow : Bool) (allowed : Kernel → Op → Int → Prop)
    (image : Nat → Fin pageSize → UInt8) (tr : List Event) (k : Kernel) : Prop :=
  ∃ k₀, boot image = .ok k₀ ∧ Run (Step useCow allowed) k₀ tr k

def Reachable (useCow : Bool) (allowed : Kernel → Op → Int → Prop) (k : Kernel) : Prop :=
  ∃ image tr, RunFrom useCow allowed image tr k

/-- The idle process runs `cpu_idle` in the kernel and makes no system call. -/
def UserRuns (k : Kernel) : Prop := k.sched.current ≠ k.sched.idleTask

theorem Reachable.invariant {useCow : Bool} {allowed : Kernel → Op → Int → Prop}
    (I : Kernel → Prop) (hboot : ∀ image k, boot image = .ok k → I k)
    (hstep : ∀ k op r k', I k → allowed k op r → exec useCow op k = .ok (r, k') → I k')
    {k : Kernel} (h : Reachable useCow allowed k) : I k := by
  obtain ⟨image, tr, k₀, hk₀, hrun⟩ := h
  apply hrun.invariant I (hboot image k₀ hk₀)
  rintro t ⟨c, op, r⟩ u hI ⟨_, ha, he⟩
  exact hstep t op r u hI ha he

theorem Reachable.step {useCow : Bool} {allowed : Kernel → Op → Int → Prop} {k k' : Kernel}
    (h : Reachable useCow allowed k) {op : Op} {r : Int} (ha : allowed k op r)
    (he : exec useCow op k = .ok (r, k')) : Reachable useCow allowed k' := by
  obtain ⟨image, tr, k₀, hk₀, hrun⟩ := h
  exact ⟨image, ⟨k.sched.pcb.pid, op, r⟩ :: tr, k₀, hk₀, hrun.snoc ⟨rfl, ha, he⟩⟩

theorem Reachable.boot {useCow : Bool} {allowed : Kernel → Op → Int → Prop}
    {image : Nat → Fin pageSize → UInt8} {k : Kernel} (h : Zeos.boot image = .ok k) :
    Reachable useCow allowed k := ⟨image, [], k, h, .nil⟩

end Zeos
