import Zeos.List
import Mathlib.Data.List.FinRange

/-!
# `sched.c`

The process table, its queues and the round-robin policy. The nodes of `node`
fields and the three queue heads are linked only to each other, and so are the
`sons` heads and `bros` nodes: every call of the list functions passes nodes of
one kind. Each kind has its own heap here.

`task_switch` is modelled by what it does to `current()`: the kernel stack of
the new process becomes the running one, and `current()` reads the stack
pointer. The saved registers and the stacks have a module of their own.
-/

namespace Zeos

open LinkedRings Loops
set_option autoImplicit false

inductive Queue where
  | freequeue
  | readyqueue
  | blocked
  deriving DecidableEq, Repr

inductive QNode where
  | head (q : Queue)
  | node (t : Slot)
  deriving DecidableEq, Repr

inductive FNode where
  | sons (t : Slot)
  | bros (t : Slot)
  deriving DecidableEq, Repr

def queueLayout : Layout QNode Queue Slot where
  head := .head
  entry := .node
  head_inj := fun _ _ h => QNode.head.inj h
  entry_inj := fun _ _ h => QNode.node.inj h
  head_ne_entry := fun _ _ h => QNode.noConfusion h

def familyLayout : Layout FNode Slot Slot where
  head := .sons
  entry := .bros
  head_inj := fun _ _ h => FNode.sons.inj h
  entry_inj := fun _ _ h => FNode.bros.inj h
  head_ne_entry := fun _ _ h => FNode.noConfusion h

structure Sched where
  current : Slot
  idleTask : Slot
  task : Slot → TaskStruct
  queues : Heap QNode
  family : Heap FNode
  nextPid : Int
  ticksSinceLastSwitch : Nat
  zeosTicks : Int

namespace Sched

def setTask (s : Sched) (t : Slot) (f : TaskStruct → TaskStruct) : Sched :=
  { s with task := Function.update s.task t (f (s.task t)) }

def pcb (s : Sched) : TaskStruct := s.task s.current

section SetTask
variable (s : Sched) (t : Slot) (f : TaskStruct → TaskStruct)

@[simp] theorem setTask_current : (s.setTask t f).current = s.current := rfl
@[simp] theorem setTask_idleTask : (s.setTask t f).idleTask = s.idleTask := rfl
@[simp] theorem setTask_queues : (s.setTask t f).queues = s.queues := rfl
@[simp] theorem setTask_family : (s.setTask t f).family = s.family := rfl
@[simp] theorem setTask_nextPid : (s.setTask t f).nextPid = s.nextPid := rfl
@[simp] theorem setTask_ticks :
    (s.setTask t f).ticksSinceLastSwitch = s.ticksSinceLastSwitch := rfl
@[simp] theorem setTask_zeosTicks : (s.setTask t f).zeosTicks = s.zeosTicks := rfl

theorem setTask_task (u : Slot) :
    (s.setTask t f).task u = if u = t then f (s.task t) else s.task u := by
  by_cases hu : u = t
  · subst hu
    simp [setTask]
  · simp [setTask, hu]

@[simp] theorem setTask_same : (s.setTask t f).task t = f (s.task t) := by simp [setTask]

@[simp] theorem setTask_other {u : Slot} (hu : u ≠ t) : (s.setTask t f).task u = s.task u := by
  simp [setTask, hu]

end SetTask

end Sched

/-- For a queue node the page of its PCB. A queue head lies in no PCB. -/
def listHeadToTaskStruct : Option QNode → Except Fault Slot
  | none => .error .nullLink
  | some (.head _) => .error .outOfBounds
  | some (.node t) => .ok t

/-- The same function on a family node: both kinds lie inside the PCB. -/
def familyToTaskStruct : FNode → Slot
  | .sons t => t
  | .bros t => t

/-- The index of the page table of task `t`. -/
def getPT (s : Sched) (t : Slot) : Except Fault Slot := deref (s.task t).dirPagesBaseAddr

def allocateDIR (s : Sched) (t : Slot) : Sched :=
  s.setTask t fun p => { p with dirPagesBaseAddr := some t }

def taskSwitch (s : Sched) (new : Slot) : Sched := { s with current := new }

def getQuantum (p : TaskStruct) : Int := int32 p.quantum

def updateSchedDataRr (s : Sched) : Sched :=
  s.setTask s.current fun p => { p with nrTicks := s.ticksSinceLastSwitch }

/-- `get_quantum` is an `int`, compared with an unsigned counter. -/
def needsSchedRr (s : Sched) : Bool :=
  if s.pcb.pid = 0 then !listEmpty s.queues (.head .readyqueue)
  else if uint32 (getQuantum s.pcb) < s.pcb.nrTicks then !listEmpty s.queues (.head .readyqueue)
  else if s.pcb.state = .blocked then true
  else false

def updateProcessStateRr (s : Sched) (t : Slot) (dest : Option Queue) (destState : StateT) :
    Except Fault Sched :=
  match dest with
  | none => do
    let q ← listDel s.queues (.node t)
    pure ({ s with queues := q }.setTask t fun p => { p with state := .run })
  | some d =>
    if s.current = t then do
      let q ← listAddTail s.queues (.node t) (.head d)
      pure ({ s with queues := q }.setTask t fun p => { p with state := destState })
    else do
      let q ← listDel s.queues (.node t)
      let q ← listAddTail q (.node t) (.head d)
      pure ({ s with queues := q }.setTask t fun p => { p with state := destState })

def schedNextRr (s : Sched) : Except Fault Sched :=
  if listEmpty s.queues (.head .readyqueue) then
    pure (taskSwitch { s with ticksSinceLastSwitch := 0 } s.idleTask)
  else do
    let new ← listHeadToTaskStruct (listFirst s.queues (.head .readyqueue))
    let s ← if 0 < s.pcb.pid ∧ s.pcb.state ≠ .blocked then
        updateProcessStateRr s s.current (some .readyqueue) .ready
      else pure s
    let s ← updateProcessStateRr s new none .run
    pure (taskSwitch { s with ticksSinceLastSwitch := 0 } new)

def schedule (s : Sched) : Except Fault Sched :=
  let s := updateSchedDataRr s
  if needsSchedRr s then schedNextRr s else pure s

/-- The image of the process table before any code has run: all zero. -/
def staticSched : Sched where
  current := 0
  idleTask := 0
  task := fun _ => ⟨0, none, .run, none, 0, 0, 0⟩
  queues := fun _ => ⟨none, none⟩
  family := fun _ => ⟨none, none⟩
  nextPid := 2
  ticksSinceLastSwitch := 0
  zeosTicks := 0

def initSched (s : Sched) : Except Fault Sched := do
  let s := { s with queues := initListHead s.queues (.head .freequeue) }
  let s ← (List.finRange nrTasks).foldlM (fun s i => do
    let s := Sched.setTask s i fun p => { p with pid := -1 }
    let q ← listAdd s.queues (.node i) (.head .freequeue)
    pure { s with queues := q }) s
  let s := { s with queues := initListHead s.queues (.head .readyqueue) }
  pure { s with queues := initListHead s.queues (.head .blocked) }

/-- The first PCB of the free queue, and the queues without it. -/
def takeFree (s : Sched) : Except Fault (Slot × Sched) := do
  let elem ← deref (listFirst s.queues (.head .freequeue))
  let q ← listDel s.queues elem
  let t ← listHeadToTaskStruct (some elem)
  pure (t, { s with queues := q })

def initIdle (s : Sched) : Except Fault Sched := do
  let (idle, s) ← takeFree s
  let s := s.setTask idle fun p => { p with pid := 0, nrTicks := 0 }
  let s := allocateDIR s idle
  pure { s with family := initListHead s.family (.sons idle), idleTask := idle }

/-- Without `set_user_pages`, which touches only the memory. The process runs
first without a `task_switch`, on the stack that `tss.esp0` is set to. -/
def initTask1 (s : Sched) : Except Fault Sched := do
  let (task1, s) ← takeFree s
  let s := s.setTask task1 fun p =>
    { p with pid := 1, nrTicks := 0, state := .run, pendingUnblocks := 0 }
  let s := { s with family := initListHead s.family (.sons task1) }
  let s := allocateDIR s task1
  let s := { s with current := task1, ticksSinceLastSwitch := 0 }
  pure (s.setTask task1 fun p => { p with quantum := initQuantum })

/-- `init_mm` gives slot 0 its directory before the queues exist. -/
def bootSched : Except Fault Sched := do
  let s ← initSched (allocateDIR staticSched 0)
  let s ← initIdle s
  initTask1 s

end Zeos
