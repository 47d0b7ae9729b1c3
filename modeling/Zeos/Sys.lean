import Zeos.Sched
import Zeos.Utils

/-!
# `sys.c`

The process and shared-memory system calls. A call that touches both the process
table and the memory is cut where the source passes from one to the other, so
that each piece can only change its own half of the kernel state.
-/

namespace Zeos

open LinkedRings Loops
set_option autoImplicit false

structure Kernel where
  sched : Sched
  mm : Mm

/-- `copy_data(parent_union->stack, child_union->stack, PAGE_SIZE)`: every field
of the PCB is copied, the links of its list nodes included. -/
def copyTaskUnion (s : Sched) (parent child : Slot) : Sched :=
  { s with
    task := Function.update s.task child (s.task parent)
    queues := Function.update s.queues (.node child) (s.queues (.node parent))
    family := Function.update
      (Function.update s.family (.sons child) (s.family (.sons parent)))
      (.bros child) (s.family (.bros parent)) }

def forkTake (s : Sched) : Except Fault (Slot × Sched) := do
  let (child, s) ← takeFree s
  pure (child, allocateDIR (copyTaskUnion s s.current child) child)

def copyEntries (m : Mm) (parent child : Slot) (base n : Nat) : Mm :=
  times n (fun pag m => m.setEntry child (base + pag) (m.pagusrTable parent (base + pag))) m

/-- The data pages with `USE_COW`: both sides keep the frame, without `rw`. -/
def cowData (m : Mm) (parent child : Slot) : Mm :=
  times numPagData (fun pag m =>
    let p := pagLogInitData + pag
    let m := m.setEntry child p (m.pagusrTable parent p)
    let m := incFrame m (m.pagusrTable child p).pbaseAddr
    let m := m.setEntry child p { m.pagusrTable child p with rw := false }
    m.setEntry parent p { m.pagusrTable parent p with rw := false }) m

/-- One round of the loop that reserves a temporary page of the parent and a
frame for the child. No page in the result is the early `return -ENOMEM`. -/
def forkReserveStep (parent child : Slot) (pag : Nat) (m : Mm) :
    Except Fault (Mm × Option Nat) :=
  if getUserFreePage m parent < 0 then .ok (m, none)
  else if (allocFrame m).1 < 0 then .ok (freeUserPages (allocFrame m).2 child, none)
  else do
    let page := (getUserFreePage m parent).toNat
    let frame := uint32 (allocFrame m).1
    let m ← setSsPag (allocFrame m).2 parent page frame
    let m ← setSsPag m child (userFirstPage + pag) frame
    pure (m, some page)

/-- The first `n` rounds, with the array `free_pt_pages`. -/
def forkReserve (parent child : Slot) : Nat → Mm → Except Fault (Mm × Option (Nat → Nat))
  | 0, m => .ok (m, some fun _ => 0)
  | n + 1, m => do
    let r ← forkReserve parent child n m
    match r with
    | (m, none) => pure (m, none)
    | (m, some pages) => do
      let r ← forkReserveStep parent child n m
      match r with
      | (m, none) => pure (m, none)
      | (m, some page) => pure (m, some (Function.update pages n page))

def forkCopy (parent : Slot) (pages : Nat → Nat) (m : Mm) : Except Fault Mm :=
  loop numPagData (fun pag m => do
    let m ← copyData m parent ((userFirstPage + pag) * pageSize) (pages pag * pageSize) pageSize
    delSsPag m parent (pages pag)) m

/-- The data pages without `USE_COW`, and whether the call goes on. -/
def eagerData (m : Mm) (parent child : Slot) : Except Fault (Mm × Bool) := do
  let r ← forkReserve parent child numPagData m
  match r with
  | (m, none) => pure (m, false)
  | (m, some pages) => do
    let m ← forkCopy parent pages m
    pure (m, true)

/-- `pbase_addr << 12`, as an unsigned number. -/
def shiftedFrame (e : PageTableEntry) : Nat := e.pbaseAddr * pageSize % 4294967296

def setShared (m : Mm) (idx : Nat) (p : SharedPage) : Mm :=
  { m with sharedPages := Function.update m.sharedPages idx p }

def addRefs (m : Mm) (idx : Nat) (d : Int) : Mm :=
  setShared m idx
    { m.sharedPages idx with numRefs := int32 ((m.sharedPages idx).numRefs + d) }

/-- The shared page that an entry of the region is taken for: both `sys_fork` and
`sys_exit` look the frame up after shifting it to an address. -/
def sharedIndex (m : Mm) (pt : Slot) (pag : Nat) : Except Fault Nat := do
  let isFree ← isLogicPageFree m pt pag
  if isFree then pure 0
  else do
    let e ← readPte m pt pag
    pure (isFrameShared m (shiftedFrame e))

def forkShared (m : Mm) (parent child : Slot) : Except Fault Mm :=
  loop (totalPages - userLastPage) (fun i m => do
    let pag := userLastPage + i
    let idx ← sharedIndex m parent pag
    if idx ≠ 0 then do
      let e ← readPte m parent pag
      setSsPag (addRefs m idx 1) child pag (shiftedFrame e)
    else pure m) m

def forkMemory (useCow : Bool) (m : Mm) (parent child : Slot) : Except Fault (Mm × Bool) := do
  let m := copyEntries m parent child 0 numPagKernel
  let m := copyEntries m parent child pagLogInitCode numPagCode
  if useCow then do
    let m ← forkShared (cowData m parent child) parent child
    pure (m, true)
  else do
    let r ← eagerData m parent child
    match r with
    | (m, true) => do
      let m ← forkShared m parent child
      pure (m, true)
    | (m, false) => pure (m, false)

def forkLink (s : Sched) (child : Slot) : Except Fault (Int × Sched) := do
  let pid := s.nextPid
  let s := { s with nextPid := int32 (s.nextPid + 1) }.setTask child fun p =>
    { p with pid := pid, nrTicks := 0, state := .ready, pendingUnblocks := 0 }
  let q ← listAddTail s.queues (.node child) (.head .readyqueue)
  let s := { s with queues := q }.setTask child fun p => { p with parent := some s.current }
  let f ← listAddTail (initListHead s.family (.sons child)) (.bros child) (.sons s.current)
  pure (pid, { s with family := f })

def sysFork (useCow : Bool) (k : Kernel) : Except Fault (Int × Kernel) :=
  if listEmpty k.sched.queues (.head .freequeue) then .ok (-enomem, k)
  else do
    let (child, s) ← forkTake k.sched
    let ptChild ← getPT s child
    let ptParent ← getPT s s.current
    let r ← forkMemory useCow k.mm ptParent ptChild
    match r with
    | (m, false) => pure (-enomem, ⟨s, m⟩)
    | (m, true) => do
      let (pid, s) ← forkLink s child
      pure (pid, ⟨s, m⟩)

/-- The body of the loop over all PCBs, free ones included. -/
def adopt (s : Sched) (i : Slot) : Except Fault Sched :=
  if (s.task i).parent ≠ some s.current then .ok s
  else do
    let s := s.setTask i fun p => { p with parent := some s.idleTask }
    let f ← listDel s.family (.bros i)
    let f ← listAddTail f (.bros i) (.sons s.idleTask)
    pure { s with family := f }

def exitFamily (s : Sched) : Except Fault Sched := do
  let f ← if s.pcb.pid ≠ 1 then listDel s.family (.bros s.current) else pure s.family
  let s := { s with family := f }.setTask s.current fun p => { p with pid := -1 }
  (List.finRange nrTasks).foldlM adopt s

def exitShared (m : Mm) (pt : Slot) : Except Fault Mm :=
  loop (totalPages - userLastPage) (fun i m => do
    let pag := userLastPage + i
    let idx ← sharedIndex m pt pag
    if idx ≠ 0 then do
      let e ← readPte m pt pag
      let m := addRefs m idx (-1)
      let m ← if (m.sharedPages idx).numRefs = 0 ∧ (m.sharedPages idx).toClear = 1 then
          zeroOut m pt (shiftedFrame e) pageSize
        else pure m
      delSsPag m pt (shiftedFrame e)
    else pure m) m

/-- The process table side of the end of the call. -/
def exitSched (s : Sched) : Except Fault Sched := do
  let s ← updateProcessStateRr s s.current (some .freequeue) .zombie
  schedNextRr (s.setTask s.current fun p => { p with dirPagesBaseAddr := none })

def sysExit (k : Kernel) : Except Fault Kernel := do
  let s ← exitFamily k.sched
  let pt ← getPT s s.current
  let m ← exitShared k.mm pt
  let s ← exitSched s
  pure ⟨s, freeUserPages m pt⟩

def sysBlock (s : Sched) : Except Fault Sched :=
  if s.pcb.pendingUnblocks = 0 then do
    let q ← listAddTail s.queues (.node s.current) (.head .blocked)
    schedule ({ s with queues := q }.setTask s.current fun p => { p with state := .blocked })
  else
    .ok (s.setTask s.current fun p => { p with pendingUnblocks := int32 (p.pendingUnblocks - 1) })

/-- The walk of `list_for_each_safe` over the sons. It only reads, so a walk that
is longer than the number of family nodes never ends. -/
def findSon (s : Sched) (head : FNode) (pid : Int) : Nat → Option FNode → Except Fault (Option Slot)
  | 0, _ => .error .divergence
  | fuel + 1, pos => do
    let pos ← deref pos
    if pos = head then pure none
    else if (s.task (familyToTaskStruct pos)).pid = pid then pure (some (familyToTaskStruct pos))
    else findSon s head pid fuel (s.family pos).next

def unblockSon (s : Sched) (son : Slot) : Except Fault Sched :=
  if (s.task son).state = .blocked then do
    let s := s.setTask son fun p => { p with state := .ready, pendingUnblocks := 0 }
    let q ← listDel s.queues (.node son)
    let q ← listAddTail q (.node son) (.head .readyqueue)
    pure { s with queues := q }
  else
    .ok (s.setTask son fun p => { p with pendingUnblocks := int32 (p.pendingUnblocks + 1) })

def sysUnblock (s : Sched) (pid : Int) : Except Fault (Int × Sched) := do
  let son ← findSon s (.sons s.current) pid (2 * nrTasks + 1) (listFirst s.family (.sons s.current))
  match son with
  | none => pure (-echild, s)
  | some son => do
    let s ← unblockSon s son
    pure (0, s)

def sysNumsons (s : Sched) : Except Fault Int := do
  let size ← listSize s.family (2 * nrTasks + 1) (.sons s.current)
  pure (size - 1)

def sysNumbros (s : Sched) : Except Fault Int := do
  let size ← listSize s.family (2 * nrTasks + 1) (.bros s.current)
  pure (size - 1)

/-- The logical page that `sys_shmat` settles on, or a negative error. -/
def shmatPage (m : Mm) (pt : Slot) (addr : Nat) : Except Fault Int :=
  if addr = 0 then
    .ok (if getUserFreePage m pt = -1 then -enomem else getUserFreePage m pt)
  else if addr % pageSize ≠ 0 then .ok (-efault)
  else do
    let isFree ← isLogicPageFree m pt (addr / pageSize)
    if isFree then pure ((addr / pageSize : Nat) : Int)
    else pure (if getUserFreePage m pt = -1 then -enomem else getUserFreePage m pt)

def sysShmat (k : Kernel) (id : Int) (addr : Nat) : Except Fault (Int × Kernel) :=
  if id < 0 ∨ 9 < id then .ok (-enoshr, k)
  else do
    let pt ← getPT k.sched k.sched.current
    let page ← shmatPage k.mm pt addr
    if page < 0 then pure (page, k)
    else do
      let m ← setSsPag k.mm pt page.toNat (uint32 (k.mm.sharedPages id.toNat).frame)
      pure (page * pageSize, ⟨k.sched, addRefs m id.toNat 1⟩)

def sysShmdt (k : Kernel) (addr : Nat) : Except Fault (Int × Kernel) :=
  if addr = 0 then .ok (-einval, k)
  else if addr % pageSize ≠ 0 then .ok (-efault, k)
  else do
    let pt ← getPT k.sched k.sched.current
    let e ← readPte k.mm pt (addr / pageSize)
    if e = .zero then pure (-enoshr, k)
    else if isFrameShared k.mm e.pbaseAddr ≠ 0 then do
      let idx := isFrameShared k.mm e.pbaseAddr
      let m := addRefs k.mm idx (-1)
      let m ← if (m.sharedPages idx).numRefs = 0 ∧ (m.sharedPages idx).toClear = 1 then
          zeroOut m pt addr pageSize
        else pure m
      let m ← delSsPag m pt (addr / pageSize)
      pure (0, ⟨k.sched, m⟩)
    else pure (-enoshr, k)

def sysShmrm (k : Kernel) (id : Int) : Int × Kernel :=
  if id < 0 ∨ 9 < id then (-enoshr, k)
  else (0, ⟨k.sched, setShared k.mm id.toNat { k.mm.sharedPages id.toNat with toClear := 1 }⟩)

end Zeos
