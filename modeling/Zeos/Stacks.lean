import Zeos.Dispatch
import Zeos.Sched
import Zeos.Lib.Words

/-!
# Kernel stacks

`kernel_misc.S`, `inner_task_switch`, and what `init_idle`, `init_task1` and
`sys_fork` write into a `task_union`. A PCB and a kernel stack share one page: the
PCB is its first 16 words, and the stack grows down from its end. The assembly is
modelled instruction by instruction on the array `task`, as words of memory.
-/

namespace Zeos.Stacks

open Dispatch (Registers)
open Words Loops
set_option autoImplicit false

abbrev kernelStackSize : Nat := 1024
/-- The PCB in words; the offsets of the two fields that a switch reads. -/
abbrev pcbSize : Nat := 16
abbrev dirPagesField : Nat := 1
abbrev kernelEsp0Field : Nat := 12

/-- What the linker chooses: where the arrays lie, and the code addresses that end
up on kernel stacks. -/
structure Image where
  task : Word
  dirPages : Word
  /-- After `call inner_task_switch` in `task_switch`. -/
  switchReturn : Word
  retFromFork : Word
  cpuIdle : Word
  /-- After the call through `sys_call_table`. -/
  callReturn : Word
  /-- `ALIGN(4096)` in `system.lds`. -/
  aligned : task.toNat % 4096 = 0
  distinct : [switchReturn, retFromFork, cpuIdle].Nodup

namespace Image
variable (L : Image)

/-- `&task[t].stack[j]` -/
def stack (t : Slot) (j : Nat) : Word := above L.task (kernelStackSize * t + j)

/-- `&task[t]` -/
def union (t : Slot) : Word := L.stack t 0

/-- `&dir_pages[t]` -/
def dir (t : Slot) : Word := above L.dirPages (totalPages * t)

end Image

/-- The registers that the kernel code below names, and the words it reaches. -/
structure Cpu where
  regs : Registers
  esp : Word
  mem : Memory
  tssEsp0 : Word
  /-- The MSR 0x175, where `sysenter` finds its stack. -/
  msrEsp : Word
  cr3 : Word

namespace Cpu

def store (a v : Word) (c : Cpu) : Cpu := { c with mem := Function.update c.mem a v }

def pushl (v : Word) (c : Cpu) : Cpu :=
  { c with esp := c.esp - 4, mem := Function.update c.mem (c.esp - 4) v }

def popl (set : Registers → Word → Registers) (c : Cpu) : Cpu :=
  { c with regs := set c.regs (c.mem c.esp), esp := c.esp + 4 }

/-- `movl %esp, %ebp` -/
def enter (c : Cpu) : Cpu := { c with regs := { c.regs with ebp := c.esp } }

/-- `ret`, with the address where control goes on. -/
def ret (c : Cpu) : Word × Cpu := (c.mem c.esp, { c with esp := c.esp + 4 })

/-- `current()` -/
def current (c : Cpu) : Word := c.esp &&& 0xfffff000#32

end Cpu

open Cpu

def popEbp : Cpu → Cpu := popl fun r v => { r with ebp := v }
def popEbx : Cpu → Cpu := popl fun r v => { r with ebx := v }
def popEdi : Cpu → Cpu := popl fun r v => { r with edi := v }
def popEsi : Cpu → Cpu := popl fun r v => { r with esi := v }

def switchStacks (c : Cpu) : Word × Cpu :=
  let c := { c with regs := { c.regs with esi := c.mem (c.esp + 4) } }
  let c := c.store c.regs.esi c.regs.ebp
  let c := { c with esp := c.mem (c.esp + 8) }
  let c := popEbp c
  c.ret

/-- What the compiler adds to `inner_task_switch`: the words that it keeps below the
saved `ebp`, the registers it has used by the call of `switch_stacks` and the
return address of that call. `-fno-omit-frame-pointer` makes the function begin
with the two instructions of `task_switch`, and `switch_stacks` relies on it. -/
structure InnerFrame where
  locals : List Word
  eax : Word
  ebx : Word
  ecx : Word
  edx : Word
  esi : Word
  edi : Word
  returnAddress : Word

/-- The registers at the call of `switch_stacks`. -/
def InnerFrame.scratch (f : InnerFrame) (r : Registers) : Registers :=
  { r with eax := f.eax, ebx := f.ebx, ecx := f.ecx, edx := f.edx, esi := f.esi, edi := f.edi }

/-- `tss.esp0`, the MSR and `%cr3` of the task whose union is at `new`. -/
def loadTask (new : Word) (c : Cpu) : Cpu :=
  { c with
    tssEsp0 := above new kernelStackSize
    msrEsp := above new kernelStackSize
    cr3 := c.mem (above new dirPagesField) }

/-- The call of `switch_stacks`, with its two parameters on the stack. -/
def switchStacksCall (f : InnerFrame) (new : Word) (c : Cpu) : Cpu :=
  let c := f.locals.foldl (fun c v => c.pushl v) c
  let c := { c with regs := f.scratch c.regs }
  let c := c.pushl (c.mem (above new kernelEsp0Field))
  let c := c.pushl (above c.current kernelEsp0Field)
  c.pushl f.returnAddress

def innerTaskSwitch (f : InnerFrame) (c : Cpu) : Word × Cpu :=
  let c := c.pushl c.regs.ebp
  let c := c.enter
  let new := c.mem (c.regs.ebp + 8)
  let c := loadTask new c
  switchStacks (switchStacksCall f new c)

/-- `task_switch` after the call of `inner_task_switch`. -/
def taskSwitchReturn (c : Cpu) : Word × Cpu :=
  let c := popEbx c
  let c := popEbx c
  let c := popEdi c
  let c := popEsi c
  let c := popEbp c
  c.ret

def retFromFork (c : Cpu) : Word × Cpu :=
  let c := c.pushl c.regs.ebp
  let c := c.enter
  let c := { c with regs := { c.regs with eax := 0 } }
  let c := popEbp c
  c.ret

/-- `task_switch` up to its call. -/
def taskSwitchCall (L : Image) (c : Cpu) : Cpu :=
  let c := c.pushl c.regs.ebp
  let c := c.enter
  let c := c.pushl c.regs.esi
  let c := c.pushl c.regs.edi
  let c := c.pushl c.regs.ebx
  let c := c.pushl (c.mem (c.regs.ebp + 8))
  c.pushl L.switchReturn

/-- The code at the address that `switch_stacks` returns to, as far as it is in this
file. -/
def returnTo (L : Image) (r : Word × Cpu) : Word × Cpu :=
  if r.1 = L.switchReturn then taskSwitchReturn r.2
  else if r.1 = L.retFromFork then retFromFork r.2
  else r

/-- From the first instruction of `task_switch` on: where the task that gets the CPU
goes on. -/
def taskSwitch (L : Image) (f : InnerFrame) (c : Cpu) : Word × Cpu :=
  returnTo L (innerTaskSwitch f (taskSwitchCall L c))

/-- `kernel_esp0 = &stack[j]` -/
def setKernelEsp0 (L : Image) (t : Slot) (j : Nat) (c : Cpu) : Cpu :=
  c.store (L.stack t kernelEsp0Field) (L.stack t j)

def allocateDir (L : Image) (t : Slot) (c : Cpu) : Cpu :=
  c.store (L.stack t dirPagesField) (L.dir t)

def initIdle (L : Image) (idle : Slot) (c : Cpu) : Cpu :=
  let c := allocateDir L idle c
  let c := c.store (L.stack idle (kernelStackSize - 2)) 0
  let c := c.store (L.stack idle (kernelStackSize - 1)) L.cpuIdle
  setKernelEsp0 L idle (kernelStackSize - 2) c

def initTask1 (L : Image) (task1 : Slot) (c : Cpu) : Cpu :=
  loadTask (L.union task1) (allocateDir L task1 c)

/-- `copy_data(parent_union->stack, child_union->stack, PAGE_SIZE)` -/
def copyUnion (L : Image) (parent child : Slot) (c : Cpu) : Cpu :=
  times kernelStackSize (fun j c => c.store (L.stack child j) (c.mem (L.stack parent j))) c

/-- `sys_fork` up to `allocate_DIR`. -/
def forkTaken (L : Image) (parent child : Slot) (c : Cpu) : Cpu :=
  allocateDir L child (copyUnion L parent child c)

/-- "Prepare child's system stack" -/
def forkStack (L : Image) (child : Slot) (c : Cpu) : Cpu :=
  let c := c.store (L.stack child (kernelStackSize - 18)) L.retFromFork
  let c := c.store (L.stack child (kernelStackSize - 19)) 0
  setKernelEsp0 L child (kernelStackSize - 19) c

end Zeos.Stacks
