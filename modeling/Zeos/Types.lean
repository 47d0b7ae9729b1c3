import Mathlib.Algebra.GroupWithZero.Nat
import Mathlib.Data.Fintype.Basic
import Mathlib.Logic.Function.Basic

/-!
# Types and constants of the kernel

The definitions of `types.h`, `mm_address.h`, `mm.h`, `sched.h` and `errno.h`
that the modelled functions read. An `int` is an integer that every addition
wraps by `int32`; an `unsigned int` is a natural number taken modulo `2 ^ 32`;
a `Byte` counter is a natural number taken modulo `256`.
-/

namespace Zeos

set_option autoImplicit false

/-- How a kernel function can fail to return. A page fault that `pgf_routine`
does not repair ends in its `while (1)`, and so does a null link, since logical
page 0 is never mapped. An access past the page table array has no meaning in
the source, and `divergence` is a loop that never reaches its end. -/
inductive Fault where
  | nullLink
  | pageFault
  | outOfBounds
  | divergence
  deriving DecidableEq, Repr

def int32 (x : Int) : Int := (x + 2147483648) % 4294967296 - 2147483648

def uint32 (x : Int) : Nat := (x % 4294967296).toNat

theorem int32_of_range {x : Int} (hl : -2147483648 ≤ x) (hu : x < 2147483648) : int32 x = x := by
  unfold int32
  omega

theorem uint32_natCast {n : Nat} (hn : n < 4294967296) : uint32 n = n := by
  unfold uint32
  omega

theorem uint32_int32 {n : Nat} (hn : n < 4294967296) : uint32 (int32 n) = n := by
  unfold uint32 int32
  omega

abbrev nrTasks : Nat := 10
abbrev totalPages : Nat := 1024
abbrev numPagKernel : Nat := 256
abbrev numPagCode : Nat := 8
abbrev numPagData : Nat := 20
abbrev pageSize : Nat := 4096
abbrev lUserStart : Nat := 0x100000
abbrev userFirstPage : Nat := lUserStart / pageSize
abbrev pagLogInitData : Nat := lUserStart / pageSize
abbrev pagLogInitCode : Nat := pagLogInitData + numPagData
abbrev userLastPage : Nat := userFirstPage + numPagCode + numPagData
/-- `FREE_FRAME` -/
abbrev freeFrameMark : Nat := 0
abbrev numSharedPages : Nat := 10
abbrev initQuantum : Nat := 1

abbrev echild : Int := 10
abbrev enomem : Int := 12
abbrev efault : Int := 14
abbrev einval : Int := 22
abbrev enoshr : Int := 45

/-- The bits of a `page_table_entry` that the kernel reads or writes. -/
structure PageTableEntry where
  present : Bool
  rw : Bool
  user : Bool
  pbaseAddr : Nat
  deriving DecidableEq, Repr

def PageTableEntry.zero : PageTableEntry := ⟨false, false, false, 0⟩

structure SharedPage where
  frame : Int
  numRefs : Int
  toClear : Int
  deriving DecidableEq, Repr

/-- An index of the arrays `task`, `dir_pages` and `pagusr_table`. -/
abbrev Slot := Fin nrTasks

instance : NeZero nrTasks := ⟨by decide⟩

inductive StateT where
  | run
  | ready
  | blocked
  | zombie
  deriving DecidableEq, Repr

/-- The PCB without its list nodes, which live on the two link heaps. -/
structure TaskStruct where
  pid : Int
  dirPagesBaseAddr : Option Slot
  state : StateT
  parent : Option Slot
  nrTicks : Nat
  quantum : Nat
  pendingUnblocks : Int
  deriving DecidableEq, Repr

end Zeos
