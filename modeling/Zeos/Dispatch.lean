import Mathlib.Data.BitVec

/-!
# The entry by `sysenter`

`entry.S` and `sys_call_table.S`: the range test on `eax`, the call through the
table, and the way the result reaches the user, who finds it in the `eax` that
`RESTORE_ALL` pops. A call of an implemented handler is where the model stops.
-/

namespace Zeos.Dispatch

set_option autoImplicit false

abbrev Word := BitVec 32

def enosys : Word := 40
def userDS : Word := 0x2B
def userCS : Word := 0x23

inductive SysCall where
  | niSyscall
  | exit
  | fork
  | read
  | write
  | gettime
  | gotoxy
  | setColor
  | shmat
  | shmdt
  | shmrm
  | block
  | unblock
  | getpid
  | numsons
  | numbros
  deriving DecidableEq, Repr

def sysCallTable : List SysCall :=
  [.niSyscall, .exit, .fork, .read, .write, .niSyscall, .niSyscall, .niSyscall, .niSyscall,
    .niSyscall, .gettime, .gotoxy, .setColor, .niSyscall, .niSyscall, .shmat, .shmdt, .shmrm,
    .block, .unblock, .getpid, .numsons, .numbros]

/-- `MAX_SYSCALL`, which the assembler computes from the size of the table. -/
def maxSyscall : Word := BitVec.ofNat 32 sysCallTable.length

/-- The comment beside the literal says `ENOSYS`. -/
def sysNiSyscall : Word := -38

structure Registers where
  edx : Word
  ecx : Word
  ebx : Word
  esi : Word
  edi : Word
  ebp : Word
  eax : Word
  ds : Word
  es : Word
  fs : Word
  gs : Word
  deriving DecidableEq, Repr

/-- `SAVE_ALL`, the top of the stack first. -/
def saveAll (r : Registers) (stack : List Word) : List Word :=
  r.edx :: r.ecx :: r.ebx :: r.esi :: r.edi :: r.ebp :: r.eax :: r.ds :: r.es :: r.fs :: r.gs :: stack

/-- `RESTORE_ALL`; there is nothing to pop from a shorter stack. -/
def restoreAll : List Word → Option (Registers × List Word)
  | edx :: ecx :: ebx :: esi :: edi :: ebp :: eax :: ds :: es :: fs :: gs :: stack =>
    some (⟨edx, ecx, ebx, esi, edi, ebp, eax, ds, es, fs, gs⟩, stack)
  | _ => none

/-- What a `sysenter` comes to: the user goes on with these registers, a handler of
the table is called, or a word after the table is taken for a handler. -/
inductive Outcome where
  | returned (user : Registers)
  | invoked (call : SysCall)
  | outside (slot : Nat)
  | underflow
  deriving DecidableEq, Repr

/-- The hardware context that the handler builds for the return. -/
def pushContext (user : Registers) (returnAddress eflags : Word) : List Word :=
  [returnAddress, userCS, eflags, user.ebp, userDS]

/-- From `sysenter_end` on: `eax` goes to `0x18(%esp)`, and `sysexit` takes its two
addresses from the hardware context. -/
def sysenterEnd (eax : Word) (stack : List Word) : Outcome :=
  match restoreAll (stack.set (0x18 / 4) eax) with
  | some (r, returnAddress :: _ :: _ :: userStack :: _) =>
    .returned { r with edx := returnAddress, ecx := userStack }
  | _ => .underflow

def sysCallHandlerSysenter (user : Registers) (returnAddress eflags : Word) : Outcome :=
  let stack := saveAll user (pushContext user returnAddress eflags)
  if user.eax.slt 0 then sysenterEnd (-enosys) stack
  else if maxSyscall.slt user.eax then sysenterEnd (-enosys) stack
  else
    match sysCallTable[user.eax.toNat]? with
    | some .niSyscall => sysenterEnd sysNiSyscall stack
    | some call => .invoked call
    | none => .outside user.eax.toNat

def implemented (n : Word) : Option SysCall :=
  sysCallTable[n.toNat]?.filter fun call => call ≠ .niSyscall

/-- An implemented call is invoked; any other number gives `-ENOSYS`. -/
def Dispatched (user : Registers) (returnAddress eflags : Word) : Prop :=
  match implemented user.eax with
  | some call => sysCallHandlerSysenter user returnAddress eflags = .invoked call
  | none => ∃ r, sysCallHandlerSysenter user returnAddress eflags = .returned r ∧ r.eax = -enosys

section Return
variable (user : Registers) (returnAddress eflags : Word)

theorem sysenterEnd_saveAll (eax : Word) :
    sysenterEnd eax (saveAll user (pushContext user returnAddress eflags)) =
      .returned { user with eax := eax, edx := returnAddress, ecx := user.ebp } := rfl

end Return

theorem slt_zero_iff (n : Word) : n.slt 0 = true ↔ 2 ^ 31 ≤ n.toNat := by
  have hzero : (0 : Word).toInt = 0 := by decide
  have := n.isLt
  rw [BitVec.slt_iff_toInt_lt, hzero, BitVec.toInt_eq_toNat_cond]
  split <;> omega

theorem maxSyscall_slt_iff {n : Word} (hn : n.toNat < 2 ^ 31) :
    maxSyscall.slt n = true ↔ sysCallTable.length < n.toNat := by
  have hmax : maxSyscall.toInt = sysCallTable.length := by decide
  rw [BitVec.slt_iff_toInt_lt, hmax, BitVec.toInt_eq_toNat_cond]
  split <;> omega

section Numbers
variable {user : Registers} {returnAddress eflags : Word}

theorem implemented_none (h : sysCallTable.length ≤ user.eax.toNat) :
    implemented user.eax = none := by
  rw [implemented, List.getElem?_eq_none h]
  rfl

theorem sysenter_refused (h : 2 ^ 31 ≤ user.eax.toNat ∨ sysCallTable.length < user.eax.toNat) :
    sysCallHandlerSysenter user returnAddress eflags =
      .returned { user with eax := -enosys, edx := returnAddress, ecx := user.ebp } := by
  unfold sysCallHandlerSysenter
  by_cases hneg : 2 ^ 31 ≤ user.eax.toNat
  · rw [if_pos ((slt_zero_iff _).mpr hneg)]
    exact sysenterEnd_saveAll user returnAddress eflags (-enosys)
  · rw [if_neg (fun hs => hneg ((slt_zero_iff _).mp hs)),
      if_pos ((maxSyscall_slt_iff (by omega)).mpr (h.resolve_left hneg))]
    exact sysenterEnd_saveAll user returnAddress eflags (-enosys)

/-- All other numbers go through the table, `MAX_SYSCALL` included. -/
theorem sysenter_called (returnAddress eflags : Word) (h : user.eax.toNat ≤ sysCallTable.length) :
    sysCallHandlerSysenter user returnAddress eflags =
      match sysCallTable[user.eax.toNat]? with
      | some .niSyscall => .returned { user with
          eax := sysNiSyscall, edx := returnAddress, ecx := user.ebp }
      | some call => .invoked call
      | none => .outside user.eax.toNat := by
  have hlen : sysCallTable.length < 2 ^ 31 := by decide
  unfold sysCallHandlerSysenter
  rw [if_neg (fun hs => by have := (slt_zero_iff _).mp hs; omega),
    if_neg (fun hs => by have := (maxSyscall_slt_iff (by omega)).mp hs; omega)]
  rfl

/-- A number is dispatched as it should be, unless it is `MAX_SYSCALL` itself, which
has no entry and still passes the test, or a gap of the table, whose stub answers
with another error number. -/
theorem dispatched_iff (user : Registers) (returnAddress eflags : Word) :
    Dispatched user returnAddress eflags ↔
      user.eax ≠ maxSyscall ∧ sysCallTable[user.eax.toNat]? ≠ some .niSyscall := by
  have hmax : maxSyscall.toNat = sysCallTable.length := by decide
  have heq : user.eax = maxSyscall ↔ user.eax.toNat = sysCallTable.length := by
    rw [← hmax]
    exact BitVec.toNat_inj.symm
  rcases Nat.lt_trichotomy user.eax.toNat sysCallTable.length with hlt | hmid | hgt
  · obtain ⟨call, hcall⟩ : ∃ call, sysCallTable[user.eax.toNat]? = some call :=
      ⟨_, List.getElem?_eq_getElem hlt⟩
    have hrun := sysenter_called returnAddress eflags hlt.le
    rw [hcall] at hrun
    have hne : user.eax ≠ maxSyscall := fun he => hlt.ne (heq.mp he)
    unfold Dispatched implemented
    rw [hcall]
    by_cases hni : call = .niSyscall
    · subst hni
      refine iff_of_false ?_ (fun h => h.2 rfl)
      rintro ⟨r, hr, heax⟩
      cases hrun.symm.trans hr
      have herror : sysNiSyscall ≠ -enosys := by decide
      exact herror heax
    · refine iff_of_true ?_ ⟨hne, fun he => hni (Option.some.inj he)⟩
      simp only [Option.filter_some, hni, ne_eq, not_false_eq_true, decide_true, if_true]
      rw [hrun]
      cases call with
      | niSyscall => exact absurd rfl hni
      | _ => rfl
  · have hrun := sysenter_called returnAddress eflags hmid.le
    rw [List.getElem?_eq_none hmid.ge] at hrun
    refine iff_of_false ?_ (fun h => h.1 (heq.mpr hmid))
    unfold Dispatched
    rw [implemented_none hmid.ge]
    rintro ⟨r, hr, _⟩
    cases hrun.symm.trans hr
  · refine iff_of_true ?_ ⟨fun he => hgt.ne' (heq.mp he), ?_⟩
    · unfold Dispatched
      rw [implemented_none hgt.le]
      exact ⟨_, sysenter_refused (.inr hgt), rfl⟩
    · rw [List.getElem?_eq_none hgt.le]
      exact fun h => nomatch h

end Numbers

def asking (n : Word) : Registers := ⟨0, 0, 0, 0, 0, 0, n, userDS, userDS, userDS, userDS⟩

theorem gaps_not_dispatched :
    sysCallHandlerSysenter (asking 23) 0 0 = .outside 23 ∧ ¬ Dispatched (asking 23) 0 0 ∧
    sysCallHandlerSysenter (asking 0) 0 0 = .returned (asking (-38)) ∧
    ¬ Dispatched (asking 0) 0 0 := by
  refine ⟨by decide, ?_, by decide, ?_⟩
  · rintro ⟨r, hr, _⟩
    cases hr
  · rintro ⟨r, hr, heax⟩
    cases hr
    revert heax
    decide

end Zeos.Dispatch
