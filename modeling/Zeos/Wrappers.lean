import Zeos.Switching

/-!
# System calls from user mode and back

`user_misc.S` and the way through `sys_call_handler_sysenter`, instruction by
instruction, on the two stacks. A handler of the table is compiled code and is taken
by its calling convention: `Handles` says what it may change.
-/

namespace Zeos.Stacks

open Dispatch hiding Word
open Words Cpu
set_option autoImplicit false

def kernelDS : Word := 0x18

/-- The addresses of the user program that the wrappers use. -/
structure UserImage where
  sysenterReturn : Word
  errno : Word

def loadEdx (c : Cpu) : Cpu := { c with regs := { c.regs with edx := c.mem (c.regs.ebp + 8) } }
def loadEcx (c : Cpu) : Cpu := { c with regs := { c.regs with ecx := c.mem (c.regs.ebp + 0xc) } }
def loadEbx (c : Cpu) : Cpu := { c with regs := { c.regs with ebx := c.mem (c.regs.ebp + 0x10) } }

def loadParams : Nat → Cpu → Cpu
  | 0, c => c
  | 1, c => loadEdx c
  | 2, c => loadEcx (loadEdx c)
  | _, c => loadEbx (loadEcx (loadEdx c))

/-- "Saving ecx, edx and the return eip", and the dynamic link that the handler reads
through. -/
def prepareSysenter (U : UserImage) (c : Cpu) : Cpu :=
  let c := c.pushl c.regs.ecx
  let c := c.pushl c.regs.edx
  let c := c.pushl U.sysenterReturn
  let c := c.pushl c.regs.ebp
  c.enter

/-- A wrapper up to its `sysenter`. -/
def wrapper (number : Word) (params : Nat) (U : UserImage) (c : Cpu) : Cpu :=
  let c := c.pushl c.regs.ebp
  let c := c.enter
  let c := c.pushl c.regs.ebx
  let c := c.pushl c.regs.esi
  let c := c.pushl c.regs.edi
  let c := { c with regs := { c.regs with eax := number } }
  let c := loadParams params c
  prepareSysenter U c

def exit := wrapper 0x01 0
def fork := wrapper 0x02 0
def read := wrapper 0x03 2
def write := wrapper 4 3
def gettime := wrapper 10 0
def gotoxy := wrapper 0x0B 2
def setColor := wrapper 0x0C 2
def shmat := wrapper 0x0F 2
def shmdt := wrapper 0x10 1
def shmrm := wrapper 0x11 1
def block := wrapper 0x12 0
def unblock := wrapper 0x13 1
def getpid := wrapper 20 0
def numsons := wrapper 0x15 0
def numbros := wrapper 0x16 0

/-- A wrapper, its number of parameters, and the handler that it is for. -/
def wrappers : List ((UserImage → Cpu → Cpu) × Nat × SysCall) :=
  [(exit, 0, .exit), (fork, 0, .fork), (read, 2, .read), (write, 3, .write),
    (gettime, 0, .gettime), (gotoxy, 2, .gotoxy), (setColor, 2, .setColor), (shmat, 2, .shmat),
    (shmdt, 1, .shmdt), (shmrm, 1, .shmrm), (block, 0, .block), (unblock, 1, .unblock),
    (getpid, 0, .getpid), (numsons, 0, .numsons), (numbros, 0, .numbros)]

/-- "If eax is positive, jump to the end" -/
def setErrno (U : UserImage) (c : Cpu) : Cpu :=
  if c.regs.eax.slt 0 then
    let c := { c with regs := { c.regs with eax := -c.regs.eax } }
    let c := c.store U.errno c.regs.eax
    { c with regs := { c.regs with eax := -1 } }
  else c

/-- The label `sysenter_return`, where all wrappers come back. -/
def sysenterReturn (U : UserImage) (c : Cpu) : Word × Cpu :=
  let c := popEbp c
  let c := c.popl fun r v => { r with edx := v }
  let c := c.popl fun r v => { r with edx := v }
  let c := c.popl fun r v => { r with ecx := v }
  let c := popEdi c
  let c := popEsi c
  let c := popEbx c
  let c := setErrno U c
  let c := popEbp c
  c.ret

/-- `SAVE_ALL` -/
def pushRegisters (c : Cpu) : Cpu :=
  let c := c.pushl c.regs.gs
  let c := c.pushl c.regs.fs
  let c := c.pushl c.regs.es
  let c := c.pushl c.regs.ds
  let c := c.pushl c.regs.eax
  let c := c.pushl c.regs.ebp
  let c := c.pushl c.regs.edi
  let c := c.pushl c.regs.esi
  let c := c.pushl c.regs.ebx
  let c := c.pushl c.regs.ecx
  let c := c.pushl c.regs.edx
  let c := { c with regs := { c.regs with edx := kernelDS } }
  let c := { c with regs := { c.regs with ds := c.regs.edx } }
  { c with regs := { c.regs with es := c.regs.edx } }

def popGeneral (c : Cpu) : Cpu :=
  let c := c.popl fun r v => { r with edx := v }
  let c := c.popl fun r v => { r with ecx := v }
  let c := popEbx c
  let c := popEsi c
  let c := popEdi c
  let c := popEbp c
  c.popl fun r v => { r with eax := v }

def popSegments (c : Cpu) : Cpu :=
  let c := c.popl fun r v => { r with ds := v }
  let c := c.popl fun r v => { r with es := v }
  let c := c.popl fun r v => { r with fs := v }
  c.popl fun r v => { r with gs := v }

/-- `RESTORE_ALL` -/
def popRegisters (c : Cpu) : Cpu := popSegments (popGeneral c)

/-- From the `sysenter` of the user to the first instruction of a handler. -/
def callHandler (L : Image) (eflags : Word) (c : Cpu) : Cpu :=
  let c := { c with esp := c.msrEsp }
  let c := c.pushl userDS
  let c := c.pushl c.regs.ebp
  let c := c.pushl eflags
  let c := c.pushl userCS
  let c := c.pushl (c.mem (c.regs.ebp + 4))
  let c := pushRegisters c
  c.pushl L.callReturn

/-- `sysexit` with the two addresses from the return context. -/
def sysexit (c : Cpu) : Word × Cpu :=
  let c := { c with regs := { c.regs with edx := c.mem c.esp } }
  let c := { c with regs := { c.regs with ecx := c.mem (c.esp + 0xc) } }
  (c.regs.edx, { c with esp := c.regs.ecx })

/-- From `sysenter_end` to the user, with the address where the user goes on. -/
def returnToUser (c : Cpu) : Word × Cpu :=
  let c := c.store (c.esp + 0x18) c.regs.eax
  let c := popRegisters c
  sysexit c

section User
variable {U : UserImage} {u ret : Word} {c : Cpu} {args rest : List Word}

theorem loadParams_spec {ws : List Word} {m : Memory}
    (h : Working u 0 8 4 (ws ++ ret :: (args ++ rest)) m c) (hws : ws.length = 4)
    (hebp : c.regs.ebp = above u 7) (hargs : args.length ≤ 3) :
    ∃ edx ecx ebx, loadParams args.length c =
        { c with regs := { c.regs with edx := edx, ecx := ecx, ebx := ebx } } ∧
      args <+: [edx, ecx, ebx] := by
  have hload : ∀ {k v}, args[k]? = some v → c.mem (c.regs.ebp + BitVec.ofNat 32 (4 * (k + 2))) = v := by
    intro k v hk
    have hget : (ws ++ ret :: (args ++ rest))[5 + k]? = some v := by
      rw [List.getElem?_append_right (by omega), hws]
      have he : 5 + k - 4 = k + 1 := by omega
      rw [he, List.getElem?_cons_succ, List.getElem?_append_left]
      · exact hk
      · exact (List.getElem?_eq_some_iff.mp hk).1
    have := h.load hget
    rw [hebp]
    refine Eq.trans ?_ this
    change c.mem (above (above u 7) (k + 2)) = _
    rw [above_add]
    congr 2
    omega
  rcases args with _ | ⟨a, _ | ⟨b, _ | ⟨d, _ | ⟨x, args⟩⟩⟩⟩
  · exact ⟨c.regs.edx, c.regs.ecx, c.regs.ebx, rfl, List.nil_prefix⟩
  · refine ⟨a, c.regs.ecx, c.regs.ebx, ?_, ⟨_, rfl⟩⟩
    have ha : c.mem (c.regs.ebp + 8) = a := hload (k := 0) rfl
    simp only [List.length_cons, List.length_nil, loadParams, loadEdx, ha]
  · refine ⟨a, b, c.regs.ebx, ?_, ⟨_, rfl⟩⟩
    have ha : c.mem (c.regs.ebp + 8) = a := hload (k := 0) rfl
    have hb : c.mem (c.regs.ebp + 0xc) = b := hload (k := 1) rfl
    simp only [List.length_cons, List.length_nil, loadParams, loadEdx, loadEcx, ha, hb]
  · refine ⟨a, b, d, ?_, ⟨_, rfl⟩⟩
    have ha : c.mem (c.regs.ebp + 8) = a := hload (k := 0) rfl
    have hb : c.mem (c.regs.ebp + 0xc) = b := hload (k := 1) rfl
    have hd : c.mem (c.regs.ebp + 0x10) = d := hload (k := 2) rfl
    simp only [List.length_cons, List.length_nil, loadParams, loadEdx, loadEcx, loadEbx, ha, hb, hd]
  · simp only [List.length_cons] at hargs
    omega

theorem prepareSysenter_spec {ws : List Word} {m : Memory} (h : Working u 0 8 4 ws m c) :
    Working u 0 8 0 (c.regs.ebp :: U.sysenterReturn :: c.regs.edx :: c.regs.ecx :: ws) m
        (prepareSysenter U c) ∧
      ∃ esp mem, prepareSysenter U c = { c with
        regs := { c.regs with ebp := above u 0 }, esp := esp, mem := mem } := by
  have h₁ := (((h.pushl c.regs.ecx (by omega) (by omega)).pushl c.regs.edx (by omega) (by omega)).pushl
    U.sysenterReturn (by omega) (by omega)).pushl c.regs.ebp (by omega) (by omega)
  refine ⟨h₁.of_eq rfl rfl, (prepareSysenter U c).esp, (prepareSysenter U c).mem, ?_⟩
  rw [← h₁.esp]
  rfl

/-- The frame of a wrapper at its `sysenter`. -/
theorem wrapper_spec {m : Memory} (number : Word)
    (h : Working u 0 8 8 (ret :: (args ++ rest)) m c) (hargs : args.length ≤ 3) :
    ∃ edx ecx ebx, args <+: [edx, ecx, ebx] ∧
      Working u 0 8 0 (above u 7 :: U.sysenterReturn :: edx :: ecx :: c.regs.edi :: c.regs.esi ::
        c.regs.ebx :: c.regs.ebp :: ret :: (args ++ rest)) m (wrapper number args.length U c) ∧
      ∃ esp mem, wrapper number args.length U c = { c with
        regs := { c.regs with edx := edx, ecx := ecx, ebx := ebx, eax := number, ebp := above u 0 }
        esp := esp, mem := mem } := by
  have h₁ := (h.pushl c.regs.ebp (by omega) (by omega)).enter
  have hebp : (c.pushl c.regs.ebp).esp = above u 7 := h₁.esp
  have h₂ := ((h₁.pushl c.regs.ebx (by omega) (by omega)).pushl c.regs.esi (by omega) (by omega)).pushl
    c.regs.edi (by omega) (by omega)
  let c₃ : Cpu := (((c.pushl c.regs.ebp).enter.pushl c.regs.ebx).pushl c.regs.esi).pushl c.regs.edi
  have h₃ : Working u 0 8 4 ([c.regs.edi, c.regs.esi, c.regs.ebx, c.regs.ebp] ++ ret :: (args ++ rest)) m
      { c₃ with regs := { c₃.regs with eax := number } } := h₂.of_eq rfl rfl
  obtain ⟨edx, ecx, ebx, hload, hpre⟩ := loadParams_spec h₃ rfl hebp hargs
  have h₄ := h₃.of_eq (d := { c₃ with
    regs := { c₃.regs with eax := number, edx := edx, ecx := ecx, ebx := ebx } }) rfl rfl
  have hcode : wrapper number args.length U c = prepareSysenter U { c₃ with
      regs := { c₃.regs with eax := number, edx := edx, ecx := ecx, ebx := ebx } } :=
    congrArg (prepareSysenter U) hload
  obtain ⟨h₅, esp, mem, hprep⟩ := prepareSysenter_spec (U := U) h₄
  rw [hcode]
  refine ⟨edx, ecx, ebx, hpre, ?_, esp, mem, hprep⟩
  rw [← hebp]
  exact h₅

/-- What the caller of a wrapper gets for the result of the handler. -/
def Delivered (U : UserImage) (result : Word) (m : Memory) (c : Cpu) : Prop :=
  if result.slt 0 then c.regs.eax = -1 ∧ c.mem = Function.update m U.errno (-result)
  else c.regs.eax = result ∧ c.mem = m

theorem Delivered.of_eq {result : Word} {m : Memory} {c' : Cpu} (h : Delivered U result m c)
    (heax : c'.regs.eax = c.regs.eax) (hmem : c'.mem = c.mem) : Delivered U result m c' := by
  unfold Delivered at h ⊢
  rwa [heax, hmem]

theorem setErrno_spec {ws : List Word} {m : Memory} {n : Nat} (h : Working u 0 8 n ws m c)
    (herrno : ∀ k, k < ws.length → above u (n + k) ≠ U.errno) :
    Delivered U c.regs.eax c.mem (setErrno U c) ∧
      (∃ m', Working u 0 8 n ws m' (setErrno U c)) ∧
      ∃ eax mem, setErrno U c = { c with regs := { c.regs with eax := eax }, mem := mem } := by
  unfold setErrno Delivered
  by_cases hneg : c.regs.eax.slt 0
  · rw [if_pos hneg, if_pos hneg]
    refine ⟨⟨rfl, rfl⟩, ⟨_, h.esp, ?_, h.bound, .refl _ _ _ _⟩, _, _, rfl⟩
    apply h.holds.update
    intro k hk
    rw [above_add]
    exact herrno k hk
  · rw [if_neg hneg, if_neg hneg]
    exact ⟨⟨rfl, rfl⟩, ⟨m, h⟩, _, _, rfl⟩

theorem sysenterReturn_spec {link x edx ecx edi esi ebx ebp : Word} {m : Memory}
    (h : Working u 0 8 0 (link :: x :: edx :: ecx :: edi :: esi :: ebx :: ebp :: ret :: rest) m c)
    (herrno : ∀ k, k < 9 + rest.length → above u k ≠ U.errno) :
    (sysenterReturn U c).1 = ret ∧ (sysenterReturn U c).2.esp = above u 9 ∧
      (∃ eax, (sysenterReturn U c).2.regs = { c.regs with
        edx := edx, ecx := ecx, ebx := ebx, esi := esi, edi := edi, ebp := ebp, eax := eax }) ∧
      Delivered U c.regs.eax c.mem (sysenterReturn U c).2 := by
  obtain ⟨h₁, hr₁⟩ := h.popl rfl fun r v => { r with ebp := v }
  obtain ⟨h₂, hr₂⟩ := h₁.popl hr₁ fun r v => { r with edx := v }
  obtain ⟨h₃, hr₃⟩ := h₂.popl hr₂ fun r v => { r with edx := v }
  obtain ⟨h₄, hr₄⟩ := h₃.popl hr₃ fun r v => { r with ecx := v }
  obtain ⟨h₅, hr₅⟩ := h₄.popl hr₄ fun r v => { r with edi := v }
  obtain ⟨h₆, hr₆⟩ := h₅.popl hr₅ fun r v => { r with esi := v }
  obtain ⟨h₇, hr₇⟩ := h₆.popl hr₆ fun r v => { r with ebx := v }
  let g : Cpu := popEbx (popEsi (popEdi (popl (fun r v => { r with ecx := v })
    (popl (fun r v => { r with edx := v }) (popl (fun r v => { r with edx := v }) (popEbp c))))))
  have hg : g.regs = { c.regs with
    ebp := link, edx := edx, ecx := ecx, edi := edi, esi := esi, ebx := ebx } := hr₇
  obtain ⟨hdel, ⟨m', h₈⟩, eax, mem, hset⟩ := setErrno_spec (U := U) (c := g) h₇ (by
    intro k hk
    rw [List.length_cons, List.length_cons] at hk
    exact herrno _ (by omega))
  have hr₈ : (setErrno U g).regs = { g.regs with eax := eax } := by rw [hset]
  rw [hg] at hr₈
  obtain ⟨h₉, hr₉⟩ := h₈.popl hr₈ fun r v => { r with ebp := v }
  obtain ⟨hret, h₁₀⟩ := h₉.ret
  have heax : g.regs.eax = c.regs.eax := by rw [hg]
  refine ⟨hret, h₁₀.esp, ⟨eax, hr₉⟩, ?_⟩
  rw [← heax]
  exact hdel.of_eq ((congrArg Registers.eax hr₉).trans (congrArg Registers.eax hr₈).symm) rfl

end User

section Kernel
variable {L : Image} {p : Slot} {c : Cpu} {m : Memory}

theorem pushRegisters_spec {lo hi n : Nat} {ws : List Word} {a : Word}
    (h : Working a lo hi (n + 11) ws m c) (hlo : lo ≤ n) (hhi : n + 11 ≤ hi) :
    Working a lo hi n (saveAll c.regs ws) m (pushRegisters c) ∧
      (pushRegisters c).regs = { c.regs with edx := kernelDS, ds := kernelDS, es := kernelDS } := by
  have h₁ := (((h.pushl c.regs.gs (by omega) (by omega)).pushl c.regs.fs (by omega) (by omega)).pushl
    c.regs.es (by omega) (by omega)).pushl c.regs.ds (by omega) (by omega)
  have h₂ := (((h₁.pushl c.regs.eax (by omega) (by omega)).pushl c.regs.ebp (by omega) (by omega)).pushl
    c.regs.edi (by omega) (by omega)).pushl c.regs.esi (by omega) (by omega)
  have h₃ := ((h₂.pushl c.regs.ebx (by omega) (by omega)).pushl c.regs.ecx (by omega) (by omega)).pushl
    c.regs.edx (by omega) (by omega)
  exact ⟨h₃.of_eq rfl rfl, rfl⟩

/-- The stack of a handler: its return address, and above that the registers of the
user, which are its parameters, and the return context. -/
theorem callHandler_spec {ret : Word} (eflags : Word) (htop : c.msrEsp = L.stack p kernelStackSize)
    (hret : c.mem (c.regs.ebp + 4) = ret)
    (hapart : ∀ j, j < 1024 → c.regs.ebp + 4 ≠ L.stack p j) :
    Working L.task (1024 * p + 1007) (1024 * p + 1024) (1024 * p + 1007)
        (L.callReturn :: saveAll c.regs (pushContext c.regs ret eflags)) c.mem
        (callHandler L eflags c) ∧
      (callHandler L eflags c).regs = { c.regs with edx := kernelDS, ds := kernelDS, es := kernelDS } := by
  have hp := slot_lt p
  have h₀ : Working L.task (1024 * p + 1007) (1024 * p + 1024) (1024 * p + 1024) [] c.mem
      { c with esp := c.msrEsp } := ⟨htop, trivial, by rw [List.length_nil]; omega, .refl _ _ _ _⟩
  have h₁ := (((h₀.pushl userDS (by omega) (by omega)).pushl c.regs.ebp (by omega) (by omega)).pushl
    eflags (by omega) (by omega)).pushl userCS (by omega) (by omega)
  let d : Cpu := ((({ c with esp := c.msrEsp }.pushl userDS).pushl c.regs.ebp).pushl eflags).pushl userCS
  have hread : d.mem (d.regs.ebp + 4) = ret := by
    refine (h₁.same _ ?_).trans hret
    intro k hlo hhi he
    obtain ⟨j, rfl⟩ := Nat.exists_eq_add_of_le (Nat.le_of_add_right_le hlo)
    exact hapart j (by omega) he
  have h₂ := h₁.pushl (d.mem (d.regs.ebp + 4)) (by omega) (by omega)
  obtain ⟨h₃, hregs⟩ := pushRegisters_spec h₂ (by omega) (by omega)
  have h₄ := h₃.pushl L.callReturn (by omega) (by omega)
  refine ⟨?_, hregs⟩
  rw [← hread]
  exact h₄

theorem popGeneral_spec {lo hi n : Nat} {a edx ecx ebx esi edi ebp eax : Word} {ws : List Word}
    (h : Working a lo hi n (edx :: ecx :: ebx :: esi :: edi :: ebp :: eax :: ws) m c) :
    Working a lo hi (n + 7) ws m (popGeneral c) ∧ (popGeneral c).regs =
      ⟨edx, ecx, ebx, esi, edi, ebp, eax, c.regs.ds, c.regs.es, c.regs.fs, c.regs.gs⟩ := by
  obtain ⟨h₁, hr₁⟩ := h.popl rfl fun r v => { r with edx := v }
  obtain ⟨h₂, hr₂⟩ := h₁.popl hr₁ fun r v => { r with ecx := v }
  obtain ⟨h₃, hr₃⟩ := h₂.popl hr₂ fun r v => { r with ebx := v }
  obtain ⟨h₄, hr₄⟩ := h₃.popl hr₃ fun r v => { r with esi := v }
  obtain ⟨h₅, hr₅⟩ := h₄.popl hr₄ fun r v => { r with edi := v }
  obtain ⟨h₆, hr₆⟩ := h₅.popl hr₅ fun r v => { r with ebp := v }
  obtain ⟨h₇, hr₇⟩ := h₆.popl hr₆ fun r v => { r with eax := v }
  exact ⟨h₇, hr₇⟩

theorem popSegments_spec {lo hi n : Nat} {a ds es fs gs : Word} {ws : List Word}
    (h : Working a lo hi n (ds :: es :: fs :: gs :: ws) m c) :
    Working a lo hi (n + 4) ws m (popSegments c) ∧
      (popSegments c).regs = { c.regs with ds := ds, es := es, fs := fs, gs := gs } := by
  obtain ⟨h₁, hr₁⟩ := h.popl rfl fun r v => { r with ds := v }
  obtain ⟨h₂, hr₂⟩ := h₁.popl hr₁ fun r v => { r with es := v }
  obtain ⟨h₃, hr₃⟩ := h₂.popl hr₂ fun r v => { r with fs := v }
  obtain ⟨h₄, hr₄⟩ := h₃.popl hr₃ fun r v => { r with gs := v }
  exact ⟨h₄, hr₄⟩

theorem popRegisters_spec {lo hi n : Nat} {ws : List Word} {a : Word} {r : Registers}
    (h : Working a lo hi n (saveAll r ws) m c) :
    Working a lo hi (n + 11) ws m (popRegisters c) ∧ (popRegisters c).regs = r := by
  obtain ⟨h₁, hr₁⟩ := popGeneral_spec h
  obtain ⟨h₂, hr₂⟩ := popSegments_spec h₁
  rw [hr₁] at hr₂
  exact ⟨h₂, hr₂⟩

theorem sysexit_spec {lo hi n : Nat} {a ret x y esp : Word} {ws : List Word}
    (h : Working a lo hi n (ret :: x :: y :: esp :: ws) m c) :
    sysexit c = (ret, { c with regs := { c.regs with edx := ret, ecx := esp }, esp := esp }) := by
  have hret : c.mem c.esp = ret := by
    rw [h.esp]
    exact h.holds.1
  have hesp : c.mem (c.esp + 12) = esp := by
    rw [h.esp, ← above_three, above_add]
    exact h.load rfl
  unfold sysexit
  simp only [hret, hesp]

theorem returnToUser_spec {r user : Registers} {ret eflags : Word} (hesp : c.esp = L.stack p 1008)
    (hwords : Holds c.mem (L.stack p 1008) (saveAll r (pushContext user ret eflags))) :
    (returnToUser c).1 = ret ∧ (returnToUser c).2.esp = user.ebp ∧
      (returnToUser c).2.regs = { r with eax := c.regs.eax, edx := ret, ecx := user.ebp } ∧
      (returnToUser c).2.mem = Function.update c.mem (L.stack p 1014) c.regs.eax := by
  have hp := slot_lt p
  have hindex : 1008 + 6 = 1014 := rfl
  have hcell : c.esp + 0x18 = L.stack p 1014 := by
    rw [hesp, ← hindex]
    exact stack_above L p 1008 6
  have hlen : (saveAll r (pushContext user ret eflags)).length = 16 := rfl
  have hset := hwords.set (k := 6) (by omega) (by omega) c.regs.eax
  rw [stack_above, hindex] at hset
  have h₀ : Working L.task (1024 * p) (1024 * p + 1024) (1024 * p + 1008)
      (saveAll { r with eax := c.regs.eax } (pushContext user ret eflags))
      (Function.update c.mem (L.stack p 1014) c.regs.eax) (c.store (c.esp + 0x18) c.regs.eax) := by
    rw [hcell]
    refine ⟨hesp, hset, ?_, .refl _ _ _ _⟩
    change 1024 * p.val + 1008 + 16 ≤ _
    omega
  obtain ⟨h₁, hregs⟩ := popRegisters_spec h₀
  have hexit := sysexit_spec h₁
  rw [hregs, hcell] at hexit
  unfold returnToUser
  rw [hcell, hexit]
  exact ⟨rfl, rfl, rfl, rfl⟩

end Kernel

/-- What a call leaves as it was. -/
structure Preserved (r r' : Registers) : Prop where
  ebx : r'.ebx = r.ebx
  esi : r'.esi = r.esi
  edi : r'.edi = r.edi
  ebp : r'.ebp = r.ebp
  ds : r'.ds = r.ds
  es : r'.es = r.es
  fs : r'.fs = r.fs
  gs : r'.gs = r.gs

/-- From the first instruction of a handler to its return. A handler is a C function:
it may use the words of its parameters, and it writes nothing else of the context,
nor the frame of the wrapper, which is below all that the caller uses. -/
structure Handles (L : Image) (p : Slot) (u : Word) (params : Nat) (c c' : Cpu) : Prop where
  esp : c'.esp = c.esp + 4
  regs : Preserved c.regs c'.regs
  kernel : ∀ j, 1008 + params ≤ j → j < kernelStackSize → c'.mem (L.stack p j) = c.mem (L.stack p j)
  user : ∀ k, k < 9 → c'.mem (above u k) = c.mem (above u k)

section Calls
variable {L : Image} {U : UserImage} {p : Slot} {u ret : Word} {c d' : Cpu} {args : List Word}

theorem Handles.context {params : Nat} {r : Registers} {returnAddress eflags : Word} {d : Cpu}
    (h : Handles L p u params d d') (hparams : params ≤ 3)
    (hd : Holds d.mem (L.stack p 1008) (saveAll r (pushContext r returnAddress eflags))) :
    ∃ edx ecx ebx, Holds d'.mem (L.stack p 1008)
      (saveAll { r with edx := edx, ecx := ecx, ebx := ebx } (pushContext r returnAddress eflags)) := by
  have hsplit : Holds d.mem (L.stack p 1008) ([r.edx, r.ecx, r.ebx] ++
      (saveAll r (pushContext r returnAddress eflags)).drop 3) := hd
  have hlen : [r.edx, r.ecx, r.ebx].length = 3 := rfl
  have hrest := hsplit.drop
  rw [hlen, stack_above] at hrest
  have hafter : Holds d'.mem (L.stack p (1008 + 3)) ((saveAll r (pushContext r returnAddress eflags)).drop 3) := by
    apply hrest.congr
    intro k hk
    have hk' : k < 13 := hk
    rw [stack_above]
    apply h.kernel
    · omega
    · rw [kernelStackSize]
      omega
  rw [← stack_above, above_succ, above_succ, above_succ, above_zero] at hafter
  exact ⟨_, _, _, rfl, rfl, rfl, hafter⟩

theorem wrapper_number {e : (UserImage → Cpu → Cpu) × Nat × SysCall} (he : e ∈ wrappers) :
    ∃ number, e.1 = wrapper number e.2.1 ∧ e.2.1 ≤ 3 ∧ number.toNat ≤ sysCallTable.length ∧
      sysCallTable[number.toNat]? = some e.2.2 ∧ e.2.2 ≠ .niSyscall := by
  unfold wrappers at he
  repeat
    rcases List.mem_cons.mp he with rfl | he
    · exact ⟨_, rfl, by decide, by decide, rfl, by decide⟩
  exact absurd he List.not_mem_nil

theorem sysenter_invoked {r : Registers} {call : SysCall} (returnAddress eflags : Word)
    (hn : r.eax.toNat ≤ sysCallTable.length) (hcall : sysCallTable[r.eax.toNat]? = some call)
    (hne : call ≠ .niSyscall) : sysCallHandlerSysenter r returnAddress eflags = .invoked call := by
  rw [sysenter_called returnAddress eflags hn, hcall]
  cases call with
  | niSyscall => exact absurd rfl hne
  | _ => rfl

theorem Handles.returns {params : Nat} {edx ecx ebx eax link eflags : Word} {r user : Registers}
    {d : Cpu} (h : Handles L p u params d d') (hparams : params ≤ 3) (hesp : d.esp = L.stack p 1007)
    (hcontext : Holds d.mem (L.stack p 1008) (saveAll r (pushContext r U.sysenterReturn eflags)))
    (hr : r = { user with edx := edx, ecx := ecx, ebx := ebx, eax := eax, ebp := above u 0 })
    (hframe : Holds d.mem (above u 0)
      [link, U.sysenterReturn, edx, ecx, user.edi, user.esi, user.ebx, user.ebp, ret])
    (hkernel : ∀ k, k < 9 → ∀ j, j < 1024 → above u k ≠ L.stack p j)
    (herrno : ∀ k, k < 9 → above u k ≠ U.errno) :
    (returnToUser d').1 = U.sysenterReturn ∧
      (sysenterReturn U (returnToUser d').2).1 = ret ∧
      (sysenterReturn U (returnToUser d').2).2.esp = above u 9 ∧
      Preserved user (sysenterReturn U (returnToUser d').2).2.regs ∧
      Delivered U d'.regs.eax (Function.update d'.mem (L.stack p 1014) d'.regs.eax)
        (sysenterReturn U (returnToUser d').2).2 := by
  subst hr
  obtain ⟨edx', ecx', ebx', hwords⟩ := h.context hparams hcontext
  have hesp' : d'.esp = L.stack p 1008 := by
    rw [h.esp, hesp, ← above_one, stack_above]
  obtain ⟨heip, huser, hregs, hmem⟩ := returnToUser_spec hesp' hwords
  generalize returnToUser d' = x at *
  have hw : Working u 0 8 0
      [link, U.sysenterReturn, edx, ecx, user.edi, user.esi, user.ebx, user.ebp, ret] x.2.mem x.2 := by
    refine ⟨huser, ?_, ?_, .refl _ _ _ _⟩
    · rw [hmem]
      refine (hframe.congr fun k hk => ?_).update fun k hk => ?_
      · rw [above_add]
        exact h.user _ (by rw [Nat.zero_add]; exact hk)
      · rw [above_add, Nat.zero_add]
        exact hkernel k hk 1014 (by decide)
    · change 0 + 9 ≤ _
      omega
  obtain ⟨hret, hesp'', ⟨eax', hr⟩, hdel⟩ := sysenterReturn_spec (U := U) hw herrno
  rw [hregs] at hr hdel
  rw [hmem] at hdel
  refine ⟨heip, hret, hesp'', ?_, hdel⟩
  rw [hr]
  exact ⟨rfl, rfl, rfl, rfl, rfl, rfl, rfl, rfl⟩

/-- A call of a wrapper with its arguments on the stack of the user: the handler that
it is for is called with these arguments, and when that returns, so does the
wrapper, with the result of the handler, or -1 and `errno`. -/
theorem systemCall_returns {w : UserImage → Cpu → Cpu} {params : Nat} {call : SysCall}
    (hw : (w, params, call) ∈ wrappers) (hargs : args.length = params) (hesp : c.esp = above u 8)
    (hstack : Holds c.mem (above u 8) (ret :: args)) (hmsr : c.msrEsp = L.stack p kernelStackSize)
    (hkernel : ∀ k, k < 9 → ∀ j, j < 1024 → above u k ≠ L.stack p j)
    (herrno : ∀ k, k < 9 → above u k ≠ U.errno) (eflags : Word) :
    sysCallHandlerSysenter (w U c).regs U.sysenterReturn eflags = .invoked call ∧
    InCall L p (w U c).regs U.sysenterReturn eflags (callHandler L eflags (w U c)) ∧
    (callHandler L eflags (w U c)).mem (callHandler L eflags (w U c)).esp = L.callReturn ∧
    Holds (callHandler L eflags (w U c)).mem ((callHandler L eflags (w U c)).esp + 4) args ∧
    ∀ d', Handles L p u params (callHandler L eflags (w U c)) d' →
      (returnToUser d').1 = U.sysenterReturn ∧
      (sysenterReturn U (returnToUser d').2).1 = ret ∧
      (sysenterReturn U (returnToUser d').2).2.esp = above u 9 ∧
      Preserved c.regs (sysenterReturn U (returnToUser d').2).2.regs ∧
      Delivered U d'.regs.eax (Function.update d'.mem (L.stack p 1014) d'.regs.eax)
        (sysenterReturn U (returnToUser d').2).2 := by
  obtain ⟨number, hnumber, hparams, hle, hentry, hne⟩ := wrapper_number hw
  simp only at hnumber hparams hentry hne
  subst hargs hnumber
  have hp := slot_lt p
  have h₀ : Working u 0 8 8 (ret :: (args ++ [])) c.mem c := by
    rw [List.append_nil]
    refine ⟨hesp, hstack, ?_, .refl _ _ _ _⟩
    rw [List.length_cons]
    omega
  obtain ⟨edx, ecx, ebx, hpre, h₁, esp, mem, hcode⟩ := wrapper_spec (U := U) number h₀ hparams
  have hregs : (wrapper number args.length U c).regs =
      { c.regs with edx := edx, ecx := ecx, ebx := ebx, eax := number, ebp := above u 0 } := by rw [hcode]
  have htop : (wrapper number args.length U c).msrEsp = L.stack p kernelStackSize := by
    rw [hcode]
    exact hmsr
  generalize wrapper number args.length U c = e at *
  have heax : e.regs.eax = number := by rw [hregs]
  have hebp : e.regs.ebp = above u 0 := by rw [hregs]
  have hlink : e.regs.ebp + 4 = above u 1 := by
    rw [hebp, above_zero]
    rfl
  obtain ⟨h₂, hregs₂⟩ := callHandler_spec eflags htop (hlink ▸ h₁.load (k := 1) rfl)
    fun j hj => hlink ▸ hkernel 1 (by decide) j hj
  generalize callHandler L eflags e = d at *
  have hcontext := h₂.holds.2
  have hnext : above L.task (1024 * p.val + 1007) + 4 = L.stack p 1008 := by
    rw [← above_one, above_add]
    rfl
  rw [hnext] at hcontext
  obtain ⟨more, hmore⟩ := hpre
  refine ⟨?_, h₂.holds, h₂.esp ▸ h₂.holds.1, ?_, ?_⟩
  · subst heax
    exact sysenter_invoked _ _ hle hentry hne
  · have hlist : saveAll e.regs (pushContext e.regs U.sysenterReturn eflags) =
        args ++ (more ++ (saveAll e.regs (pushContext e.regs U.sysenterReturn eflags)).drop 3) := by
      rw [← List.append_assoc, hmore, hregs]
      rfl
    rw [hlist] at hcontext
    rw [h₂.esp, hnext]
    exact hcontext.take
  · intro d' h
    have hframe : Holds d.mem (above u 0) [above u 7, U.sysenterReturn, edx, ecx, c.regs.edi,
        c.regs.esi, c.regs.ebx, c.regs.ebp, ret] := by
      have hsplit : Holds e.mem (above u 0) ([above u 7, U.sysenterReturn, edx, ecx, c.regs.edi,
        c.regs.esi, c.regs.ebx, c.regs.ebp, ret] ++ (args ++ [])) := h₁.holds
      apply hsplit.take.congr
      intro k hk
      apply h₂.same
      intro i hlo hhi
      obtain ⟨j, rfl⟩ := Nat.exists_eq_add_of_le (Nat.le_of_add_right_le hlo)
      rw [above_add, Nat.zero_add]
      exact hkernel k hk j (by omega)
    exact h.returns hparams h₂.esp hcontext hregs hframe hkernel herrno

end Calls

def sampleUserImage : UserImage := ⟨0x100200, 0x11A000⟩

/-- The CPU at the first instruction of `write`, called with 5 bytes at 0x100100. -/
def sampleCaller : Cpu where
  regs := asking 0
  esp := above 0x11B000 8
  mem := writeWords (fun _ => 0) (above 0x11B000 8) [0x100300, 1, 0x100100, 5]
  tssEsp0 := sampleImage.stack 8 kernelStackSize
  msrEsp := sampleImage.stack 8 kernelStackSize
  cr3 := sampleImage.dir 8

/-- The handler returns -9. -/
def sampleHandled (c : Cpu) : Cpu := { c with esp := c.esp + 4, regs := { c.regs with eax := -9 } }

theorem sampleHandled_handles (L : Image) (p : Slot) (u : Word) (params : Nat) (c : Cpu) :
    Handles L p u params c (sampleHandled c) :=
  ⟨rfl, ⟨rfl, rfl, rfl, rfl, rfl, rfl, rfl, rfl⟩, fun _ _ _ => rfl, fun _ _ => rfl⟩

theorem systemCall_returns_write : ∃ d d' : Cpu, d = callHandler sampleImage 0 (write sampleUserImage sampleCaller) ∧
    Holds d.mem (d.esp + 4) [1, 0x100100, 5] ∧ d' = (returnToUser (sampleHandled d)).2 ∧
    (sysenterReturn sampleUserImage d').1 = 0x100300 ∧
    (sysenterReturn sampleUserImage d').2.regs.eax = -1 ∧
    (sysenterReturn sampleUserImage d').2.mem sampleUserImage.errno = 9 := by
  have hkernel : ∀ k, k < 9 → ∀ j, j < 1024 → above 0x11B000 k ≠ sampleImage.stack 8 j := by
    intro k hk j hj he
    have h := congrArg BitVec.toNat he
    rw [stack_eq, above, above, BitVec.toNat_add, BitVec.toNat_add, BitVec.toNat_ofNat,
      BitVec.toNat_ofNat] at h
    change (0x11B000 + 4 * k % 2 ^ 32) % 2 ^ 32 = (0x20000 + 4 * (1024 * 8 + j) % 2 ^ 32) % 2 ^ 32 at h
    omega
  have hstack : Holds sampleCaller.mem (above 0x11B000 8) [0x100300, 1, 0x100100, 5] :=
    holds_writeWords (fun _ => 0) 0x11B000 _ (by decide)
  have hw : (write, 3, SysCall.write) ∈ wrappers := by simp [wrappers]
  have herrno : ∀ k, k < 9 → above 0x11B000 k ≠ sampleUserImage.errno := by decide
  obtain ⟨_, _, _, hargs, hback⟩ := systemCall_returns hw rfl rfl hstack rfl hkernel herrno 0
  obtain ⟨_, hret, _, _, hdel⟩ := hback _ (sampleHandled_handles _ _ _ _ _)
  obtain ⟨heax, hmem⟩ := hdel
  refine ⟨_, _, rfl, hargs, rfl, hret, heax, ?_⟩
  rw [hmem]
  exact (Function.update_self _ _ _).trans (by decide)

end Zeos.Stacks
