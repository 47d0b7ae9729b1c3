import Zeos.Stacks

/-!
# What a task switch saves and restores

A task that does not run has its context in a frame on its kernel stack, which
`kernel_esp0` points at. `taskSwitch_spec` says what one switch does to the frames
of all tasks.
-/

namespace Zeos.Stacks

open Dispatch (Registers)
open Words Loops Cpu
set_option autoImplicit false

section Addresses
variable (L : Image)

theorem mask_getLsbD {i : Nat} (hi : i < 32) : (0xfffff000#32).getLsbD i = decide (12 ≤ i) := by
  revert hi i
  decide

theorem mask_toNat (w : Word) : (w &&& 0xfffff000#32).toNat = w.toNat / 4096 * 4096 := by
  have hmask : w &&& 0xfffff000#32 = w >>> 12 <<< 12 := by
    apply BitVec.eq_of_getLsbD_eq
    intro i hi
    rw [BitVec.getLsbD_and, mask_getLsbD hi, BitVec.getLsbD_shiftLeft, BitVec.getLsbD_ushiftRight]
    by_cases h : 12 ≤ i
    · have h' : 12 + (i - 12) = i := by omega
      simp [h, hi, h', Nat.not_lt.mpr h]
    · simp [h, Nat.not_le.mp h]
  have hw := w.isLt
  rw [hmask, BitVec.toNat_shiftLeft, BitVec.toNat_ushiftRight, Nat.shiftRight_eq_div_pow,
    Nat.shiftLeft_eq, Nat.mod_eq_of_lt (by omega)]

theorem stack_above (t : Slot) (j k : Nat) : above (L.stack t j) k = L.stack t (j + k) := by
  rw [Image.stack, Image.stack, above_add, Nat.add_assoc]

theorem union_above (t : Slot) (k : Nat) : above (L.union t) k = L.stack t k := by
  rw [Image.union, stack_above, Nat.zero_add]

theorem stack_eq (t : Slot) (j : Nat) : L.stack t j = above L.task (1024 * t + j) := rfl

theorem slot_lt (t : Slot) : t.val < 10 := t.isLt

theorem current_eq {c : Cpu} {t : Slot} {n : Nat} (hesp : c.esp = above L.task n)
    (hlo : 1024 * t.val ≤ n) (hhi : n < 1024 * t.val + 1024) : c.current = L.union t := by
  have hbase := L.aligned
  have := slot_lt t
  have := L.task.isLt
  apply BitVec.eq_of_toNat_eq
  rw [Cpu.current, mask_toNat, hesp, Image.union, stack_eq, above, above,
    BitVec.toNat_add, BitVec.toNat_add, BitVec.toNat_ofNat, BitVec.toNat_ofNat]
  omega

theorem same_dir {p t : Slot} {m m' : Memory}
    (h : SameOutside L.task (1024 * p + 12) (1024 * p + 1024) m m') :
    m' (L.stack t dirPagesField) = m (L.stack t dirPagesField) := by
  have := slot_lt t
  have := slot_lt p
  apply h.at_index
  · omega
  · rw [kernelStackSize, dirPagesField]
    omega
  · rw [kernelStackSize, dirPagesField]
    omega

theorem same_union {p t : Slot} {j : Nat} {m m' : Memory}
    (h : SameOutside L.task (1024 * p) (1024 * p + 1024) m m') (ht : t ≠ p) (hj : j < 1024) :
    m' (L.stack t j) = m (L.stack t j) := by
  have := slot_lt t
  have := slot_lt p
  have hne : t.val ≠ p.val := fun he => ht (Fin.ext he)
  apply h.at_index
  · omega
  · rw [kernelStackSize]
    omega
  · rw [kernelStackSize]
    omega

theorem same_other {p t : Slot} {j : Nat} {m m' : Memory}
    (h : SameOutside L.task (1024 * p + 12) (1024 * p + 1024) m m') (ht : t ≠ p) (hj : j < 1024) :
    m' (L.stack t j) = m (L.stack t j) :=
  same_union L (h.mono (Nat.le_add_right _ _) le_rfl) ht hj

theorem stack_inj {t : Slot} {j k : Nat} (hj : j < 1024) (hk : k < 1024)
    (h : L.stack t j = L.stack t k) : j = k := by
  have := slot_lt t
  have := above_inj (by rw [kernelStackSize]; omega) (by rw [kernelStackSize]; omega) h
  omega

theorem same_store {t : Slot} {j : Nat} (hj : j < 1024) (m : Memory) (v : Word) :
    SameOutside L.task (1024 * t) (1024 * t + 1024) m (Function.update m (L.stack t j) v) :=
  .update v (Nat.le_add_right _ _) (Nat.add_lt_add_left hj _)

end Addresses

/-- The stack pointer is at word `n`, with these words from there upwards, and since
`m` only the words `lo` to `hi` have been written. -/
structure Working (a : Word) (lo hi n : Nat) (ws : List Word) (m : Memory) (c : Cpu) : Prop where
  esp : c.esp = above a n
  holds : Holds c.mem (above a n) ws
  bound : n + ws.length ≤ 1073741824
  same : SameOutside a lo hi m c.mem

namespace Working
variable {a v : Word} {lo hi n : Nat} {ws : List Word} {m : Memory} {c : Cpu}

theorem pushl (h : Working a lo hi (n + 1) ws m c) (v : Word) (hlo : lo ≤ n) (hhi : n < hi) :
    Working a lo hi n (v :: ws) m (c.pushl v) := by
  have hesp : c.esp - 4 = above a n := by rw [h.esp, above_sub]
  have hb := h.bound
  refine ⟨hesp, ?_, by rw [List.length_cons]; omega, ?_⟩
  · rw [Cpu.pushl, hesp]
    exact h.holds.push hb
  · rw [Cpu.pushl, hesp]
    exact h.same.trans (.update v hlo hhi)

theorem popl {r : Registers} (h : Working a lo hi n (v :: ws) m c) (hr : c.regs = r)
    (set : Registers → Word → Registers) :
    Working a lo hi (n + 1) ws m (c.popl set) ∧ (c.popl set).regs = set r v := by
  have hb := h.bound
  have hv : c.mem c.esp = v := by
    rw [h.esp]
    exact h.holds.1
  have hnext : above a n + 4 = above a (n + 1) := by rw [← above_one, above_add]
  rw [List.length_cons] at hb
  refine ⟨⟨?_, ?_, by omega, h.same⟩, ?_⟩
  · rw [Cpu.popl, h.esp, hnext]
  · rw [← hnext]
    exact h.holds.2
  · rw [Cpu.popl, hv, hr]

theorem popEbp (h : Working a lo hi n (v :: ws) m c) :
    Working a lo hi (n + 1) ws m (Stacks.popEbp c) := (h.popl rfl _).1

theorem of_eq {d : Cpu} (h : Working a lo hi n ws m c) (hesp : d.esp = c.esp)
    (hmem : d.mem = c.mem) : Working a lo hi n ws m d :=
  ⟨hesp.trans h.esp, hmem ▸ h.holds, h.bound, hmem ▸ h.same⟩

theorem enter (h : Working a lo hi n ws m c) : Working a lo hi n ws m c.enter := h.of_eq rfl rfl

theorem ret (h : Working a lo hi n (v :: ws) m c) :
    c.ret.1 = v ∧ Working a lo hi (n + 1) ws m c.ret.2 := by
  have hpop := (h.popl rfl fun r _ => r).1
  refine ⟨?_, hpop.of_eq rfl rfl⟩
  rw [Cpu.ret, h.esp]
  exact h.holds.1

theorem load (h : Working a lo hi n ws m c) {k : Nat} (hk : ws[k]? = some v) :
    c.mem (above a (n + k)) = v := by
  rw [← above_add]
  exact h.holds.get hk

theorem pushls {us : List Word} (h : Working a lo hi (n + us.length) ws m c) (hlo : lo ≤ n)
    (hhi : n + us.length ≤ hi) :
    ∃ esp mem, us.foldl (fun c v => c.pushl v) c = { c with esp := esp, mem := mem } ∧
      Working a lo hi n (us.reverse ++ ws) m { c with esp := esp, mem := mem } := by
  induction us generalizing c ws with
  | nil => exact ⟨c.esp, c.mem, rfl, h⟩
  | cons u us ih =>
    rw [List.length_cons, ← Nat.add_assoc] at h hhi
    obtain ⟨esp, mem, he, hw⟩ := ih (h.pushl u (by omega) (by omega)) (by omega)
    rw [List.reverse_cons, List.append_assoc]
    exact ⟨esp, mem, he, hw⟩

end Working

section Pieces
variable {L : Image} {lo hi n : Nat} {m : Memory} {c : Cpu}

/-- `task_switch` up to its call: the frame that the return needs lies below the
caller's words. -/
theorem taskSwitchCall_spec {eip new : Word} {stack : List Word}
    (h : Working L.task lo hi (n + 6) (eip :: new :: stack) m c) (hlo : lo ≤ n) (hhi : n + 6 ≤ hi) :
    Working L.task lo hi n (L.switchReturn :: new :: c.regs.ebx :: c.regs.edi :: c.regs.esi ::
        c.regs.ebp :: eip :: new :: stack) m (taskSwitchCall L c) ∧
      (taskSwitchCall L c).regs = { c.regs with ebp := above L.task (n + 5) } := by
  have h₁ := (h.pushl c.regs.ebp (by omega) (by omega)).enter
  have h₂ := h₁.pushl c.regs.esi (by omega) (by omega)
  have h₃ := h₂.pushl c.regs.edi (by omega) (by omega)
  have h₄ := h₃.pushl c.regs.ebx (by omega) (by omega)
  have hebp : (c.pushl c.regs.ebp).esp = above L.task (n + 5) := h₁.esp
  -- the parameter, at `8(%ebp)`
  have hnew := h₄.load (k := 5) (v := new) rfl
  have h₅ := (h₄.pushl new (by omega) (by omega)).pushl L.switchReturn (by omega) (by omega)
  have hcode : taskSwitchCall L c =
      (((((c.pushl c.regs.ebp).enter.pushl c.regs.esi).pushl c.regs.edi).pushl c.regs.ebx).pushl
        new).pushl L.switchReturn := by
    rw [← hnew, ← above_add L.task (n + 5) 2, ← hebp]
    rfl
  rw [hcode]
  refine ⟨h₅, ?_⟩
  rw [← hebp]
  rfl

theorem switchStacksCall_spec {f : InnerFrame} {p q : Slot} {ws : List Word}
    (h : Working L.task (1024 * p + 12) (1024 * p + 1024) (n + 3 + f.locals.length) ws m c)
    (hlo : 1024 * p + 12 ≤ n) (hhi : n + 3 + f.locals.length ≤ 1024 * p + 1024) (hpq : q ≠ p) :
    Working L.task (1024 * p + 12) (1024 * p + 1024) n (f.returnAddress :: L.stack p kernelEsp0Field ::
        m (L.stack q kernelEsp0Field) :: (f.locals.reverse ++ ws)) m
        (switchStacksCall f (L.union q) c) ∧
      ∃ esp mem, switchStacksCall f (L.union q) c =
        { c with regs := f.scratch c.regs, esp := esp, mem := mem } := by
  obtain ⟨esp, mem, hfold, h₃⟩ := h.pushls (by omega) hhi
  have hload : mem (above (L.union q) kernelEsp0Field) = m (L.stack q kernelEsp0Field) := by
    rw [union_above]
    exact same_other L h₃.same hpq (by decide)
  unfold switchStacksCall
  rw [hfold]
  refine ⟨?_, _, _, rfl⟩
  have h₄ : Working L.task (1024 * p + 12) (1024 * p + 1024) (n + 3) (f.locals.reverse ++ ws) m
      { c with regs := f.scratch c.regs, esp := esp, mem := mem } := h₃.of_eq rfl rfl
  have h₅ := h₄.pushl (mem (above (L.union q) kernelEsp0Field)) (by omega) (by omega)
  have hcur := current_eq L h₅.esp (t := p) (by omega) (by omega)
  rw [← hload, ← union_above L p, ← hcur]
  exact (h₅.pushl _ (by omega) (by omega)).pushl _ (by omega) (by omega)

theorem switchStacks_spec {p : Slot} {x y : Word} {ws : List Word}
    (h : Working L.task (1024 * p + 12) (1024 * p + 1024) n (x :: L.stack p kernelEsp0Field :: y :: ws) m c)
    (hlo : 1024 * p + 16 ≤ n) :
    ∃ r, switchStacks c = (popEbp { c with
      regs := r, esp := y, mem := Function.update c.mem (L.stack p kernelEsp0Field) c.regs.ebp }).ret := by
  have hb := h.bound
  rw [List.length_cons, List.length_cons, List.length_cons] at hb
  have hsave : c.mem (c.esp + 4) = L.stack p kernelEsp0Field := by
    rw [h.esp, ← above_one, above_add]
    exact h.load rfl
  have hload : c.mem (c.esp + 8) = y := by
    rw [h.esp]
    refine Eq.trans ?_ (h.load (k := 2) rfl)
    rw [← above_add]
    rfl
  have hne : c.esp + 8 ≠ L.stack p kernelEsp0Field := by
    intro he
    have he' : above L.task (n + 2) = above L.task (1024 * p + 12) := by
      rw [← above_add, ← h.esp]
      exact he
    have := above_inj (by omega) (by omega) he'
    omega
  refine ⟨{ c.regs with esi := L.stack p kernelEsp0Field }, ?_⟩
  unfold switchStacks
  simp only [hsave, Cpu.store, Function.update_of_ne hne, hload]

theorem innerTaskSwitch_spec {f : InnerFrame} {p q : Slot} {eip : Word} {stack : List Word}
    (h : Working L.task (1024 * p + 12) (1024 * p + 1024) (n + f.locals.length + 4)
      (eip :: L.union q :: stack) m c)
    (hlo : 1024 * p + 16 ≤ n) (hhi : n + f.locals.length + 4 ≤ 1024 * p + 1024) (hpq : q ≠ p) :
    ∃ d : Cpu, innerTaskSwitch f c = (popEbp d).ret ∧ d.esp = m (L.stack q kernelEsp0Field) ∧
      Holds d.mem (above L.task (n + f.locals.length + 3)) (c.regs.ebp :: eip :: L.union q :: stack) ∧
      d.mem (L.stack p kernelEsp0Field) = above L.task (n + f.locals.length + 3) ∧
      SameOutside L.task (1024 * p + 12) (1024 * p + 1024) m d.mem ∧
      d.tssEsp0 = L.stack q kernelStackSize ∧ d.msrEsp = L.stack q kernelStackSize ∧
      d.cr3 = m (L.stack q dirPagesField) := by
  have h₁ := h.pushl c.regs.ebp (by omega) (by omega)
  have hebp : (c.pushl c.regs.ebp).esp = above L.task (n + f.locals.length + 3) := h₁.esp
  have hnew : (c.pushl c.regs.ebp).enter.mem ((c.pushl c.regs.ebp).enter.regs.ebp + 8) =
      L.union q := by
    refine Eq.trans ?_ (h₁.load (k := 2) rfl)
    rw [← above_add, ← hebp]
    rfl
  have h₂ : Working L.task (1024 * p + 12) (1024 * p + 1024) (n + 3 + f.locals.length)
      (c.regs.ebp :: eip :: L.union q :: stack) m (loadTask (L.union q) (c.pushl c.regs.ebp).enter) := by
    rw [Nat.add_right_comm]
    exact h₁.of_eq rfl rfl
  have hcall := switchStacksCall_spec h₂ (by omega) (by omega) hpq
  have hcode : innerTaskSwitch f c = switchStacks (switchStacksCall f (L.union q)
      (loadTask (L.union q) (c.pushl c.regs.ebp).enter)) := by
    unfold innerTaskSwitch
    simp only [hnew]
  generalize switchStacksCall f (L.union q) _ = g at hcall hcode
  obtain ⟨h₃, esp, mem, hg⟩ := hcall
  obtain ⟨r, hstacks⟩ := switchStacks_spec h₃ hlo
  have hsaved : g.regs.ebp = above L.task (n + f.locals.length + 3) := by
    rw [hg]
    exact hebp
  have hstack : Holds g.mem (above L.task (n + f.locals.length + 3))
      (c.regs.ebp :: eip :: L.union q :: stack) := by
    have hsplit : Holds _ _ ((_ :: _ :: _ :: f.locals.reverse) ++ _) := h₃.holds
    have := hsplit.drop
    rwa [above_add, List.length_cons, List.length_cons, List.length_cons, List.length_reverse,
      ← Nat.add_assoc] at this
  rw [hsaved] at hstacks
  have hb := h₁.bound
  refine ⟨{ g with
      regs := r
      esp := m (L.stack q kernelEsp0Field)
      mem := Function.update g.mem (L.stack p kernelEsp0Field)
        (above L.task (n + f.locals.length + 3)) }, hcode.trans hstacks, rfl, ?_,
    Function.update_self _ _ _, ?_, ?_, ?_, ?_⟩
  · apply hstack.update
    intro k hk he
    rw [above_add] at he
    have := above_inj (by omega) (by omega) (he.trans (stack_eq L p 12))
    omega
  · exact h₃.same.trans (.update (n := 1024 * p + 12) _ (by omega) (by omega))
  · rw [hg]
    exact union_above L q _
  · rw [hg]
    exact union_above L q _
  · rw [hg]
    exact (congrArg _ (union_above L q _)).trans (same_other L h₁.same hpq (by decide))

theorem taskSwitchReturn_spec {a param ebx edi esi ebp eip : Word} {stack : List Word}
    (h : Working a lo hi n (param :: ebx :: edi :: esi :: ebp :: eip :: stack) m c) :
    (taskSwitchReturn c).1 = eip ∧ Working a lo hi (n + 6) stack m (taskSwitchReturn c).2 ∧
      (taskSwitchReturn c).2.regs =
        { c.regs with ebx := ebx, edi := edi, esi := esi, ebp := ebp } := by
  obtain ⟨h₁, hr₁⟩ := h.popl rfl fun r v => { r with ebx := v }
  obtain ⟨h₂, hr₂⟩ := h₁.popl hr₁ fun r v => { r with ebx := v }
  obtain ⟨h₃, hr₃⟩ := h₂.popl hr₂ fun r v => { r with edi := v }
  obtain ⟨h₄, hr₄⟩ := h₃.popl hr₃ fun r v => { r with esi := v }
  obtain ⟨h₅, hr₅⟩ := h₄.popl hr₄ fun r v => { r with ebp := v }
  obtain ⟨heip, h₆⟩ := h₅.ret
  exact ⟨heip, h₆, hr₅⟩

theorem retFromFork_spec {a eip : Word} {stack : List Word}
    (h : Working a lo hi (n + 1) (eip :: stack) m c) (hlo : lo ≤ n) (hhi : n < hi) :
    (retFromFork c).1 = eip ∧ Working a lo hi (n + 2) stack m (retFromFork c).2 ∧
      (retFromFork c).2.regs = { c.regs with eax := 0 } := by
  have h₁ := (h.pushl c.regs.ebp hlo hhi).enter
  have h₂ := h₁.of_eq (d := { (c.pushl c.regs.ebp).enter with
    regs := { (c.pushl c.regs.ebp).enter.regs with eax := 0 } }) rfl rfl
  obtain ⟨h₃, hr₃⟩ := h₂.popl rfl fun r v => { r with ebp := v }
  obtain ⟨heip, h₄⟩ := h₃.ret
  exact ⟨heip, h₄, hr₃⟩

end Pieces

/-- What a task that waits for the CPU has on its stack: the frame of `task_switch`
above its caller's words, what `sys_fork` prepares above the context of the
parent, or what `init_idle` writes. -/
inductive Saved where
  | switched (link param ebx edi esi ebp eip : Word) (stack : List Word)
  | forked (stack : List Word)
  | idle
  deriving DecidableEq, Repr

namespace Saved
variable (L : Image)

def words : Saved → List Word
  | .switched link param ebx edi esi ebp eip stack =>
    link :: L.switchReturn :: param :: ebx :: edi :: esi :: ebp :: eip :: stack
  | .forked stack => 0 :: L.retFromFork :: L.callReturn :: stack
  | .idle => [0, L.cpuIdle]

def eip : Saved → Word
  | .switched _ _ _ _ _ _ eip _ => eip
  | .forked _ => L.callReturn
  | .idle => L.cpuIdle

def stack : Saved → List Word
  | .switched _ _ _ _ _ _ _ stack => stack
  | .forked stack => stack
  | .idle => []

def Restores : Saved → Registers → Prop
  | .switched _ _ ebx edi esi ebp _ _, r => r.ebx = ebx ∧ r.edi = edi ∧ r.esi = esi ∧ r.ebp = ebp
  | .forked _, r => r.eax = 0
  | .idle, _ => True

end Saved

/-- Task `t` sleeps with frame `s`. -/
structure Sleeps (L : Image) (m : Memory) (t : Slot) (s : Saved) : Prop where
  room : (s.words L).length + pcbSize ≤ kernelStackSize
  esp0 : m (L.stack t kernelEsp0Field) = L.stack t (kernelStackSize - (s.words L).length)
  holds : Holds m (L.stack t (kernelStackSize - (s.words L).length)) (s.words L)
  dir : m (L.stack t dirPagesField) = L.dir t

/-- Task `t` has the CPU and goes on from frame `s`. -/
structure Resumed (L : Image) (t : Slot) (s : Saved) (c : Cpu) : Prop where
  esp : c.esp = L.stack t (kernelStackSize - s.stack.length)
  holds : Holds c.mem c.esp s.stack
  regs : s.Restores c.regs
  tssEsp0 : c.tssEsp0 = L.stack t kernelStackSize
  msrEsp : c.msrEsp = L.stack t kernelStackSize
  cr3 : c.cr3 = L.dir t

section Resume
variable {L : Image} {q : Slot} {d : Cpu}

theorem returnTo_spec {s : Saved} (hroom : (s.words L).length + 16 ≤ 1024)
    (hesp : d.esp = L.stack q (1024 - (s.words L).length))
    (hholds : Holds d.mem (L.stack q (1024 - (s.words L).length)) (s.words L)) :
    (returnTo L (popEbp d).ret).1 = s.eip L ∧
      (returnTo L (popEbp d).ret).2.esp = L.stack q (1024 - s.stack.length) ∧
      Holds (returnTo L (popEbp d).ret).2.mem (L.stack q (1024 - s.stack.length)) s.stack ∧
      s.Restores (returnTo L (popEbp d).ret).2.regs ∧
      SameOutside L.task (1024 * q + 12) (1024 * q + 1024) d.mem (returnTo L (popEbp d).ret).2.mem := by
  have hd := L.distinct
  have hq := slot_lt q
  have hw : Working L.task (1024 * q + 12) (1024 * q + 1024) (1024 * q + (1024 - (s.words L).length))
      (s.words L) d.mem d := ⟨hesp, hholds, by omega, .refl _ _ _ _⟩
  obtain ⟨hswitch, hfork⟩ := List.nodup_cons.mp hd
  cases s with
  | switched link param ebx edi esi ebp eip stack =>
    have hlen : 1024 * q.val + (1024 - (stack.length + 8)) + 1 + 1 + 6 =
        1024 * q.val + (1024 - stack.length) := by
      simp only [Saved.words, List.length_cons] at hroom
      omega
    obtain ⟨hret, h₂⟩ := hw.popEbp.ret
    obtain ⟨heip, h₃, hregs⟩ := taskSwitchReturn_spec h₂
    have hback : returnTo L (popEbp d).ret = taskSwitchReturn (popEbp d).ret.2 := if_pos hret
    rw [hback]
    simp only [Saved.words, List.length_cons, hlen] at h₃
    refine ⟨heip, h₃.esp, h₃.holds, ?_, h₃.same⟩
    rw [hregs]
    exact ⟨rfl, rfl, rfl, rfl⟩
  | forked stack =>
    have hlen : 1024 * q.val + (1024 - (stack.length + 3)) + 1 + 2 = 1024 * q.val + (1024 - stack.length) := by
      simp only [Saved.words, List.length_cons] at hroom
      omega
    obtain ⟨hret, h₂⟩ := hw.popEbp.ret
    have hsize : ((Saved.forked stack).words L).length = stack.length + 3 := rfl
    obtain ⟨heip, h₃, hregs⟩ := retFromFork_spec h₂ (by omega) (by omega)
    have hback : returnTo L (popEbp d).ret = retFromFork (popEbp d).ret.2 := by
      refine (if_neg ?_).trans (if_pos hret)
      exact fun he => hswitch (List.mem_cons.mpr (.inl (he.symm.trans hret)))
    rw [hback]
    simp only [Saved.words, List.length_cons, hlen] at h₃
    refine ⟨heip, h₃.esp, h₃.holds, ?_, h₃.same⟩
    rw [hregs]
    exact rfl
  | idle =>
    obtain ⟨hret, h₂⟩ := hw.popEbp.ret
    have hback : returnTo L (popEbp d).ret = (popEbp d).ret := by
      refine (if_neg ?_).trans (if_neg ?_)
      · exact fun he => hswitch (by simp [← he.symm.trans hret])
      · exact fun he => (List.nodup_cons.mp hfork).1 (by simp [← he.symm.trans hret])
    rw [hback]
    exact ⟨hret, h₂.esp, h₂.holds, trivial, h₂.same⟩

theorem returnTo_task (L : Image) (r : Word × Cpu) :
    (returnTo L r).2.tssEsp0 = r.2.tssEsp0 ∧ (returnTo L r).2.msrEsp = r.2.msrEsp ∧
      (returnTo L r).2.cr3 = r.2.cr3 := by
  unfold returnTo
  split
  · exact ⟨rfl, rfl, rfl⟩
  · split
    · exact ⟨rfl, rfl, rfl⟩
    · exact ⟨rfl, rfl, rfl⟩

theorem Sleeps.congr {m m' : Memory} {s : Saved} (h : Sleeps L m q s)
    (hstack : ∀ j, pcbSize ≤ j → j < kernelStackSize → m' (L.stack q j) = m (L.stack q j))
    (hesp0 : m' (L.stack q kernelEsp0Field) = m (L.stack q kernelEsp0Field))
    (hdir : m' (L.stack q dirPagesField) = m (L.stack q dirPagesField)) : Sleeps L m' q s := by
  refine ⟨h.room, hesp0.trans h.esp0, ?_, hdir.trans h.dir⟩
  have hroom := h.room
  apply h.holds.congr
  intro k hk
  rw [stack_above]
  rw [kernelStackSize] at hroom ⊢
  exact hstack _ (by omega) (by rw [kernelStackSize]; omega)

end Resume

/-- `p` is at the first instruction of `task_switch`, called for `q`: `n` is the index
of its stack pointer, and there is room for both functions above the PCB. -/
structure CallsSwitch (L : Image) (p q : Slot) (f : InnerFrame) (n : Nat) (eip : Word)
    (stack : List Word) (c : Cpu) : Prop where
  esp : c.esp = L.stack p n
  holds : Holds c.mem (L.stack p n) (eip :: L.union q :: stack)
  top : n + stack.length + 2 = kernelStackSize
  room : pcbSize + f.locals.length + 10 ≤ n

/-- The frame that `p` leaves behind. -/
def left (L : Image) (p q : Slot) (n : Nat) (eip : Word) (stack : List Word) (c : Cpu) : Saved :=
  .switched (L.stack p (n - 1)) (L.union q) c.regs.ebx c.regs.edi c.regs.esi c.regs.ebp eip
    (L.union q :: stack)

section Fork
variable (L : Image) {parent child : Slot} (c : Cpu)

theorem copyUnion_spec (hne : child ≠ parent) :
    ∃ m, copyUnion L parent child c = { c with mem := m } ∧
      SameOutside L.task (1024 * child) (1024 * child + 1024) c.mem m ∧
      ∀ j, j < 1024 → m (L.stack child j) = c.mem (L.stack parent j) := by
  unfold copyUnion
  refine times_preserves (fun i d => ∃ m, d = { c with mem := m } ∧
    SameOutside L.task (1024 * child) (1024 * child + 1024) c.mem m ∧
    ∀ j, j < i → m (L.stack child j) = c.mem (L.stack parent j)) ?_ ⟨c.mem, rfl, .refl _ _ _ _, by simp⟩
  rintro i d hi ⟨m, rfl, hsame, hcopy⟩
  refine ⟨_, rfl, hsame.trans (same_store L hi m _), ?_⟩
  intro j hj
  by_cases he : j = i
  · subst he
    rw [Function.update_self]
    exact same_union L hsame hne.symm hi
  · have hji : j < i := by omega
    rw [Function.update_of_ne]
    · exact hcopy j hji
    · exact fun hs => he (stack_inj L (hji.trans hi) hi hs)

theorem forkTaken_spec (hne : child ≠ parent) :
    ∃ m, forkTaken L parent child c = { c with mem := m } ∧
      SameOutside L.task (1024 * child) (1024 * child + 1024) c.mem m ∧
      m (L.stack child dirPagesField) = L.dir child ∧
      ∀ j, 16 ≤ j → j < 1024 → m (L.stack child j) = c.mem (L.stack parent j) := by
  obtain ⟨m, hcopy, hsame, hwords⟩ := copyUnion_spec L c hne
  unfold forkTaken
  rw [hcopy]
  refine ⟨_, rfl, hsame.trans (same_store L (by decide) m _), Function.update_self _ _ _, ?_⟩
  intro j hlo hhi
  rw [← hwords j hhi]
  apply Function.update_of_ne
  intro he
  have := stack_inj L hhi (by decide) he
  rw [dirPagesField] at this
  omega

/-- The child sleeps with the words of the parent from 1008 on, if the word below them
is the return address of the call. -/
theorem forkStack_spec {ws : List Word} (hlen : ws.length = 16)
    (hcall : Holds c.mem (L.stack child 1007) (L.callReturn :: ws))
    (hdir : c.mem (L.stack child dirPagesField) = L.dir child) :
    ∃ m, forkStack L child c = { c with mem := m } ∧
      SameOutside L.task (1024 * child) (1024 * child + 1024) c.mem m ∧
      Sleeps L m child (.forked ws) := by
  have hsize : ((Saved.forked ws).words L).length = 19 := by
    rw [Saved.words, List.length_cons, List.length_cons, List.length_cons, hlen]
  have hslot := slot_lt child
  have h18 : kernelStackSize - 18 = 1006 := rfl
  have h19 : kernelStackSize - 19 = 1005 := rfl
  have hcode : forkStack L child c = { c with
      mem := Function.update (Function.update (Function.update c.mem (L.stack child 1006) L.retFromFork)
        (L.stack child 1005) 0) (L.stack child kernelEsp0Field) (L.stack child 1005) } := by
    rw [← h18, ← h19]
    rfl
  refine ⟨_, hcode, ?_, ?_⟩
  · exact ((same_store L (by omega) _ _).trans (same_store L (by omega) _ _)).trans
      (same_store L (by decide) _ _)
  · have hne : ∀ i j, i < 1024 → j < 1024 → i ≠ j → L.stack child i ≠ L.stack child j :=
      fun i j hi hj hij he => hij (stack_inj L hi hj he)
    have h₁ := (hcall.push (v := L.retFromFork) (by rw [List.length_cons, hlen, kernelStackSize]; omega)).push
      (v := 0) (by rw [List.length_cons, List.length_cons, hlen, kernelStackSize]; omega)
    refine ⟨by rw [hsize, pcbSize, kernelStackSize]; omega, ?_, ?_, ?_⟩
    · rw [hsize, h19]
      exact Function.update_self _ _ _
    · rw [hsize, h19]
      refine Holds.update h₁ ?_
      intro k hk
      rw [List.length_cons, List.length_cons, List.length_cons, hlen] at hk
      change above (L.stack child 1005) k ≠ _
      rw [stack_above, kernelEsp0Field]
      exact hne _ _ (by omega) (by omega) (by omega)
    · rw [Function.update_of_ne (hne 1 12 (by omega) (by omega) (by omega)),
        Function.update_of_ne (hne 1 1005 (by omega) (by omega) (by omega)),
        Function.update_of_ne (hne 1 1006 (by omega) (by omega) (by omega))]
      exact hdir

theorem initIdle_spec (idle : Slot) :
    ∃ m, initIdle L idle c = { c with mem := m } ∧ Sleeps L m idle .idle := by
  have hslot := slot_lt idle
  have h2 : kernelStackSize - 2 = 1022 := rfl
  have h1 : kernelStackSize - 1 = 1023 := rfl
  have hcode : initIdle L idle c = { c with
      mem := Function.update (Function.update (Function.update (Function.update c.mem
        (L.stack idle dirPagesField) (L.dir idle)) (L.stack idle 1022) 0) (L.stack idle 1023) L.cpuIdle)
        (L.stack idle kernelEsp0Field) (L.stack idle 1022) } := by
    rw [← h2, ← h1]
    rfl
  have hne : ∀ i j, i < 1024 → j < 1024 → i ≠ j → L.stack idle i ≠ L.stack idle j :=
    fun i j hi hj hij he => hij (stack_inj L hi hj he)
  have hsize : (Saved.idle.words L).length = 2 := rfl
  refine ⟨_, hcode, ?_, ?_, ?_, ?_⟩
  · rw [hsize, pcbSize, kernelStackSize]
    omega
  · rw [hsize, h2]
    exact Function.update_self _ _ _
  · rw [hsize, h2]
    have hnext : L.stack idle 1022 + 4 = L.stack idle 1023 := by rw [← above_one, stack_above]
    refine ⟨?_, ?_, trivial⟩
    · rw [Function.update_of_ne (hne 1022 12 (by omega) (by omega) (by omega)),
        Function.update_of_ne (hne 1022 1023 (by omega) (by omega) (by omega)), Function.update_self]
    · rw [hnext, Function.update_of_ne (hne 1023 12 (by omega) (by omega) (by omega)),
        Function.update_self]
  · rw [Function.update_of_ne (hne 1 12 (by omega) (by omega) (by omega)),
      Function.update_of_ne (hne 1 1023 (by omega) (by omega) (by omega)),
      Function.update_of_ne (hne 1 1022 (by omega) (by omega) (by omega)), Function.update_self]

end Fork

section Switch
variable {L : Image} {p q : Slot} {f : InnerFrame} {n : Nat} {eip : Word} {stack : List Word}
  {c : Cpu} {s : Saved}

theorem left_sleeps {m : Memory} {i : Nat} (hi : 1024 * p.val + n = i + 7)
    (htop : n + stack.length + 2 = 1024) (hroom : 16 + 7 ≤ n)
    (hesp0 : m (L.stack p kernelEsp0Field) = above L.task i)
    (hframe : Holds m (above L.task i) (above L.task (i + 6) :: L.switchReturn :: L.union q ::
      c.regs.ebx :: c.regs.edi :: c.regs.esi :: c.regs.ebp :: eip :: L.union q :: stack))
    (hdir : m (L.stack p dirPagesField) = L.dir p) : Sleeps L m p (left L p q n eip stack c) := by
  have hlen : ((left L p q n eip stack c).words L).length = stack.length + 9 := rfl
  have hframe_index : 1024 * p.val + (1024 - (stack.length + 9)) = i := by omega
  have hlink_index : 1024 * p.val + (n - 1) = i + 6 := by omega
  have hidx : L.stack p (kernelStackSize - (stack.length + 9)) = above L.task i := by
    rw [← hframe_index]
    rfl
  have hlink : L.stack p (n - 1) = above L.task (i + 6) := by
    rw [← hlink_index]
    rfl
  refine ⟨?_, ?_, ?_, hdir⟩
  · rw [hlen, pcbSize, kernelStackSize]
    omega
  · rw [hlen, hidx]
    exact hesp0
  · rw [hlen, hidx, left, Saved.words, hlink]
    exact hframe

/-- One switch: `q` goes on from its frame, `p` leaves one, and no other task is
touched. -/
theorem taskSwitch_spec (hc : CallsSwitch L p q f n eip stack c) (hpq : q ≠ p)
    (hs : Sleeps L c.mem q s) :
    (taskSwitch L f c).1 = s.eip L ∧ Resumed L q s (taskSwitch L f c).2 ∧
      (c.mem (L.stack p dirPagesField) = L.dir p →
        Sleeps L (taskSwitch L f c).2.mem p (left L p q n eip stack c)) ∧
      (taskSwitch L f c).2.mem (L.stack q dirPagesField) = L.dir q ∧
      ∀ t, t ≠ p → t ≠ q → ∀ j, j < kernelStackSize →
        (taskSwitch L f c).2.mem (L.stack t j) = c.mem (L.stack t j) := by
  have htop := hc.top
  obtain ⟨k, hk⟩ := Nat.exists_eq_add_of_le hc.room
  have hp := slot_lt p
  rw [kernelStackSize] at htop
  rw [pcbSize] at hk
  -- the index of the stack pointer, counted from the end of the code
  have hn : 1024 * p.val + n = 1024 * p + (16 + k) + f.locals.length + 4 + 6 := by omega
  have hw : Working L.task (1024 * p + 12) (1024 * p + 1024)
      (1024 * p + (16 + k) + f.locals.length + 4 + 6) (eip :: L.union q :: stack) c.mem c := by
    rw [← hn]
    exact ⟨hc.esp, hc.holds, by simp only [List.length_cons]; omega, .refl _ _ _ _⟩
  obtain ⟨hcall, hregs⟩ := taskSwitchCall_spec hw (by omega) (by omega)
  obtain ⟨d, hcode, hesp, hframe, hesp0, hsame, htss, hmsr, hcr3⟩ :=
    innerTaskSwitch_spec hcall (by omega) (by omega) hpq
  rw [hregs] at hframe
  have hrun : taskSwitch L f c = returnTo L (popEbp d).ret := congrArg (returnTo L) hcode
  have hsq : Sleeps L d.mem q s := hs.congr (fun j _ hj => same_other L hsame hpq hj)
    (same_other L hsame hpq (by decide)) (same_dir L hsame)
  obtain ⟨heip, hsp, hholds, hrest, hsame'⟩ := returnTo_spec hsq.room (hesp.trans hs.esp0) hsq.holds
  obtain ⟨htss', hmsr', hcr3'⟩ := returnTo_task L (popEbp d).ret
  have hleft : c.mem (L.stack p dirPagesField) = L.dir p →
      Sleeps L d.mem p (left L p q n eip stack c) := fun hdir =>
    left_sleeps (by omega) htop (by omega) hesp0 hframe ((same_dir L hsame).trans hdir)
  rw [hrun]
  refine ⟨heip, ⟨hsp, hsp ▸ hholds, hrest, htss'.trans htss, hmsr'.trans hmsr,
    (hcr3'.trans hcr3).trans hs.dir⟩, ?_, ?_, ?_⟩
  · intro hdir
    exact (hleft hdir).congr (fun j _ hj => same_other L hsame' hpq.symm hj)
      (same_other L hsame' hpq.symm (by decide)) (same_dir L hsame')
  · exact (same_dir L hsame').trans hsq.dir
  · intro t htp htq j hj
    exact (same_other L hsame' htq hj).trans (same_other L hsame htp hj)

end Switch

end Zeos.Stacks
