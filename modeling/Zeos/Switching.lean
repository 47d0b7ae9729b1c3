import Zeos.Contexts
import Zeos.Memory
import Zeos.Waiting

/-!
# Processes that share the CPU

Runs of the kernel together with the registers and the kernel stacks. A process that
gets the CPU back goes on where it left, with its registers and its stack, whatever
the others have done in between; a child starts with the context of its parent.
-/

namespace Zeos.Stacks

open Dispatch (Registers saveAll pushContext sysenterEnd)
open Words Loops Runs LinkedRings
set_option autoImplicit false

structure System where
  kernel : Kernel
  cpu : Cpu

abbrev System.current (S : System) : Slot := S.kernel.sched.current

/-- What the code of task `p` does between the points that are modelled: user code and
compiled kernel code. It may write its own stack and the lists and counters of any
PCB, but no other stack, and no `kernel_esp0` or `dir_pages_baseAddr`; a
`set_cr3(get_DIR(current()))` loads what is loaded. -/
structure Local (L : Image) (p : Slot) (c c' : Cpu) : Prop where
  others : ∀ t, t ≠ p → ∀ j, pcbSize ≤ j → j < kernelStackSize →
    c'.mem (L.stack t j) = c.mem (L.stack t j)
  esp0 : ∀ t, c'.mem (L.stack t kernelEsp0Field) = c.mem (L.stack t kernelEsp0Field)
  dirs : ∀ t, c'.mem (L.stack t dirPagesField) = c.mem (L.stack t dirPagesField)
  tssEsp0 : c'.tssEsp0 = c.tssEsp0
  msrEsp : c'.msrEsp = c.msrEsp
  cr3 : c'.cr3 = c.cr3

/-- `p` is in a system call that came by `sysenter` from these user registers: the
return address of the call of the handler and the context are at the end of its
stack. -/
def InCall (L : Image) (p : Slot) (user : Registers) (returnAddress eflags : Word) (c : Cpu) : Prop :=
  Holds c.mem (L.stack p (kernelStackSize - 17))
    (L.callReturn :: saveAll user (pushContext user returnAddress eflags))

/-- The way to the call of `task_switch`. `sys_exit` gives up the directory. -/
inductive Leaves (L : Image) (p : Slot) : Op → Cpu → Cpu → Prop where
  | keeps {op : Op} {c c' : Cpu} : op ≠ .exit → Local L p c c' → Leaves L p op c c'
  | exits {c d c' : Cpu} : Local L p c d → Local L p (d.store (L.stack p dirPagesField) 0) c' →
      Leaves L p .exit c c'

/-- A step in which the same process goes on, a fork that makes a child, with the
context that the child starts from, or a switch: the frame that is left on the stack
and the address where the next process goes on. -/
inductive Move where
  | stay (op : Op)
  | fork (child : Slot) (user : Registers) (returnAddress eflags : Word)
  | switch (op : Op) (frame : Saved) (eip : Word)

/-- In the runs of this system a block with nothing pending gives way; a process that runs
on while it is in `blocked` could have its own PCB taken by a fork. -/
inductive Step (L : Image) (useCow : Bool) (S : System) : Move → System → Prop where
  | stay {op : Op} {r : Int} {k' : Kernel} {c' : Cpu} : blocksGiveWay S.kernel op r →
      exec useCow op S.kernel = .ok (r, k') → k'.sched.current = S.current →
      (op = .fork → listEmpty S.kernel.sched.queues (.head .freequeue) = true) →
      Local L S.current S.cpu c' → Step L useCow S (.stay op) ⟨k', c'⟩
  /-- No memory for the child: its PCB has been overwritten by then. -/
  | forkLost {r : Int} {k' : Kernel} {c₁ c' : Cpu} {child : Slot} {s : Sched} {m : Mm} :
      UserRuns S.kernel → exec useCow .fork S.kernel = .ok (r, k') →
      listEmpty S.kernel.sched.queues (.head .freequeue) = false →
      forkTake S.kernel.sched = .ok (child, s) →
      forkMemory useCow S.kernel.mm S.current child = .ok (m, false) →
      Local L S.current S.cpu c₁ → Local L S.current (forkTaken L S.current child c₁) c' →
      Step L useCow S (.stay .fork) ⟨k', c'⟩
  | fork {r : Int} {k' : Kernel} {c₁ c₂ c' : Cpu} {child : Slot} {s : Sched} {m : Mm}
      {user : Registers} {returnAddress eflags : Word} :
      UserRuns S.kernel → exec useCow .fork S.kernel = .ok (r, k') →
      listEmpty S.kernel.sched.queues (.head .freequeue) = false →
      forkTake S.kernel.sched = .ok (child, s) →
      forkMemory useCow S.kernel.mm S.current child = .ok (m, true) →
      Local L S.current S.cpu c₁ → InCall L S.current user returnAddress eflags c₁ →
      Local L S.current (forkTaken L S.current child c₁) c₂ →
      Local L S.current (forkStack L child c₂) c' →
      Step L useCow S (.fork child user returnAddress eflags) ⟨k', c'⟩
  | switch {op : Op} {r : Int} {k' : Kernel} {c₁ : Cpu} {f : InnerFrame} {n : Nat} {eip : Word}
      {stack : List Word} : blocksGiveWay S.kernel op r →
      exec useCow op S.kernel = .ok (r, k') → k'.sched.current ≠ S.current →
      Leaves L S.current op S.cpu c₁ →
      CallsSwitch L S.current k'.sched.current f n eip stack c₁ →
      Step L useCow S (.switch op (left L S.current k'.sched.current n eip stack c₁)
        (taskSwitch L f c₁).1) ⟨k', (taskSwitch L f c₁).2⟩

/-- After `main`, which runs on the stack of the PCB before `&task[4]`. -/
def Booted (L : Image) (S : System) : Prop :=
  ∃ image c, boot image = .ok S.kernel ∧
    Local L 3 (initTask1 L S.current (initIdle L S.kernel.sched.idleTask c)) S.cpu

/-- Every candidate that is not running has a frame, and the processor is set up for
the current process. -/
structure CpuInv (L : Image) (S : System) (ls : Queue → List Slot) : Prop where
  run : RunInv S.kernel.sched ls
  sleeps : ∀ t, Candidate S.kernel.sched ls t → t ≠ S.current → ∃ s, Sleeps L S.cpu.mem t s
  dir : S.cpu.mem (L.stack S.current dirPagesField) = L.dir S.current
  tssEsp0 : S.cpu.tssEsp0 = L.stack S.current kernelStackSize
  msrEsp : S.cpu.msrEsp = L.stack S.current kernelStackSize
  cr3 : S.cpu.cr3 = L.dir S.current

/-- `p` waits with frame `s`, and its PCB is in use. -/
structure Parked (L : Image) (S : System) (ls : Queue → List Slot) (p : Slot) (s : Saved) : Prop where
  away : p ≠ S.current
  used : p ∉ ls .freequeue
  sleeps : Sleeps L S.cpu.mem p s

section Steps
variable {L : Image} {useCow : Bool} {S S' : System} {ls : Queue → List Slot} {c c' : Cpu}
  {p t : Slot} {s : Saved}

theorem Sleeps.of_local (h : Sleeps L c.mem t s) (hl : Local L p c c') (ht : t ≠ p) :
    Sleeps L c'.mem t s := h.congr (hl.others t ht) (hl.esp0 t) (hl.dirs t)

theorem Sleeps.of_same {m m' : Memory} (h : Sleeps L m t s)
    (hm : SameOutside L.task (1024 * p) (1024 * p + 1024) m m') (ht : t ≠ p) : Sleeps L m' t s :=
  h.congr (fun _ _ hj => same_union L hm ht hj) (same_union L hm ht (by decide))
    (same_union L hm ht (by decide))

theorem Leaves.others {op : Op} (h : Leaves L p op c c') (ht : t ≠ p) (hs : Sleeps L c.mem t s) :
    Sleeps L c'.mem t s := by
  cases h with
  | keeps _ hl => exact hs.of_local hl ht
  | exits hl hl' =>
    exact ((hs.of_local hl ht).of_same (same_store L (by decide) _ _) ht).of_local hl' ht

theorem CpuInv.stay {k' : Kernel} {ls' : Queue → List Slot} (h : CpuInv L S ls)
    (hcur : k'.sched.current = S.current) (hrun : RunInv k'.sched ls')
    (hcand : ∀ t, Candidate k'.sched ls' t → Candidate S.kernel.sched ls t)
    (hl : Local L S.current S.cpu c') : CpuInv L ⟨k', c'⟩ ls' where
  run := hrun
  sleeps := by
    intro t ht hne
    have hne' : t ≠ S.current := fun he => hne (he.trans hcur.symm)
    obtain ⟨s, hs⟩ := h.sleeps t (hcand t ht) hne'
    exact ⟨s, hs.of_local hl hne'⟩
  dir := by
    rw [System.current, hcur]
    exact (hl.dirs _).trans h.dir
  tssEsp0 := by
    rw [System.current, hcur]
    exact hl.tssEsp0.trans h.tssEsp0
  msrEsp := by
    rw [System.current, hcur]
    exact hl.msrEsp.trans h.msrEsp
  cr3 := by
    rw [System.current, hcur]
    exact hl.cr3.trans h.cr3

/-- What a switch comes to for the process that is left, the next one and the others. -/
theorem switch_spec {op : Op} {k' : Kernel} {f : InnerFrame} {n : Nat} {eip : Word}
    {stack : List Word} {ls' : Queue → List Slot} (h : CpuInv L S ls)
    (hh : Handover S.kernel.sched ls (op = .exit) k'.sched ls')
    (hcur : k'.sched.current ≠ S.current) (hl : Leaves L S.current op S.cpu c)
    (hc : CallsSwitch L S.current k'.sched.current f n eip stack c) :
    CpuInv L ⟨k', (taskSwitch L f c).2⟩ ls' ∧ (∃ s, Sleeps L S.cpu.mem k'.sched.current s) ∧
      (∀ s, Sleeps L S.cpu.mem k'.sched.current s →
        (taskSwitch L f c).1 = s.eip L ∧ Resumed L k'.sched.current s (taskSwitch L f c).2) ∧
      (op ≠ .exit → Sleeps L (taskSwitch L f c).2.mem S.current
        (left L S.current k'.sched.current n eip stack c)) ∧
      ∀ t s, t ≠ S.current → t ≠ k'.sched.current → Sleeps L S.cpu.mem t s →
        Sleeps L (taskSwitch L f c).2.mem t s := by
  have hcand := (hh.candidate _ (current_candidate k'.sched ls')).1
  obtain ⟨s, hs⟩ := h.sleeps _ hcand hcur
  obtain ⟨_, hres, hleft, hdir, hothers⟩ := taskSwitch_spec hc hcur (hl.others hcur hs)
  have hresume : ∀ s, Sleeps L S.cpu.mem k'.sched.current s →
      (taskSwitch L f c).1 = s.eip L ∧ Resumed L k'.sched.current s (taskSwitch L f c).2 := by
    intro s' hs'
    obtain ⟨heip, hres, _⟩ := taskSwitch_spec hc hcur (hl.others hcur hs')
    exact ⟨heip, hres⟩
  generalize taskSwitch L f c = r at *
  have hkept : ∀ t s, t ≠ S.current → t ≠ k'.sched.current → Sleeps L S.cpu.mem t s →
      Sleeps L r.2.mem t s := by
    intro t s htc htn hts
    exact (hl.others htc hts).congr (fun j _ hj => hothers t htc htn j hj)
      (hothers t htc htn kernelEsp0Field (by decide)) (hothers t htc htn dirPagesField (by decide))
  have hback : op ≠ .exit → Sleeps L r.2.mem S.current
      (left L S.current k'.sched.current n eip stack c) := by
    intro hop
    apply hleft
    cases hl with
    | keeps _ hl => exact (hl.dirs _).trans h.dir
    | exits => exact absurd rfl hop
  refine ⟨⟨hh.run, ?_, hdir, hres.tssEsp0, hres.msrEsp, hres.cr3⟩, ⟨s, hs⟩, hresume, hback, hkept⟩
  intro t ht hne
  obtain ⟨ht, hexit⟩ := hh.candidate t ht
  by_cases htc : t = S.current
  · subst htc
    exact ⟨_, hback fun he => hexit he rfl⟩
  · obtain ⟨s, hs⟩ := h.sleeps t ht htc
    exact ⟨s, hkept t s htc hne hs⟩

theorem CpuInv.free_ne_current (h : CpuInv L S ls) (ht : t ∈ ls .freequeue) : t ≠ S.current := by
  rintro rfl
  exact h.run.queues.current_out .freequeue (by decide) ht

theorem forkTaken_local {child : Slot} {c₁ : Cpu} (h : CpuInv L S ls) (hne : child ≠ S.current)
    (hl : Local L S.current S.cpu c₁) (hl' : Local L S.current (forkTaken L S.current child c₁) c) :
    (∀ t s, t ≠ S.current → t ≠ child → Sleeps L S.cpu.mem t s → Sleeps L c.mem t s) ∧
      c.mem (L.stack S.current dirPagesField) = L.dir S.current ∧
      c.mem (L.stack child dirPagesField) = L.dir child ∧
      (∀ j, pcbSize ≤ j → j < kernelStackSize → c.mem (L.stack child j) = c₁.mem (L.stack S.current j)) ∧
      c.tssEsp0 = S.cpu.tssEsp0 ∧ c.msrEsp = S.cpu.msrEsp ∧ c.cr3 = S.cpu.cr3 := by
  obtain ⟨m, htaken, hsame, hdir, hcopy⟩ := forkTaken_spec L c₁ hne
  rw [htaken] at hl'
  refine ⟨?_, ?_, (hl'.dirs _).trans hdir, ?_, hl'.tssEsp0.trans hl.tssEsp0,
    hl'.msrEsp.trans hl.msrEsp, hl'.cr3.trans hl.cr3⟩
  · intro t s htc htn hs
    exact Sleeps.of_local ((hs.of_local hl htc).of_same hsame htn) hl' htc
  · rw [hl'.dirs, ← h.dir, ← hl.dirs]
    exact same_union L hsame hne.symm (by decide)
  · intro j hlo hhi
    rw [hl'.others child hne j hlo hhi]
    exact hcopy j hlo hhi

theorem forkLost_spec {child : Slot} {c₁ : Cpu} {k' : Kernel} {ls' : Queue → List Slot}
    {s : Sched} {m : Mm} (h : CpuInv L S ls)
    (hh : ForkHandover useCow S.kernel ls k' ls') (hfree : child ∈ ls .freequeue)
    (htake : forkTake S.kernel.sched = .ok (child, s))
    (hm : forkMemory useCow S.kernel.mm S.current child = .ok (m, false))
    (hl : Local L S.current S.cpu c₁) (hl' : Local L S.current (forkTaken L S.current child c₁) c) :
    CpuInv L ⟨k', c⟩ ls' ∧
      ∀ t s, t ≠ S.current → t ≠ child → Sleeps L S.cpu.mem t s → Sleeps L c.mem t s := by
  have hne := h.free_ne_current hfree
  obtain ⟨hkept, hdir, _, _, htss, hmsr, hcr3⟩ := forkTaken_local h hne hl hl'
  refine ⟨⟨hh.run, ?_, ?_, ?_, ?_, ?_⟩, hkept⟩
  · intro t ht htc
    have htc' : t ≠ S.current := fun he => htc (he.trans hh.current.symm)
    rcases hh.candidate t ht with ht | ⟨_, s', m', htake', hm'⟩
    · obtain ⟨s, hs⟩ := h.sleeps t ht htc'
      have htn : t ≠ child := fun he => h.run.queues.candidate_not_free ht (he ▸ hfree)
      exact ⟨s, hkept t s htc' htn hs⟩
    · -- the child is a candidate only if there was memory for it
      cases htake.symm.trans htake'
      cases hm.symm.trans hm'
  · rw [System.current, hh.current]
    exact hdir
  · rw [System.current, hh.current]
    exact htss.trans h.tssEsp0
  · rw [System.current, hh.current]
    exact hmsr.trans h.msrEsp
  · rw [System.current, hh.current]
    exact hcr3.trans h.cr3

theorem fork_spec {child : Slot} {c₁ c₂ : Cpu} {k' : Kernel} {ls' : Queue → List Slot}
    {s : Sched} {user : Registers} {returnAddress eflags : Word} (h : CpuInv L S ls)
    (hh : ForkHandover useCow S.kernel ls k' ls') (hfree : child ∈ ls .freequeue)
    (htake : forkTake S.kernel.sched = .ok (child, s))
    (hl : Local L S.current S.cpu c₁) (hcall : InCall L S.current user returnAddress eflags c₁)
    (hl₂ : Local L S.current (forkTaken L S.current child c₁) c₂)
    (hl' : Local L S.current (forkStack L child c₂) c) :
    CpuInv L ⟨k', c⟩ ls' ∧
      Sleeps L c.mem child (.forked (saveAll user (pushContext user returnAddress eflags))) ∧
      ∀ t s, t ≠ S.current → t ≠ child → Sleeps L S.cpu.mem t s → Sleeps L c.mem t s := by
  have hne := h.free_ne_current hfree
  obtain ⟨hkept₂, hdir₂, hdirc, hcopy, htss, hmsr, hcr3⟩ := forkTaken_local h hne hl hl₂
  have hchild : Holds c₂.mem (L.stack child 1007)
      (L.callReturn :: saveAll user (pushContext user returnAddress eflags)) := by
    apply Holds.copy hcall
    intro k hk
    change k < 17 at hk
    rw [stack_above, stack_above, pcbSize, kernelStackSize] at *
    exact hcopy _ (by omega) (by omega)
  obtain ⟨m, hstack, hsame, hforked⟩ := forkStack_spec L c₂ rfl hchild hdirc
  rw [hstack] at hl'
  have hkept : ∀ t s, t ≠ S.current → t ≠ child → Sleeps L S.cpu.mem t s → Sleeps L c.mem t s := by
    intro t s htc htn hs
    exact Sleeps.of_local ((hkept₂ t s htc htn hs).of_same hsame htn) hl' htc
  have hsleeps := Sleeps.of_local hforked hl' hne
  refine ⟨⟨hh.run, ?_, ?_, ?_, ?_, ?_⟩, hsleeps, hkept⟩
  · intro t ht htc
    have htc' : t ≠ S.current := fun he => htc (he.trans hh.current.symm)
    rcases hh.candidate t ht with ht | ⟨_, s', m', htake', _⟩
    · obtain ⟨s, hs⟩ := h.sleeps t ht htc'
      have htn : t ≠ child := fun he => h.run.queues.candidate_not_free ht (he ▸ hfree)
      exact ⟨s, hkept t s htc' htn hs⟩
    · cases htake.symm.trans htake'
      exact ⟨_, hsleeps⟩
  · rw [System.current, hh.current]
    refine (hl'.dirs _).trans (Eq.trans ?_ hdir₂)
    exact same_union L hsame hne.symm (by decide)
  · rw [System.current, hh.current]
    exact hl'.tssEsp0.trans (htss.trans h.tssEsp0)
  · rw [System.current, hh.current]
    exact hl'.msrEsp.trans (hmsr.trans h.msrEsp)
  · rw [System.current, hh.current]
    exact hl'.cr3.trans (hcr3.trans h.cr3)

/-- What is seen of a step by the process that it is about. -/
def Outcome (L : Image) (S : System) (S' : System) (ls' : Queue → List Slot) : Move → Prop
  | .stay _ => S'.current = S.current
  | .fork child user returnAddress eflags => S'.current = S.current ∧
    Parked L S' ls' child (.forked (saveAll user (pushContext user returnAddress eflags)))
  | .switch op frame eip => S'.current ≠ S.current ∧ (∃ s, Sleeps L S.cpu.mem S'.current s) ∧
    (∀ s, Sleeps L S.cpu.mem S'.current s → eip = s.eip L ∧ Resumed L S'.current s S'.cpu) ∧
    (op ≠ .exit → Parked L S' ls' S.current frame)

theorem CpuInv.step {e : Move} (h : CpuInv L S ls) (hs : Step L useCow S e S') :
    ∃ ls', CpuInv L S' ls' ∧ Outcome L S S' ls' e ∧
      ∀ p s, Parked L S ls p s → p ≠ S'.current → Parked L S' ls' p s := by
  cases hs with
  | @stay op r k' c' ha hok hcur hfork hl =>
    by_cases hf : op = .fork
    · subst hf
      obtain ⟨ls', hh⟩ := fork_handover h.run hok
      have hcand : ∀ t, Candidate k'.sched ls' t → Candidate S.kernel.sched ls t := by
        intro t ht
        rcases hh.candidate t ht with ht | ⟨hne, _⟩
        · exact ht
        · rw [hfork rfl] at hne
          cases hne
      refine ⟨ls', h.stay hcur hh.run hcand hl, hcur, ?_⟩
      intro p s hp _
      exact ⟨fun he => hp.away (he.trans hcur), fun hm => hp.used (hh.free p hm),
        hp.sleeps.of_local hl hp.away⟩
    · obtain ⟨ls', hh⟩ := exec_handover h.run ha hf hok
      refine ⟨ls', h.stay hcur hh.run (fun t ht => (hh.candidate t ht).1) hl, hcur, ?_⟩
      intro p s hp _
      refine ⟨fun he => hp.away (he.trans hcur), ?_, hp.sleeps.of_local hl hp.away⟩
      intro hm
      rcases hh.free p hm with hm | ⟨_, he⟩
      · exact hp.used hm
      · exact hp.away he
  | @forkLost r k' c₁ c' child s m _ hok hne htake hm hl hl' =>
    obtain ⟨ls', hh⟩ := fork_handover h.run hok
    obtain ⟨hfree, _⟩ := hh.child hne child s htake
    obtain ⟨hinv, hkept⟩ := forkLost_spec h hh hfree htake hm hl hl'
    refine ⟨ls', hinv, hh.current, ?_⟩
    intro p s hp _
    exact ⟨fun he => hp.away (he.trans hh.current), fun hm => hp.used (hh.free p hm),
      hkept p s hp.away (fun he => hp.used (he ▸ hfree)) hp.sleeps⟩
  | @fork r k' c₁ c₂ c' child s m user returnAddress eflags _ hok hne htake hm hl hcall hl₂ hl' =>
    obtain ⟨ls', hh⟩ := fork_handover h.run hok
    obtain ⟨hfree, hused⟩ := hh.child hne child s htake
    obtain ⟨hinv, hchild, hkept⟩ := fork_spec h hh hfree htake hl hcall hl₂ hl'
    refine ⟨ls', hinv, ⟨hh.current, ?_, hused, hchild⟩, ?_⟩
    · exact fun he => h.free_ne_current hfree (he.trans hh.current)
    · intro p s hp _
      exact ⟨fun he => hp.away (he.trans hh.current), fun hm => hp.used (hh.free p hm),
        hkept p s hp.away (fun he => hp.used (he ▸ hfree)) hp.sleeps⟩
  | @switch op r k' c₁ f n eip stack ha hok hcur hl hc =>
    have hf : op ≠ .fork := by
      rintro rfl
      obtain ⟨_, hh⟩ := fork_handover h.run hok
      exact hcur hh.current
    obtain ⟨ls', hh⟩ := exec_handover h.run ha hf hok
    obtain ⟨hinv, hframe, hresume, hleft, hkept⟩ := switch_spec h hh hcur hl hc
    generalize taskSwitch L f c₁ = x at hinv hresume hleft hkept ⊢
    refine ⟨ls', hinv, ⟨hcur, hframe, hresume, ?_⟩, ?_⟩
    · intro hop
      refine ⟨hcur.symm, ?_, hleft hop⟩
      intro hm
      rcases hh.free _ hm with hm | ⟨he, _⟩
      · exact h.run.queues.candidate_not_free (current_candidate _ _) hm
      · exact hop he
    · intro p s hp hne
      refine ⟨hne, ?_, hkept p s hp.away hne hp.sleeps⟩
      intro hm
      rcases hh.free p hm with hm | ⟨_, he⟩
      · exact hp.used hm
      · exact hp.away he

theorem Booted.inv (h : Booted L S) : CpuInv L S bootLists := by
  obtain ⟨image, c, hb, hl⟩ := h
  rw [boot_eq] at hb
  have hk := Except.ok.inj hb
  have hcur : S.current = 8 := by
    rw [System.current, ← hk]
    rfl
  have hidle : S.kernel.sched.idleTask = 9 := by
    rw [← hk]
    rfl
  have hsched : S.kernel.sched = bootState := by rw [← hk]
  rw [hcur, hidle] at hl
  obtain ⟨m, hm, hsleeps⟩ := initIdle_spec L c 9
  rw [hm] at hl
  have hmem : (initTask1 L 8 { c with mem := m }).mem =
      Function.update m (L.stack 8 dirPagesField) (L.dir 8) := rfl
  have hdir : (initTask1 L 8 { c with mem := m }).mem (L.stack 8 dirPagesField) = L.dir 8 := by
    rw [hmem, Function.update_self]
  have hcr3 : (initTask1 L 8 { c with mem := m }).cr3 = L.dir 8 := by
    rw [← hdir, ← union_above]
    rfl
  have hidle' := hsleeps.of_same (same_store L (t := 8) (j := dirPagesField) (by decide) m (L.dir 8))
    (by decide)
  rw [← hmem] at hidle'
  have hsleeps' := hidle'.of_local hl (by decide)
  refine ⟨?_, ?_, ?_, ?_, ?_, ?_⟩
  · rw [hsched]
    exact RunInv.boot
  · intro t ht hne
    rw [hsched] at ht
    rw [hcur] at hne
    rcases ht with rfl | ⟨_, hc | hr | hb⟩
    · exact ⟨_, hsleeps'⟩
    · exact absurd hc hne
    · cases hr
    · cases hb
  · rw [hcur]
    exact (hl.dirs 8).trans hdir
  · rw [hcur]
    exact hl.tssEsp0.trans (union_above L 8 _)
  · rw [hcur]
    exact hl.msrEsp.trans (union_above L 8 _)
  · rw [hcur]
    exact hl.cr3.trans hcr3

end Steps

section Runs
variable {L : Image} {useCow : Bool} {S₀ S S' : System} {tr : List Move}

/-- A step after which another process than `p` has the CPU. -/
def AwayStep (L : Image) (useCow : Bool) (p : Slot) (S : System) (e : Move) (S' : System) : Prop :=
  Step L useCow S e S' ∧ S'.current ≠ p

theorem Parked.run {ls : Queue → List Slot} {p : Slot} {s : Saved} (h : CpuInv L S ls)
    (hp : Parked L S ls p s) (hrun : Run (AwayStep L useCow p) S tr S') :
    ∃ ls', CpuInv L S' ls' ∧ Parked L S' ls' p s := by
  refine hrun.invariant (fun S => ∃ ls, CpuInv L S ls ∧ Parked L S ls p s) ⟨ls, h, hp⟩ ?_
  rintro S e S' ⟨ls, h, hp⟩ ⟨hs, hne⟩
  obtain ⟨ls', h', _, hkept⟩ := h.step hs
  exact ⟨ls', h', hkept p s hp hne.symm⟩

end Runs

section Turns
variable (L : Image) (p q : Slot) (c : Cpu)

theorem Local.refl : Local L p c c := ⟨fun _ _ _ _ _ => rfl, fun _ => rfl, fun _ => rfl, rfl, rfl, rfl⟩

theorem Local.write (esp : Word) {j : Nat} (ws : List Word) (hlo : 16 ≤ j) (hhi : j + ws.length ≤ 1024) :
    Local L p c { c with esp := esp, mem := writeWords c.mem (L.stack p j) ws } := by
  have hsame : SameOutside L.task (1024 * p + 16) (1024 * p + 1024) c.mem
      (writeWords c.mem (L.stack p j) ws) :=
    same_writeWords c.mem L.task ws (Nat.add_le_add_left hlo _) (by rw [kernelStackSize]; omega)
  have hunion := hsame.mono (Nat.le_add_right (1024 * p.val) 16) le_rfl
  have hpcb : ∀ t i, i < 16 → writeWords c.mem (L.stack p j) ws (L.stack t i) = c.mem (L.stack t i) := by
    intro t i hi
    by_cases ht : t = p
    · subst ht
      have := slot_lt t
      exact hsame.at_index (by omega) (by rw [kernelStackSize]; omega) (.inl (by rw [kernelStackSize]; omega))
    · exact same_union L hunion ht (by omega)
  exact ⟨fun t ht i _ hi => same_union L hunion ht hi, fun t => hpcb t _ (by decide),
    fun t => hpcb t _ (by decide), rfl, rfl, rfl⟩

end Turns

def sampleImage : Image where
  task := 0x20000
  dirPages := 0x2A000
  switchReturn := 0x10100
  retFromFork := 0x10200
  cpuIdle := 0x10300
  callReturn := 0x10400
  aligned := by decide
  distinct := by decide

section Sample
variable {L : Image} {s s' : Sched} {m : Mm} {c : Cpu}

end Sample

end Zeos.Stacks
