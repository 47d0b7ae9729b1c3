import Zeos.Memory

/-!
# What `phys_mem` counts

Without `USE_COW` no frame is ever shared between data pages: `phys_mem` is 0 or 1
and says exactly who has the frame, after any forks, exits and faults. So the
allocator can never run dry, nor hand out a frame that somebody uses.
-/

namespace Zeos

open Loops Holders
set_option autoImplicit false

def isSharedFrame (m : Mm) (f : Nat) : Bool :=
  (List.range numSharedPages).any fun id => (m.sharedPages id).frame == (f : Int)

def isCodeFrame (m : Mm) (t : Slot) (f : Nat) : Bool :=
  (List.range numPagCode).any fun i => (m.pagusrTable t (pagLogInitCode + i)).frame? == some f

theorem isSharedFrame_iff {m : Mm} (h : SharedFrames m) (f : Nat) :
    isSharedFrame m f = true ↔ 256 ≤ f ∧ f < 276 ∧ f % 2 = 0 := by
  simp only [isSharedFrame, List.any_eq_true, List.mem_range, beq_iff_eq]
  constructor
  · rintro ⟨id, hid, he⟩
    rw [h id hid] at he
    simp only [numSharedPages] at hid
    omega
  · intro hf
    have hid : (f - 256) / 2 < numSharedPages := by
      simp only [numSharedPages]
      omega
    refine ⟨(f - 256) / 2, hid, ?_⟩
    rw [h _ hid]
    omega

theorem isCodeFrame_iff {image : Nat → Fin pageSize → UInt8} {m : Mm} (h : BootedMm image m) (f : Nat) :
    isCodeFrame m 8 f = true ↔ 276 ≤ f ∧ f < 292 ∧ f % 2 = 0 := by
  have hcode : ∀ i, i < numPagCode →
      (m.pagusrTable 8 (pagLogInitCode + i)).frame? = some (276 + 2 * i) := by
    intro i hi
    rw [h.code _ ⟨by omega, by omega⟩, Nat.add_sub_cancel_left]
    have hmod : (276 + 2 * i) % 1048576 = 276 + 2 * i := Nat.mod_eq_of_lt (by
      simp only [numPagCode] at hi
      omega)
    simp [codeEntry, PageTableEntry.frame?, hmod]
  simp only [isCodeFrame, List.any_eq_true, List.mem_range, beq_iff_eq]
  constructor
  · rintro ⟨i, hi, he⟩
    rw [hcode i hi] at he
    have := Option.some.inj he
    simp only [numPagCode] at hi
    omega
  · intro hf
    have hi : (f - 276) / 2 < numPagCode := by
      simp only [numPagCode]
      omega
    refine ⟨(f - 276) / 2, hi, ?_⟩
    rw [hcode _ hi]
    congr 1
    omega

section Counts
variable {m : Mm} {f : Nat}

/-- Entries with `rw` do not share, and without `USE_COW` all entries have it. -/
theorem FrameInv.dataRefs_le_one (h : FrameInv false m) (f : Nat) : dataRefs m f ≤ 1 := by
  apply refs_le_one
  rintro ⟨t, p⟩ hx ⟨u, q⟩ hy hf hg
  rw [mem_dataPlaces] at hx hy
  have hd := (h.frame?_data hy hg).1
  obtain ⟨rfl, rfl⟩ := h.owner u q t p hy hx (hd.eager_rw rfl) (hf.trans hg.symm)
  rfl

theorem FrameInv.dataRefs_fixed {useCow : Bool} (h : FrameInv useCow m) (hf : FixedFrame f) :
    dataRefs m f = 0 := by
  apply refs_eq_zero.mpr
  rintro ⟨t, p⟩ hx hh
  obtain ⟨hd, he⟩ := h.frame?_data (mem_dataPlaces.mp hx) hh
  have hl := hd.lower
  have hu := hf.2.1
  omega

theorem FrameInv.count_owners {image : Nat → Fin pageSize → UInt8} (h : FrameInv false m)
    (hf : numPagKernel ≤ f) :
    m.physMem f = dataRefs m f + (if isSharedFrame m f then 1 else 0) +
      (if isCodeFrame (bootMm image) 8 f then 1 else 0) ∧ m.physMem f ≤ 1 := by
  have hcount := h.count f hf
  have hone := h.dataRefs_le_one f
  have hshared := isSharedFrame_iff h.shared_frame f
  have hcode := isCodeFrame_iff (bootMm_spec image) f
  by_cases hfix : FixedFrame f
  · have h0 := h.dataRefs_fixed hfix
    rw [if_pos hfix] at hcount
    by_cases hsh : f < 276
    · rw [if_pos (hshared.mpr ⟨hfix.1, hsh, hfix.2.2⟩), if_neg (by rw [hcode]; omega)]
      omega
    · rw [if_neg (by rw [hshared]; omega), if_pos (hcode.mpr ⟨by omega, hfix.2⟩)]
      omega
  · rw [if_neg hfix] at hcount
    simp only [FixedFrame, numPagKernel] at hfix hf
    rw [if_neg (by rw [hshared]; omega), if_neg (by rw [hcode]; omega)]
    omega

theorem FrameInv.alloc_unowned (image : Nat → Fin pageSize → UInt8) (h : FrameInv false m) :
    ∃ f : Nat, (allocFrame m).1 = f ∧ (∀ t p, DataPage p → (m.pagusrTable t p).frame? ≠ some f) ∧
      isSharedFrame m f = false ∧ isCodeFrame (bootMm image) 8 f = false := by
  obtain ⟨f, hfree, halloc, hl, h0⟩ := h.alloc
  refine ⟨f, by rw [halloc], fun t p hp => FrameInv.unmapped_of_dataRefs h0 hp, ?_, ?_⟩
  · rw [Bool.eq_false_iff]
    intro hs
    have hrange := (isSharedFrame_iff h.shared_frame f).mp hs
    omega
  · rw [Bool.eq_false_iff]
    intro hs
    have hrange := (isCodeFrame_iff (bootMm_spec image) f).mp hs
    omega

end Counts

/-- Without a free PCB the head of `freequeue` is taken for one. -/
theorem not_forkTake_nil {s : Sched} {ls : Queue → List Slot} (hr : Queues s.queues ls)
    (hf : ls .freequeue = []) (r : Slot × Sched) : forkTake s ≠ .ok r := by
  intro htake
  have hempty := (hr.empty_iff .freequeue).mpr hf
  have hfirst : listFirst s.queues (.head .freequeue) = some (.head .freequeue) := by
    simpa [listEmpty, listFirst] using hempty
  unfold forkTake takeFree at htake
  rw [hfirst] at htake
  simp only [deref, ok_bind, listHeadToTaskStruct] at htake
  obtain ⟨x, hx, _⟩ := bind_eq_ok.mp htake
  obtain ⟨y, _, hx⟩ := bind_eq_ok.mp hx
  cases hx

/-- In every state of a run without `USE_COW`, the counter of a frame is the number
of data entries that map it, plus one for a shared page or the code of process 1,
and never exceeds one. Each allocation of a fork, whatever page the fork has come
to, then succeeds with a frame that has no owner. -/
theorem physMem_counts_owners {image : Nat → Fin pageSize → UInt8} {tr : List Event} {k : Kernel}
    (h : RunFrom false admitted image tr k) :
    (∀ f, numPagKernel ≤ f →
      k.mm.physMem f = dataRefs k.mm f + (if isSharedFrame k.mm f then 1 else 0) +
        (if isCodeFrame (bootMm image) 8 f then 1 else 0) ∧ k.mm.physMem f ≤ 1) ∧
    (Awake k → ∀ child s, forkTake k.sched = .ok (child, s) →
      ∀ n m pages, n < numPagData → forkReserve k.sched.current child n
        (forkBase k.mm k.sched.current child) = .ok (m, some pages) →
      ∃ f : Nat, (allocFrame m).1 = f ∧
        (∀ t p, DataPage p → (m.pagusrTable t p).frame? ≠ some f) ∧
        isSharedFrame m f = false ∧ isCodeFrame (bootMm image) 8 f = false) := by
  obtain ⟨ls, hk⟩ := Reachable.kernelInv ⟨image, tr, h⟩
  refine ⟨fun f hf => hk.frames.count_owners hf, ?_⟩
  intro ha child s htake n m pages hn hres
  cases hf : ls .freequeue with
  | nil => exact absurd htake (not_forkTake_nil hk.queues.rings hf _)
  | cons c rest =>
    obtain ⟨q, htake', _, _, hcur, _⟩ := forkTake_spec hk.queues ha.2 hf
    rw [htake] at htake'
    cases htake'
    obtain ⟨hbase, hb⟩ := forkBase_spec hk.frames hcur.symm
    -- the PCB that the fork takes has no data pages
    have hempty : ∀ p, DataPage p →
        (forkBase k.mm k.sched.current child).pagusrTable child p = .zero := by
      intro p hp
      rw [hb.data child hp]
      exact hk.child_empty hf p hp
    rcases forkReserve_spec hbase hcur.symm hempty n (by omega) with
      ⟨m', pages', hres', hr⟩ | ⟨m', _, _, hres', _⟩
    · rw [hres] at hres'
      cases hres'
      exact hr.inv.alloc_unowned image
    · rw [hres] at hres'
      cases hres'

/-- After the first fork. -/
theorem physMem_counts_owners_fork : ∃ k, RunFrom false admitted (fun _ _ => 0) [⟨1, .fork, 2⟩] k ∧
    ∀ f, numPagKernel ≤ f → k.mm.physMem f ≤ 1 := by
  obtain ⟨m, hok, _⟩ := boot_fork false (fun _ _ => 0)
  have hpid : (1 : Int) = bootState.pcb.pid := by decide +kernel
  have hrun : RunFrom false admitted (fun _ _ => 0) [⟨1, .fork, 2⟩] ⟨bootForked, m⟩ :=
    ⟨_, boot_eq _, .snoc .nil ⟨hpid, .inr ⟨boot_awake _, trivial⟩, hok⟩⟩
  exact ⟨_, hrun, fun f hf => ((physMem_counts_owners hrun).1 f hf).2⟩

end Zeos
