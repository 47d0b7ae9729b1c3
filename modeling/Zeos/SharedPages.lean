import Zeos.Guarded

/-!
# Shared pages

Who has shared pages attached, how `num_refs` counts the attachments, and what a
child gets from its parent. Both `sys_fork` and `sys_exit` fail to recognise the
attachments of a process, so that a child keeps what the last user of its page
table left there, and the counters keep the attachments of dead processes.
-/

namespace Zeos

open LinkedRings Loops Holders Runs
set_option autoImplicit false

/-- Page `p` of table `t` maps the shared page `id`. -/
def Attached (m : Mm) (t : Slot) (p id : Nat) : Prop :=
  SharedRegion p ∧ id < numSharedPages ∧
    (m.pagusrTable t p).frame?.map Int.ofNat = some (m.sharedPages id).frame

instance (m : Mm) (t : Slot) (p id : Nat) : Decidable (Attached m t p id) :=
  inferInstanceAs (Decidable (_ ∧ _))

theorem attached_iff {m : Mm} (h : SharedFrames m) {t : Slot} {p id : Nat} :
    Attached m t p id ↔ SharedRegion p ∧ id < numSharedPages ∧
      (m.pagusrTable t p).frame? = some (256 + 2 * id) := by
  unfold Attached
  refine and_congr_right fun _ => and_congr_right fun hid => ?_
  rw [h id hid]
  cases (m.pagusrTable t p).frame? with
  | none => simp
  | some f =>
    simp only [Option.map_some, Option.some.injEq]
    exact Int.ofNat_inj

theorem Attached.unique {m : Mm} (h : SharedFrames m) {t : Slot} {p i j : Nat} (hi : Attached m t p i)
    (hj : Attached m t p j) : i = j := by
  have hfi := ((attached_iff h).mp hi).2.2
  rw [((attached_iff h).mp hj).2.2] at hfi
  have := Option.some.inj hfi
  omega

theorem KernelInv.ExitOutcome.sameShared {useCow : Bool} {k k' : Kernel} {ls ls' : Queue → List Slot}
    (h : KernelInv.ExitOutcome useCow k ls k' ls') : KernelInv.SameShared k.mm k'.mm :=
  ⟨h.released.sharedPages, fun _ _ hp => KernelInv.Released.data_other h.released (.inr (region_disjoint hp).1)⟩

def regionPlaces : Finset (Slot × Nat) := Finset.univ ×ˢ Finset.Ico userLastPage totalPages

theorem mem_regionPlaces {t : Slot} {p : Nat} : (t, p) ∈ regionPlaces ↔ SharedRegion p := by
  simp [regionPlaces, SharedRegion]

theorem regionPlaces_card : regionPlaces.card = 7400 := by
  rw [regionPlaces, Finset.card_product, Finset.card_univ, Fintype.card_fin, Nat.card_Ico]
  rfl

/-- The counters agree with the page tables, and free PCBs have nothing attached. -/
structure SharedInv (m : Mm) (free : List Slot) : Prop where
  mapped : ∀ t p, SharedRegion p → m.pagusrTable t p = .zero ∨ (m.pagusrTable t p).present = true
  clean : ∀ t ∈ free, ∀ p, SharedRegion p → ∀ id, id < numSharedPages →
    (m.pagusrTable t p).frame? ≠ some (256 + 2 * id)
  count : ∀ id, id < numSharedPages →
    (m.sharedPages id).numRefs = (refs regionPlaces (heldFrame m) (256 + 2 * id) : Nat)

namespace SharedInv
variable {m m' : Mm} {free : List Slot}

theorem refs_bound (m : Mm) (f : Nat) : refs regionPlaces (heldFrame m) f ≤ 7400 := by
  rw [← regionPlaces_card]
  exact refs_le_card _ _ _

theorem sameShared (h : SharedInv m free) (hs : KernelInv.SameShared m m') : SharedInv m' free where
  mapped t p hp := by
    rw [hs.region t p hp]
    exact h.mapped t p hp
  clean t ht p hp := by
    rw [hs.region t p hp]
    exact h.clean t ht p hp
  count id hid := by
    rw [hs.sharedPages, h.count id hid]
    congr 1
    apply (refs_congr _ _).symm
    rintro ⟨t, p⟩ hx
    exact congrArg PageTableEntry.frame? (hs.region t p (mem_regionPlaces.mp hx))

theorem mono {free' : List Slot} (h : SharedInv m free) (hf : ∀ t ∈ free', t ∈ free) :
    SharedInv m free' :=
  ⟨h.mapped, fun t ht => h.clean t (hf t ht), h.count⟩

theorem update {t : Slot} {p id : Nat} {e : PageTableEntry} {d : Int} (h : SharedInv m free)
    (hp : SharedRegion p) (hid : id < numSharedPages) (ht : t ∉ free)
    (htab : m'.pagusrTable = (m.setEntry t p e).pagusrTable)
    (hshared : m'.sharedPages = (addRefs m id d).sharedPages)
    (he : e = .zero ∨ e.present = true)
    (hd : ∀ i, i < numSharedPages →
      ((if e.frame? = some (256 + 2 * i) then 1 else 0 : Nat) : Int) -
        ((if (m.pagusrTable t p).frame? = some (256 + 2 * i) then 1 else 0 : Nat) : Int) =
          if i = id then d else 0) :
    SharedInv m' free := by
  have hother : ∀ u q, ¬ (u = t ∧ q = p) → m'.pagusrTable u q = m.pagusrTable u q := by
    intro u q hne
    rw [htab, Mm.setEntry_table, if_neg hne]
  have hsame : m'.pagusrTable t p = e := by rw [htab, Mm.setEntry_same]
  refine ⟨?_, ?_, ?_⟩
  · intro u q hq
    by_cases hc : u = t ∧ q = p
    · rw [hc.1, hc.2, hsame]
      exact he
    · rw [hother u q hc]
      exact h.mapped u q hq
  · intro u hu q hq
    rw [hother u q (fun hc => ht (hc.1 ▸ hu))]
    exact h.clean u hu q hq
  · intro i hi
    have hrest : ∀ x ∈ regionPlaces, x ≠ (t, p) → heldFrame m' x = heldFrame m x := by
      rintro ⟨u, q⟩ _ hne
      exact congrArg PageTableEntry.frame? (hother u q fun hc => hne (Prod.ext hc.1 hc.2))
    have hrefs := refs_update (mem_regionPlaces.mpr hp) hrest (256 + 2 * i)
    have hold : heldFrame m (t, p) = (m.pagusrTable t p).frame? := rfl
    have hnew : heldFrame m' (t, p) = e.frame? := congrArg PageTableEntry.frame? hsame
    rw [hold, hnew] at hrefs
    have hcount := h.count i hi
    have hdi := hd i hi
    have hb := refs_bound m' (256 + 2 * i)
    have hval : (m.sharedPages i).numRefs + (if i = id then d else 0) =
        (refs regionPlaces (heldFrame m') (256 + 2 * i) : Nat) := by
      omega
    rw [hshared]
    change (Function.update m.sharedPages id _ i).numRefs = _
    by_cases hii : i = id
    · subst hii
      rw [if_pos rfl] at hval
      rw [Function.update_self]
      change int32 ((m.sharedPages i).numRefs + d) = _
      rw [hval]
      exact int32_of_range (by omega) (by omega)
    · rw [if_neg hii, add_zero] at hval
      rw [Function.update_of_ne hii, hval]

theorem attach {t : Slot} {p id : Nat} (h : SharedInv m free) (hp : p ∈ freeRegion m t)
    (hid : id < numSharedPages) (ht : t ∉ free) : SharedInv (KernelInv.attached m t p id) free := by
  obtain ⟨hreg, hz⟩ := mem_freeRegion.mp hp
  have hlt : 256 + 2 * id < totalPages := by
    simp only [numSharedPages, totalPages] at hid ⊢
    omega
  refine h.update (d := 1) hreg hid ht rfl rfl (.inr rfl) ?_
  intro i _
  rw [hz, frame?_ssEntry hlt, frame?_zero]
  by_cases hi : i = id
  · simp [hi]
  · have hne : ¬ 2 * id = 2 * i := by omega
    simp [hi, hne]

theorem detach {t : Slot} {p id : Nat} (h : SharedInv m free) (hp : SharedRegion p)
    (hid : id < numSharedPages) (ht : t ∉ free) (hz : m.pagusrTable t p ≠ .zero)
    (hf : (m.pagusrTable t p).pbaseAddr = 256 + 2 * id) (hd : KernelInv.Detached m m' t p id) :
    SharedInv m' free := by
  refine h.update hp hid ht hd.pagusrTable hd.sharedPages (.inl rfl) ?_
  intro i _
  rw [frame?_of_present ((h.mapped t p hp).resolve_left hz), hf, frame?_zero]
  by_cases hi : i = id
  · simp [hi]
  · have hne : ¬ 2 * id = 2 * i := by omega
    simp [hi, hne]

theorem clear {k : Kernel} (h : SharedInv k.mm free) (id : Int) :
    SharedInv (sysShmrm k id).2.mm free := by
  unfold sysShmrm
  split
  · exact h
  · refine ⟨h.mapped, h.clean, ?_⟩
    intro i hi
    change (Function.update k.mm.sharedPages id.toNat _ i).numRefs = _
    by_cases hii : i = id.toNat
    · rw [← hii, Function.update_self]
      exact h.count i hi
    · rw [Function.update_of_ne hii]
      exact h.count i hi

theorem leak {child : Slot} (h : SharedInv m free) (hl : Leaked m m' child) : SharedInv m' free := by
  have hframe : ∀ u p id, SharedRegion p → id < numSharedPages →
      ((m'.pagusrTable u p).frame? = some (256 + 2 * id) ↔
        (m.pagusrTable u p).frame? = some (256 + 2 * id)) := by
    intro u p id hp hid
    rcases hl.region u p hp with he | ⟨hz, f, hf, hlt, he⟩
    · rw [he]
    · rw [he, hz, frame?_ssEntry hlt, frame?_zero]
      simp only [numSharedPages] at hid
      simp only [Option.some.injEq, reduceCtorEq, iff_false]
      omega
  refine ⟨?_, ?_, ?_⟩
  · intro u p hp
    rcases hl.region u p hp with he | ⟨_, f, _, _, he⟩
    · rw [he]
      exact h.mapped u p hp
    · rw [he]
      exact .inr rfl
  · intro u hu p hp id hid he
    exact h.clean u hu p hp id hid ((hframe u p id hp hid).mp he)
  · intro id hid
    rw [hl.sharedPages, h.count id hid]
    congr 1
    apply (refs_congr_at _).symm
    rintro ⟨u, p⟩ hx
    exact hframe u p id (mem_regionPlaces.mp hx) hid

theorem boot {image : Nat → Fin pageSize → UInt8} (h : BootedMm image m) (free : List Slot) :
    SharedInv m free := by
  refine ⟨fun t p hp => .inl (h.region t p hp), ?_, ?_⟩
  · intro t _ p hp id _
    rw [h.region t p hp, frame?_zero]
    simp
  · intro id hid
    rw [h.shared id hid]
    have h0 : refs regionPlaces (heldFrame m) (256 + 2 * id) = 0 := by
      apply refs_eq_zero.mpr
      rintro ⟨t, p⟩ hx he
      have hz : heldFrame m (t, p) = none := by
        unfold heldFrame
        rw [h.region t p (mem_regionPlaces.mp hx), frame?_zero]
      rw [hz] at he
      cases he
    rw [h0]
    rfl

theorem numRefs_eq (h : SharedInv m free) (hs : SharedFrames m) {id : Nat} (hid : id < numSharedPages) :
    (m.sharedPages id).numRefs =
      ((regionPlaces.filter fun x => x.1 ∉ free ∧ Attached m x.1 x.2 id).card : Nat) := by
  rw [h.count id hid]
  unfold refs
  congr 2
  apply Finset.filter_congr
  rintro ⟨t, p⟩ hx
  have hp := mem_regionPlaces.mp hx
  rw [attached_iff hs]
  constructor
  · intro he
    exact ⟨fun ht => h.clean t ht p hp id hid he, hp, hid, he⟩
  · exact fun hc => hc.2.2.2

end SharedInv

/-- Admitted steps in which nobody exits with a shared page attached. -/
def detachesFirst (k : Kernel) (op : Op) (r : Int) : Prop :=
  admitted k op r ∧ (op = .exit → ∀ p id, ¬ Attached k.mm k.sched.current p id)

def CountedKernel (useCow : Bool) (k : Kernel) : Prop :=
  ∃ ls, KernelInv useCow k ls ∧ SharedInv k.mm (ls .freequeue)

theorem BootedMm.counted {image : Nat → Fin pageSize → UInt8} {m : Mm} (h : BootedMm image m)
    (useCow : Bool) : CountedKernel useCow ⟨bootState, m⟩ :=
  ⟨bootLists, .booted h useCow, .boot h _⟩

theorem exec_shared {useCow : Bool} {k k' : Kernel} {op : Op} {r : Int} {ls : Queue → List Slot}
    {free : List Slot} (hk : KernelInv useCow k ls) (hs : SharedInv k.mm free)
    (hcur : k.sched.current ∉ free) (ha : admitted k op r) (hok : exec useCow op k = .ok (r, k')) :
    SharedInv k'.mm free := by
  obtain ⟨ls', _, heff⟩ := exec_effect hk ha hok
  cases heff with
  | quiet hroles hmem => exact hs.sameShared hmem
  | attach hp hid => exact hs.attach hp (by simp only [numSharedPages]; omega) hcur
  | detach hp hid hz hf hd => exact hs.detach hp hid.2 hcur hz hf hd
  | clear id => exact hs.clear id
  | leak hc hf hcard hl => exact hs.leak hl
  | create hf hcur' hin hlink => exact hs.sameShared ⟨hin.sharedPages, hin.region⟩
  | exit hex => exact hs.sameShared hex.sameShared

theorem exec_counted {useCow : Bool} {k k' : Kernel} {op : Op} {r : Int}
    (h : CountedKernel useCow k) (ha : detachesFirst k op r)
    (hok : exec useCow op k = .ok (r, k')) : CountedKernel useCow k' := by
  obtain ⟨ls, hk, hs⟩ := h
  obtain ⟨ls', hk', heff⟩ := exec_effect hk ha.1 hok
  have hs' := exec_shared hk hs (hk.queues.current_out .freequeue (by decide)) ha.1 hok
  refine ⟨ls', hk', ?_⟩
  cases heff with
  | quiet hroles hmem =>
    rw [hroles.free]
    exact hs'
  | attach hp hid => exact hs'
  | detach hp hid hz hf hd => exact hs'
  | clear id => exact hs'
  | leak hc hf hcard hl =>
    apply hs'.mono
    intro t ht
    exact ((mem_takeFree hk.queues.rings hf).mp ht).1
  | create hf hcur' hin hlink =>
    apply hs'.mono
    intro t ht
    exact ((mem_forked_free hk.queues.rings hf).mp ht).1
  | exit hex =>
    refine ⟨hs'.mapped, ?_, hs'.count⟩
    intro t ht p hp id hid he
    rw [hex.free, List.mem_append, List.mem_singleton] at ht
    rcases ht with ht | rfl
    · exact hs'.clean t ht p hp id hid he
    · rw [hex.sameShared.region _ p hp] at he
      exact ha.2 rfl p id ((attached_iff hk.frames.shared_frame).mpr ⟨hp, hid, he⟩)

/-- As long as processes detach their shared pages before they exit, `num_refs`
counts the entries of processes in use that map the page. -/
theorem numRefs_counts_attachments {useCow : Bool} {k : Kernel} (h : Reachable useCow detachesFirst k) :
    ∃ ls, Queues k.sched.queues ls ∧ ∀ id, id < numSharedPages → (k.mm.sharedPages id).numRefs =
      ((regionPlaces.filter fun x => x.1 ∉ ls .freequeue ∧ Attached k.mm x.1 x.2 id).card : Nat) := by
  have hc : CountedKernel useCow k := by
    apply h.invariant (CountedKernel useCow)
    · intro image k hb
      rw [boot_eq] at hb
      cases hb
      exact (bootMm_spec image).counted useCow
    · exact fun _ _ _ _ hi ha hok => exec_counted hi ha hok
  obtain ⟨ls, hk, hs⟩ := hc
  exact ⟨ls, hk.queues.rings, fun id hid => hs.numRefs_eq hk.frames.shared_frame hid⟩

section First
variable {useCow : Bool} {image : Nat → Fin pageSize → UInt8} {m : Mm}

theorem shmat_null {k : Kernel} {ls : Queue → List Slot} (h : KernelInv useCow k ls) (id : Nat) {p : Nat}
    (hid : id < numSharedPages) (hget : getUserFreePage k.mm k.sched.current = (p : Int))
    (hp : p < totalPages) :
    exec useCow (.shmat id 0) k =
      .ok ((p : Int) * pageSize, ⟨k.sched, KernelInv.attached k.mm k.sched.current p id⟩) := by
  simp only [numSharedPages] at hid
  have hframe : uint32 (k.mm.sharedPages id).frame = 256 + 2 * id :=
    SharedFrames.uint32 h.frames.shared_frame hid
  have hpage : shmatPage k.mm k.sched.current 0 = .ok (p : Int) := by
    unfold shmatPage
    rw [if_pos rfl, hget, if_neg (by omega)]
  change sysShmat k id 0 = _
  unfold sysShmat
  rw [if_neg (by omega), h.getPT_current, ok_bind, hpage, ok_bind, if_neg (by omega),
    Int.toNat_natCast, Int.toNat_natCast, setSsPag, hframe, writePte_of_lt _ _ _ hp]
  rfl

theorem getUserFreePage_first {t : Slot} {p : Nat} (hp : SharedRegion p)
    (hz : m.pagusrTable t p = .zero)
    (hused : ∀ q, userLastPage ≤ q → q < p → m.pagusrTable t q ≠ .zero) :
    getUserFreePage m t = (p : Int) := by
  have hfind : (List.range' userLastPage (totalPages - userLastPage)).find?
      (fun pag => m.pagusrTable t pag = .zero) = some p := by
    apply List.find?_range'_eq_some.mpr
    refine ⟨decide_eq_true hz, List.mem_range'_1.mpr ⟨hp.1, ?_⟩, ?_⟩
    · have := hp.2
      simp only [userLastPage, totalPages] at *
      omega
    · intro q hq hqp
      rw [Bool.not_eq_true', decide_eq_false_iff_not]
      exact hused q hq hqp
  rw [getUserFreePage, hfind]

theorem shmat_bottom {ls : Queue → List Slot} (h : KernelInv useCow ⟨bootState, m⟩ ls)
    (hz : m.pagusrTable 8 284 = .zero) {id : Nat} (hid : id < numSharedPages) :
    exec useCow (.shmat id 0) ⟨bootState, m⟩ =
      .ok (1163264, ⟨bootState, KernelInv.attached m 8 284 id⟩) := by
  have hget : getUserFreePage m bootState.current = ((284 : Nat) : Int) := by
    refine getUserFreePage_first (by decide) hz ?_
    intro q hq hlt
    simp only [userLastPage, userFirstPage, lUserStart, pageSize, numPagCode, numPagData] at hq
    omega
  exact shmat_null h id hid hget (by decide)

theorem shmat_bootState {ls : Queue → List Slot} (h : KernelInv useCow ⟨bootState, m⟩ ls)
    (hz : m.pagusrTable 8 284 = .zero) :
    exec useCow (.shmat 1 0) ⟨bootState, m⟩ =
      .ok (1163264, ⟨bootState, KernelInv.attached m 8 284 1⟩) :=
  shmat_bottom h hz (by decide)

theorem BootedMm.shmat (h : BootedMm image m) (useCow : Bool) :
    exec useCow (.shmat 1 0) ⟨bootState, m⟩ =
      .ok (1163264, ⟨bootState, KernelInv.attached m 8 284 1⟩) :=
  shmat_bootState (KernelInv.booted h useCow) (h.region 8 284 (by decide))

theorem BootedMm.attached_inv (h : BootedMm image m) (useCow : Bool) :
    KernelInv useCow ⟨bootState, KernelInv.attached m 8 284 1⟩ bootLists := by
  have hreg : SharedRegion 284 := by decide
  exact (KernelInv.booted h useCow).attached_inv (mem_freeRegion.mpr ⟨hreg, h.region _ _ hreg⟩)

end First

def bootExited : Sched :=
  match exitFamily bootState >>= exitSched with
  | .ok s => s
  | .error _ => bootState

theorem exit_bootState : (exitFamily bootState >>= exitSched) = .ok bootExited := rfl

section First
variable {image : Nat → Fin pageSize → UInt8} {m : Mm}

theorem BootedMm.exit_attached (h : BootedMm image m) (useCow : Bool) :
    exec useCow .exit ⟨bootState, KernelInv.attached m 8 284 1⟩ =
      .ok (0, ⟨bootExited, freeUserPages (KernelInv.attached m 8 284 1) 8⟩) := by
  have hinv := h.attached_inv useCow
  have heq := sysExit_eq hinv.queues (boot_awake m).1
    (exitShared_eq hinv.frames.shared_frame bootState.current)
  rw [exit_bootState, ok_bind] at heq
  unfold exec
  dsimp only
  rw [heq]
  rfl

/-- Nobody has the page, and its counter is still 1. -/
theorem BootedMm.exit_miscounts (h : BootedMm image m) {ls : Queue → List Slot}
    (hls : Queues bootExited.queues ls) :
    (regionPlaces.filter fun x => x.1 ∉ ls .freequeue ∧
      Attached (freeUserPages (KernelInv.attached m 8 284 1) 8) x.1 x.2 1).card = 0 ∧
    ((freeUserPages (KernelInv.attached m 8 284 1) 8).sharedPages 1).numRefs = 1 := by
  have hinv := h.attached_inv true
  obtain ⟨_, hexit⟩ := exec_exit_eq_ok (h.exit_attached true)
  obtain ⟨ls', hex⟩ := hinv.exit (boot_awake _) hexit
  have hrel := hex.released
  dsimp only at hrel
  constructor
  · have hfree : ls .freequeue = bootLists .freequeue ++ [8] := by
      rw [Rings.unique hls hex.inv.queues.rings trivial, hex.free, bootState_current]
    rw [Finset.card_eq_zero, Finset.filter_eq_empty_iff]
    rintro ⟨t, p⟩ hx ⟨ht, hp, _, hmap⟩
    have ht8 : t ≠ 8 := by
      rintro rfl
      exact ht (by rw [hfree]; simp)
    rw [KernelInv.Released.data_other hrel (.inr (region_disjoint hp).1)] at hmap
    have hz : (KernelInv.attached m 8 284 1).pagusrTable t p = .zero := by
      rw [KernelInv.attached_table, if_neg (fun hc => ht8 hc.1)]
      exact h.region t p hp
    rw [hz] at hmap
    cases hmap
  · rw [hrel.sharedPages]
    change (Function.update m.sharedPages 1 _ 1).numRefs = 1
    rw [Function.update_self]
    change int32 ((m.sharedPages 1).numRefs + 1) = 1
    rw [h.shared 1 (by decide)]
    rfl

end First

/-- Process 1 attaches the shared page 1 and exits: the counter stays at 1. -/
theorem numRefs_stale_after_exit : ∃ k, RunFrom false admitted (fun _ _ => 0)
    [⟨1, .exit, 0⟩, ⟨1, .shmat 1 0, 1163264⟩] k ∧
    ¬ ∃ ls, Queues k.sched.queues ls ∧ ∀ id, id < numSharedPages → (k.mm.sharedPages id).numRefs =
      ((regionPlaces.filter fun x => x.1 ∉ ls .freequeue ∧ Attached k.mm x.1 x.2 id).card : Nat) := by
  have hboot := bootMm_spec fun _ _ => 0
  have hpid : (1 : Int) = bootState.pcb.pid := by decide +kernel
  have haddr : 0 < totalPages * pageSize := by decide
  have hrun : RunFrom false admitted (fun _ _ => 0) [⟨1, .exit, 0⟩, ⟨1, .shmat 1 0, 1163264⟩]
      ⟨bootExited, freeUserPages (KernelInv.attached (bootMm fun _ _ => 0) 8 284 1) 8⟩ :=
    ⟨_, boot_eq _, .snoc (.snoc .nil ⟨hpid, .inr ⟨boot_awake _, haddr⟩, hboot.shmat false⟩)
      ⟨hpid, .inr ⟨boot_awake _, trivial⟩, hboot.exit_attached false⟩⟩
  refine ⟨_, hrun, ?_⟩
  rintro ⟨ls, hls, hcount⟩
  obtain ⟨hcard, hrefs⟩ := hboot.exit_miscounts hls
  have := hcount 1 (by decide)
  rw [hcard, hrefs] at this
  cases this

/-- After the first attachment. -/
theorem numRefs_counts_attachments_first : ∃ k, Reachable false detachesFirst k ∧
    Attached k.mm 8 284 1 ∧ ∃ ls, Queues k.sched.queues ls ∧ (k.mm.sharedPages 1).numRefs =
      ((regionPlaces.filter fun x => x.1 ∉ ls .freequeue ∧ Attached k.mm x.1 x.2 1).card : Nat) := by
  have hboot := bootMm_spec fun _ _ => 0
  have haddr : 0 < totalPages * pageSize := by decide
  have hallowed : detachesFirst ⟨bootState, bootMm fun _ _ => 0⟩ (.shmat 1 0) 1163264 :=
    ⟨.inr ⟨boot_awake _, haddr⟩, fun he => Op.noConfusion he⟩
  have hreach := (Reachable.boot (boot_eq fun _ _ => 0)).step hallowed (hboot.shmat false)
  obtain ⟨ls, hls, hcount⟩ := numRefs_counts_attachments hreach
  refine ⟨_, hreach, ?_, ls, hls, hcount 1 (by decide)⟩
  rw [attached_iff (hboot.attached_inv false).frames.shared_frame]
  refine ⟨by decide, by decide, ?_⟩
  dsimp only
  rw [KernelInv.attached_table, if_pos ⟨rfl, rfl⟩]
  rfl

/-- What a child should find in its region: the attachments of its parent. -/
def InheritsShared (m m' : Mm) (parent child : Slot) : Prop :=
  ∀ p, SharedRegion p → (∀ id, Attached m parent p id → Attached m' child p id) ∧
    ((∀ id, ¬ Attached m parent p id) → m'.pagusrTable child p = .zero)

section Fork
variable {m₀ m m' : Mm} {parent child : Slot} {pages : Nat → Nat} {n : Nat}

/-- Pages of the region that the first `n` rounds of a fork have borrowed from the
parent; without any assumption on the memory. -/
structure Borrowed (m₀ m : Mm) (parent : Slot) (pages : Nat → Nat) (n : Nat) : Prop where
  sharedPages : m.sharedPages = m₀.sharedPages
  region : ∀ i, i < n → SharedRegion (pages i) ∧ m₀.pagusrTable parent (pages i) = .zero
  other : ∀ u p, SharedRegion p → m.pagusrTable u p = m₀.pagusrTable u p ∨
    (u = parent ∧ ∃ i, i < n ∧ pages i = p)

theorem allocFrame_tables (m : Mm) : (allocFrame m).2.pagusrTable = m.pagusrTable ∧
    (allocFrame m).2.sharedPages = m.sharedPages := by
  rcases allocFrame_cases m with ⟨f, _, hok⟩ | ⟨_, hok⟩
  · rw [hok]
    exact ⟨rfl, rfl⟩
  · rw [hok]
    exact ⟨rfl, rfl⟩

theorem Borrowed.step (h : Borrowed m₀ m parent pages n) (hn : n < numPagData) {page : Nat}
    (hok : forkReserveStep parent child n m = .ok (m', some page)) :
    Borrowed m₀ m' parent (Function.update pages n page) (n + 1) := by
  obtain ⟨htab, hshared⟩ := allocFrame_tables m
  unfold forkReserveStep at hok
  rcases getUserFreePage_cases m parent with ⟨p, hp, hz, hget⟩ | ⟨_, hget⟩
  · rw [hget, if_neg (by omega)] at hok
    split at hok
    · cases hok
    · have hdata : DataPage (userFirstPage + n) :=
        ⟨Nat.le_add_right _ _, Nat.add_lt_add_left hn _⟩
      simp only [Int.toNat_natCast, setSsPag, writePte_of_lt _ parent _ hp.2, ok_bind,
        writePte_of_lt _ child _ (data_lt hdata)] at hok
      cases hok
      have hpage : m₀.pagusrTable parent page = .zero := by
        rcases h.other parent page hp with he | ⟨_, i, hi, he⟩
        · rw [← he]
          exact hz
        · rw [← he]
          exact (h.region i hi).2
      refine ⟨hshared.trans h.sharedPages, ?_, ?_⟩
      · intro i hi
        by_cases hin : i = n
        · rw [hin, Function.update_self]
          exact ⟨hp, hpage⟩
        · rw [Function.update_of_ne hin]
          exact h.region i (by omega)
      · intro u q hq
        have hne : q ≠ userFirstPage + n := fun he => (region_disjoint hq).1 (he ▸ hdata)
        rw [Mm.setEntry_table, if_neg (fun hc => hne hc.2), Mm.setEntry_table, htab]
        by_cases hc : u = parent ∧ q = page
        · exact .inr ⟨hc.1, n, by omega, by rw [Function.update_self, hc.2]⟩
        · rw [if_neg hc]
          rcases h.other u q hq with he | ⟨hu, i, hi, he⟩
          · exact .inl he
          · exact .inr ⟨hu, i, by omega, by rw [Function.update_of_ne (by omega), he]⟩
  · rw [hget, if_pos (by omega)] at hok
    cases hok

end Fork

theorem attached_congr {m m' : Mm} (hs : KernelInv.SameShared m m') {t : Slot} {p id : Nat} :
    Attached m' t p id ↔ Attached m t p id := by
  unfold Attached
  refine and_congr_right fun hp => ?_
  rw [hs.region t p hp, hs.sharedPages]

theorem InheritsShared.parent_attached {m : Mm} (hf : SharedFrames m) {parent child : Slot}
    (h : InheritsShared m m parent child) {p id : Nat} (ha : Attached m child p id) :
    Attached m parent p id := by
  obtain ⟨hall, hzero⟩ := h p ha.1
  by_cases hsome : ∃ i, Attached m parent p i
  · obtain ⟨i, hi⟩ := hsome
    rw [ha.unique hf (hall i hi)]
    exact hi
  · have hz := hzero fun i hi => hsome ⟨i, hi⟩
    have := ha.2.2
    rw [hz] at this
    cases this

/-- The process attached the shared page, or a process that had it forked this one. -/
def reaches : List Event → Int → Nat → Prop
  | [], _, _ => False
  | e :: tr, pid, id => reaches tr pid id ∨
    (e.caller = pid ∧ 0 ≤ e.ret ∧ ∃ addr, e.op = .shmat id addr) ∨
    (e.op = .fork ∧ e.ret = pid ∧ reaches tr e.caller id)

/-- Processes have only what they or their ancestors attached. -/
def Lineage (tr : List Event) (k : Kernel) (ls : Queue → List Slot) : Prop :=
  ∀ t, Runnable k.sched ls t → ∀ p id, Attached k.mm t p id → reaches tr (k.sched.task t).pid id

section Lineage
variable {useCow : Bool} {k k' : Kernel} {ls : Queue → List Slot} {tr : List Event} {e : Event}

theorem Lineage.cons (h : Lineage tr k ls) (e : Event) : Lineage (e :: tr) k ls :=
  fun t ht p id ha => .inl (h t ht p id ha)

theorem Lineage.attach (h : Lineage tr k ls) (hf : SharedFrames k.mm) {id p : Nat}
    (hf' : SharedFrames (KernelInv.attached k.mm k.sched.current p id))
    (hid : id < numSharedPages)
    (he : e.caller = k.sched.pcb.pid ∧ 0 ≤ e.ret ∧ ∃ addr, e.op = .shmat id addr) :
    Lineage (e :: tr) ⟨k.sched, KernelInv.attached k.mm k.sched.current p id⟩ ls := by
  intro t ht q i ha
  obtain ⟨hq, hi, hmap⟩ := (attached_iff hf').mp ha
  rw [KernelInv.attached_table] at hmap
  by_cases hc : t = k.sched.current ∧ q = p
  · rw [if_pos hc, frame?_ssEntry (by simp only [numSharedPages, totalPages] at hid ⊢; omega)] at hmap
    have : i = id := by
      have := Option.some.inj hmap
      omega
    subst this
    refine .inr (.inl ⟨?_, he.2⟩)
    rw [he.1, hc.1]
    rfl
  · rw [if_neg hc] at hmap
    exact .inl (h t ht q i ((attached_iff hf).mpr ⟨hq, hi, hmap⟩))

theorem Lineage.mono {ls' : Queue → List Slot} (h : Lineage tr k ls) (hf : SharedFrames k.mm)
    (hf' : SharedFrames k'.mm)
    (hrun : ∀ t, Runnable k'.sched ls' t →
      Runnable k.sched ls t ∧ (k'.sched.task t).pid = (k.sched.task t).pid)
    (hm : ∀ t p id, SharedRegion p → id < numSharedPages →
      (k'.mm.pagusrTable t p).frame? = some (256 + 2 * id) →
        (k.mm.pagusrTable t p).frame? = some (256 + 2 * id)) : Lineage tr k' ls' := by
  intro t ht p id ha
  obtain ⟨hp, hid, hmap⟩ := (attached_iff hf').mp ha
  obtain ⟨hrun, hpid⟩ := hrun t ht
  rw [hpid]
  exact h t hrun p id ((attached_iff hf).mpr ⟨hp, hid, hm t p id hp hid hmap⟩)

theorem Lineage.leak {child : Slot} {rest : List Slot} {q : Heap QNode} {m' : Mm}
    (h : Lineage tr k ls) (hk : KernelInv useCow k ls) (hf : ls .freequeue = child :: rest)
    (hf' : SharedFrames m') (hl : Leaked k.mm m' child) :
    Lineage tr ⟨forked k.sched child q, m'⟩ (Function.update ls .freequeue rest) := by
  refine h.mono hk.frames.shared_frame hf' ?_ ?_
  · rintro t ⟨hi, ht⟩
    rw [Function.update_of_ne (by decide), Function.update_of_ne (by decide)] at ht
    have hfree : child ∈ ls .freequeue := by rw [hf]; exact List.mem_cons_self
    have htc : t ≠ child := by
      rintro rfl
      rcases ht with ht | ht | ht
      · exact hk.queues.current_out .freequeue (by decide) (ht ▸ hfree)
      · cases hk.queues.rings.unique ht hfree
      · cases hk.queues.rings.unique ht hfree
    exact ⟨⟨hi, ht⟩, by rw [forked_other q htc]⟩
  · intro t p id hp hid hmap
    rcases hl.region t p hp with he | ⟨_, f, hlow, hlt, he⟩
    · rw [← he]
      exact hmap
    · rw [he, frame?_ssEntry hlt] at hmap
      have := Option.some.inj hmap
      simp only [numSharedPages] at hid
      omega

theorem Lineage.create {child : Slot} {rest : List Slot} {q q' : Heap QNode} {f : Heap FNode}
    {m' : Mm} (h : Lineage tr k ls) (hk : KernelInv useCow k ls) (hu : UserRuns k)
    (hf : ls .freequeue = child :: rest) (hin : Inherits useCow k.mm m' k.sched.current child)
    (hsh : InheritsShared k.mm k.mm k.sched.current child) :
    Lineage (⟨k.sched.pcb.pid, .fork, k.sched.nextPid⟩ :: tr)
      ⟨linkedChild (forked k.sched child q) child q' f, m'⟩ (forkedLists ls child rest) := by
  have hsame : KernelInv.SameShared k.mm m' := ⟨hin.sharedPages, hin.region⟩
  intro t ht p id ha
  have ha' : Attached k.mm t p id := (attached_congr hsame).mp ha
  by_cases htc : t = child
  · subst htc
    have hparent := hsh.parent_attached hk.frames.shared_frame ha'
    have hpid : ((linkedChild (forked k.sched t q) t q' f).task t).pid = k.sched.nextPid := by
      simp [linkedChild, childPcb]
    change reaches _ ((linkedChild (forked k.sched t q) t q' f).task t).pid id
    rw [hpid]
    exact .inr (.inr ⟨rfl, rfl, h _ (KernelInv.current_runnable hu) p id hparent⟩)
  · have hpid : ((linkedChild (forked k.sched child q) child q' f).task t).pid =
        (k.sched.task t).pid := by
      rw [linkedChild_other q' f htc, forked_other q htc]
    change reaches _ ((linkedChild (forked k.sched child q) child q' f).task t).pid id
    rw [hpid]
    exact .inl (h t (hk.runnable_of_forked hf htc ht) p id ha')

end Lineage

section First
variable {image : Nat → Fin pageSize → UInt8} {m m' : Mm}

end First

end Zeos
