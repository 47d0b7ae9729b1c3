import Zeos.SharedPages

/-!
# Removed pages

`sys_shmrm` only marks a page; `sys_shmdt` clears it when the counter of a marked
page falls to 0. A page that nobody has when it is marked is therefore not
cleared, nor is one whose last user exits. In all other runs a process that is
the first to attach a removed page finds zeros.
-/

namespace Zeos

open LinkedRings Loops Holders Runs
set_option autoImplicit false

def sharedBytes (m : Mm) (id : Nat) : Fin pageSize → UInt8 :=
  m.ram (uint32 (m.sharedPages id).frame)

/-- A PCB that does not wait in `freequeue`. -/
def Live (k : Kernel) (t : Slot) : Prop := ∃ ls, Queues k.sched.queues ls ∧ t ∉ ls .freequeue

def Unattached (k : Kernel) (id : Nat) : Prop := ∀ t, Live k t → ∀ p, ¬ Attached k.mm t p id

/-- The steps that leave a removed page to nobody without clearing it: a page is
removed that nobody has; its last user exits; its last user detaches it, but the
counter still includes the entries of a process that has exited. -/
def Forgets (k : Kernel) (id : Nat) : Op → Prop
  | .shmrm i => i = id ∧ Unattached k id
  | .exit => (k.mm.sharedPages id).toClear = 1 ∧ (∃ p, Attached k.mm k.sched.current p id) ∧
    ∀ t p, Live k t → Attached k.mm t p id → t = k.sched.current
  | .shmdt addr => (k.mm.sharedPages id).toClear = 1 ∧ id ≠ 0 ∧ addr % pageSize = 0 ∧
    Attached k.mm k.sched.current (addr / pageSize) id ∧
    (∀ t p, Live k t → Attached k.mm t p id → t = k.sched.current ∧ p = addr / pageSize) ∧
    ∃ t p, ¬ Live k t ∧ Attached k.mm t p id
  | _ => False

/-- Admitted steps that forget the page `id` only when it is all zeros. -/
def heeds (id : Nat) (k : Kernel) (op : Op) (r : Int) : Prop :=
  admitted k op r ∧ (Forgets k id op → ∀ o, sharedBytes k.mm id o = 0)

section Contents
variable {useCow : Bool} {k k' : Kernel} {ls : Queue → List Slot} {op : Op} {r : Int}

theorem sharedBytes_eq {m : Mm} (h : SharedFrames m) {id : Nat} (hid : id < numSharedPages) :
    sharedBytes m id = m.ram (256 + 2 * id) := by
  rw [sharedBytes, SharedFrames.uint32 h hid]

theorem userRetry_ram {m m' : Mm} {t : Slot} {addr : Nat} {write may : Bool} (h : FrameInv useCow m)
    (ha : addr < totalPages * pageSize) (hok : userRetry m t addr write = .ok (may, m')) {f : Nat}
    (hf : f < 292) : m'.ram f = m.ram f := by
  rcases userRetry_eq_ok hok with ⟨_, rfl⟩ | ⟨_, hm, _⟩
  · rfl
  · exact pgfRoutine_ram h ha hm hf

theorem storeByte_ram {m m' : Mm} {t : Slot} {addr : Nat} {v : UInt8}
    (hok : storeByte m t addr v = .ok m') (f : Nat) :
    m'.ram f = m.ram f ∨ ∃ o, translate m t addr = .ok (f, o) := by
  obtain ⟨⟨g, o⟩, hg, hok⟩ := bind_eq_ok.mp hok
  cases hok
  by_cases he : f = g
  · subst he
    exact .inr ⟨o, hg⟩
  · exact .inl (Function.update_of_ne he _ _)

theorem FrameInv.translate_shared {m : Mm} {t : Slot} {addr id : Nat} {o : Fin pageSize}
    (h : FrameInv useCow m) (hid : id < numSharedPages)
    (htr : translate m t addr = .ok (256 + 2 * id, o)) : Attached m t (addr / pageSize) id := by
  obtain ⟨hlt, hpres, hframe, _⟩ := translate_eq_ok htr
  have hreg := h.region_of_shared hlt hid (ne_zero_of_present hpres) hframe
  exact (attached_iff h.shared_frame).mpr ⟨hreg, hid, frame?_eq_some.mpr ⟨hpres, hframe⟩⟩

/-- The only stores that reach a shared frame go through an attached page. -/
theorem KernelInv.store_ram {addr : Nat} {v : UInt8} (h : KernelInv useCow k ls)
    (ha : addr < totalPages * pageSize) (hok : exec useCow (.store addr v) k = .ok (r, k')) {id : Nat}
    (hid : id < numSharedPages) : k'.mm.ram (256 + 2 * id) = k.mm.ram (256 + 2 * id) ∨
      (k'.sched = k.sched ∧ ∃ p, Attached k'.mm k.sched.current p id) := by
  have hf : 256 + 2 * id < 292 := by
    simp only [numSharedPages] at hid
    omega
  obtain ⟨hk', _, _⟩ := h.store ha hok
  obtain ⟨pt, may, m₁, m, hpt, hm, rfl, hout⟩ := exec_store_eq_ok hok
  rw [h.getPT_current] at hpt
  cases hpt
  have hkeep := userRetry_ram h.frames ha hm hf
  rcases hout with ⟨_, hstore⟩ | ⟨_, rfl⟩
  · rcases storeByte_ram hstore (256 + 2 * id) with hsame | ⟨o, htr⟩
    · exact .inl (hsame.trans hkeep)
    · rw [← translate_sameTables (storeByte_sameTables hstore)] at htr
      exact .inr ⟨rfl, addr / pageSize, hk'.frames.translate_shared hid htr⟩
  · exact .inl hkeep

/-- A read reaches a shared frame only where the buffer lies in an attached page. -/
theorem KernelInv.read_ram {b : Nat} {maxchars : Int} {c : CircularBuffer} {kern : Staging}
    (h : KernelInv useCow k ls) (hok : exec useCow (.read b maxchars c kern) k = .ok (r, k')) {id : Nat}
    (hid : id < numSharedPages) : k'.mm.ram (256 + 2 * id) = k.mm.ram (256 + 2 * id) ∨
      (k'.sched = k.sched ∧ ∃ p, Attached k'.mm k.sched.current p id) := by
  obtain ⟨hk', _, _⟩ := h.read hok
  obtain ⟨pt, m, hpt, rfl, ⟨_, rfl⟩ | ⟨_, _, hwrote⟩⟩ := exec_read_eq_ok hok
  · exact .inl rfl
  rw [h.getPT_current] at hpt
  cases hpt
  by_cases hsame : m.ram (256 + 2 * id) = k.mm.ram (256 + 2 * id)
  · exact .inl hsame
  · obtain ⟨o, hne⟩ := Function.ne_iff.mp hsame
    obtain ⟨i, _, htr⟩ := hwrote.changed hne
    rw [← translate_sameTables hwrote.tables] at htr
    exact .inr ⟨rfl, _, hk'.frames.translate_shared hid htr⟩

theorem sysShmrm_ram (i : Int) : (sysShmrm k i).2.mm.ram = k.mm.ram := by
  unfold sysShmrm
  split <;> rfl

theorem exec_ram (h : KernelInv useCow k ls) (ha : admitted k op r)
    (hok : exec useCow op k = .ok (r, k')) (hop : ∀ addr, op ≠ .shmdt addr) {id : Nat}
    (hid : id < numSharedPages) : k'.mm.ram (256 + 2 * id) = k.mm.ram (256 + 2 * id) ∨
      (k'.sched = k.sched ∧ ∃ p, Attached k'.mm k.sched.current p id) := by
  have hf : 256 + 2 * id < 292 := by
    simp only [numSharedPages] at hid
    omega
  have htick : ∀ r k', exec useCow .tick k = .ok (r, k') → k'.mm = k.mm := by
    intro r k' hok
    obtain ⟨s, _, _, rfl⟩ := schedOnly_eq_ok hok
    rfl
  rcases ha with rfl | ⟨hawake, haddr⟩
  · exact .inl (by rw [htick r k' hok])
  · cases op with
    | tick => exact .inl (by rw [htick r k' hok])
    | fork =>
      refine .inl ?_
      rcases sysFork_cases h.queues hawake.2 hok with ⟨_, _, rfl⟩ |
        ⟨child, rest, q, m, hfree, hcur, _, _, _, hm⟩
      · rfl
      · have hram : ∀ b, forkMemory useCow k.mm k.sched.current child = .ok (m, b) →
            m.ram (256 + 2 * id) = k.mm.ram (256 + 2 * id) := by
          intro b hb
          exact forkMemory_ram h.frames hcur.symm
            (fun p hp => h.full _ (KernelInv.current_runnable hawake.1) p (.inl hp))
            (h.child_empty hfree) hb hf
        rcases hm with ⟨hm, _, rfl⟩ | ⟨hm, s, _, rfl⟩
        · exact hram _ hm
        · exact hram _ hm
    | exit =>
      obtain ⟨_, hexit⟩ := exec_exit_eq_ok hok
      obtain ⟨ls', hex⟩ := h.exit hawake hexit
      exact .inl (by rw [hex.released.ram])
    | block =>
      obtain ⟨s, _, _, rfl⟩ := schedOnly_eq_ok hok
      exact .inl rfl
    | unblock pid =>
      obtain ⟨s, _, rfl⟩ := exec_unblock_eq_ok hok
      exact .inl rfl
    | shmat i addr =>
      rcases h.shmat_cases hawake.1 haddr hok with ⟨_, rfl⟩ | ⟨p, _, _, _, _, rfl⟩
      · exact .inl rfl
      · exact .inl rfl
    | shmdt addr => exact absurd rfl (hop addr)
    | shmrm i =>
      rcases exec_shmrm_eq_ok hok with rfl | ⟨_, rfl⟩
      · exact .inl rfl
      · exact .inl rfl
    | load addr =>
      obtain ⟨pt, _, m, _, hm, rfl⟩ := exec_load_eq_ok hok
      exact .inl (userRetry_ram h.frames haddr hm hf)
    | store addr v => exact h.store_ram haddr hok hid
    | fault addr =>
      obtain ⟨pt, m, _, hm, rfl⟩ := exec_fault_eq_ok hok
      exact .inl (pgfRoutine_ram h.frames haddr hm hf)
    | read b maxchars c kern => exact h.read_ram hok hid

end Contents

/-- The counters are right, and a removed page that no process has is all zeros. -/
structure RemovalInv (useCow : Bool) (id : Nat) (k : Kernel) (ls : Queue → List Slot) : Prop where
  inv : KernelInv useCow k ls
  counted : SharedInv k.mm []
  zero : (k.mm.sharedPages id).toClear = 1 → Unattached k id → ∀ o, k.mm.ram (256 + 2 * id) o = 0

theorem live_iff {k : Kernel} {ls : Queue → List Slot} (h : Queues k.sched.queues ls) {t : Slot} :
    Live k t ↔ t ∉ ls .freequeue := by
  constructor
  · rintro ⟨ls', h', ht⟩
    rwa [Rings.unique h h' trivial]
  · exact fun ht => ⟨ls, h, ht⟩

theorem addRefs_toClear (m : Mm) (id : Nat) (d : Int) (i : Nat) :
    ((addRefs m id d).sharedPages i).toClear = (m.sharedPages i).toClear := by
  change (Function.update m.sharedPages id _ i).toClear = _
  by_cases hi : i = id
  · rw [hi, Function.update_self]
  · rw [Function.update_of_ne hi]

section Steps
variable {useCow : Bool} {id : Nat} {k k' : Kernel} {ls ls' : Queue → List Slot} {op : Op} {r : Int}

theorem KernelInv.live_current (h : KernelInv useCow k ls) : Live k k.sched.current :=
  (live_iff h.queues.rings).mpr (h.queues.current_out .freequeue (by decide))

theorem attached_of_free {m : Mm} {t u : Slot} {p q i : Nat} (hp : p ∈ freeRegion m t)
    (h : SharedFrames m) (h' : SharedFrames (KernelInv.attached m t p i)) (ha : Attached m u q id) :
    Attached (KernelInv.attached m t p i) u q id := by
  obtain ⟨hq, hid, hmap⟩ := (attached_iff h).mp ha
  refine (attached_iff h').mpr ⟨hq, hid, ?_⟩
  rw [KernelInv.attached_table, if_neg]
  · exact hmap
  · rintro ⟨rfl, rfl⟩
    rw [(mem_freeRegion.mp hp).2, frame?_zero] at hmap
    cases hmap

theorem Leaked.attached {m m' : Mm} {child t : Slot} {p : Nat} (hl : Leaked m m' child)
    (ha : Attached m t p id) : Attached m' t p id := by
  refine ⟨ha.1, ha.2.1, ?_⟩
  rw [hl.sharedPages]
  rcases hl.region t p ha.1 with he | ⟨hz, _⟩
  · rw [he]
    exact ha.2.2
  · have := ha.2.2
    rw [hz] at this
    cases this

theorem KernelInv.Detached.attached_iff {m m' : Mm} {t u : Slot} {p q i : Nat}
    (hd : KernelInv.Detached m m' t p i) :
    Attached m' u q id ↔ Attached m u q id ∧ ¬ (u = t ∧ q = p) := by
  have hframe : (m'.sharedPages id).frame = (m.sharedPages id).frame := by
    rw [hd.sharedPages]
    exact addRefs_frame m i (-1) id
  unfold Attached
  rw [hframe, hd.pagusrTable, Mm.setEntry_table]
  by_cases hc : u = t ∧ q = p
  · rw [if_pos hc, frame?_zero]
    simp [hc]
  · rw [if_neg hc]
    simp [hc]

theorem sysShmrm_mm (i : Int) : (sysShmrm k i).2.sched = k.sched ∧
    (∀ t p id, Attached (sysShmrm k i).2.mm t p id ↔ Attached k.mm t p id) ∧
    ∀ id : Nat, ((sysShmrm k i).2.mm.sharedPages id).toClear = (k.mm.sharedPages id).toClear ∨
      i = id := by
  unfold sysShmrm
  split
  · exact ⟨rfl, fun _ _ _ => Iff.rfl, fun _ => .inl rfl⟩
  · refine ⟨rfl, ?_, ?_⟩
    · intro t p id
      have hframe : ((setShared k.mm i.toNat { k.mm.sharedPages i.toNat with toClear := 1 }).sharedPages
          id).frame = (k.mm.sharedPages id).frame := setShared_frame (by rfl) id
      unfold Attached
      rw [hframe]
      rfl
    · intro id
      by_cases hi : id = i.toNat
      · exact .inr (by omega)
      · exact .inl (by
          change (Function.update k.mm.sharedPages i.toNat _ id).toClear = _
          rw [Function.update_of_ne hi])

theorem shmrm_toClear (hid : id < numSharedPages) (hret : sysShmrm k id = (r, k')) :
    (k'.mm.sharedPages id).toClear = 1 := by
  simp only [numSharedPages] at hid
  rw [sysShmrm, if_neg (by omega)] at hret
  cases hret
  change (Function.update k.mm.sharedPages (id : Int).toNat _ id).toClear = 1
  rw [Int.toNat_natCast, Function.update_self]

/-- It is enough that the page was zero, or that somebody has it in the end. -/
theorem RemovalInv.next (hk' : KernelInv useCow k' ls') (hs' : SharedInv k'.mm [])
    (hram : k'.mm.ram (256 + 2 * id) = k.mm.ram (256 + 2 * id) ∨
      (k'.sched = k.sched ∧ ∃ p, Attached k'.mm k.sched.current p id))
    (hzero : (k'.mm.sharedPages id).toClear = 1 → Unattached k' id →
      ∀ o, k.mm.ram (256 + 2 * id) o = 0) : RemovalInv useCow id k' ls' := by
  refine ⟨hk', hs', ?_⟩
  intro hflag hnone o
  rcases hram with he | ⟨hsched, p, hp⟩
  · rw [he]
    exact hzero hflag hnone o
  · rw [← hsched] at hp
    exact absurd hp (hnone _ hk'.live_current p)

theorem RemovalInv.exec_other (h : RemovalInv useCow id k ls) (hid : id < numSharedPages)
    (ha : heeds id k op r) (hop : ∀ addr, op ≠ .shmdt addr) (hok : exec useCow op k = .ok (r, k')) :
    ∃ ls', RemovalInv useCow id k' ls' := by
  obtain ⟨ls', hk', heff⟩ := exec_effect h.inv ha.1 hok
  have hs' := exec_shared h.inv h.counted List.not_mem_nil ha.1 hok
  have hq := h.inv.queues.rings
  have hq' := hk'.queues.rings
  have hf := h.inv.frames.shared_frame
  refine ⟨ls', .next hk' hs' (exec_ram h.inv ha.1 hok hop hid) ?_⟩
  have hforget : Forgets k id op → ∀ o, k.mm.ram (256 + 2 * id) o = 0 := by
    intro hforget
    rw [← sharedBytes_eq hf hid]
    exact ha.2 hforget
  intro hflag hnone
  cases heff with
  | quiet hroles hmem =>
    rw [hmem.sharedPages] at hflag
    apply h.zero hflag
    intro t ht p hp
    rw [live_iff hq, ← hroles.free] at ht
    exact hnone t ((live_iff hq').mpr ht) p ((attached_congr hmem).mpr hp)
  | attach hp hi =>
    rw [KernelInv.attached, addRefs_toClear] at hflag
    apply h.zero hflag
    intro t ht q hq
    exact hnone t ht q (attached_of_free hp hf hk'.frames.shared_frame hq)
  | detach => exact absurd rfl (hop _)
  | clear i =>
    obtain ⟨hsched, hatt, hclear⟩ := sysShmrm_mm (k := k) i
    have hnone' : Unattached k id := by
      intro t ht p hp
      rw [live_iff hq, ← live_iff hq'] at ht
      exact hnone t ht p ((hatt t p id).mpr hp)
    rcases hclear id with hsame | hi
    · rw [hsame] at hflag
      exact h.zero hflag hnone'
    · exact hforget ⟨hi, hnone'⟩
  | leak hc hfree hcard hl =>
    rw [hl.sharedPages] at hflag
    apply h.zero hflag
    intro t ht p hp
    rw [live_iff hq] at ht
    refine hnone t ((live_iff hq').mpr fun hm => ht ?_) p (hl.attached hp)
    exact ((mem_takeFree hq hfree).mp hm).1
  | create hfree hcur hin hlink =>
    rw [hin.sharedPages] at hflag
    apply h.zero hflag
    intro t ht p hp
    rw [live_iff hq] at ht
    refine hnone t ((live_iff hq').mpr fun hm => ht ?_) p
      ((attached_congr ⟨hin.sharedPages, hin.region⟩).mpr hp)
    exact ((mem_forked_free hq hfree).mp hm).1
  | exit hex =>
    rw [hex.sameShared.sharedPages] at hflag
    have hothers : ∀ t p, Live k t → Attached k.mm t p id → t = k.sched.current := by
      intro t p ht hp
      by_contra htc
      rw [live_iff hq] at ht
      refine hnone t ((live_iff hq').mpr ?_) p ((attached_congr hex.sameShared).mpr hp)
      rw [hex.free, List.mem_append, List.mem_singleton]
      exact fun hm => hm.elim ht htc
    by_cases hcur : ∃ p, Attached k.mm k.sched.current p id
    · exact hforget ⟨hflag, hcur, hothers⟩
    · apply h.zero hflag
      intro t ht p hp
      exact hcur ⟨p, hothers t p ht hp ▸ hp⟩

theorem KernelInv.Detachable.attached (h : KernelInv useCow k ls) (hs : SharedInv k.mm []) {addr i : Nat}
    (ha : addr < totalPages * pageSize) (hd : KernelInv.Detachable k addr i) :
    Attached k.mm k.sched.current (addr / pageSize) i := by
  have hreg := hd.region h ha
  obtain ⟨_, _, hi, hz, hpb⟩ := hd
  have hpres := (hs.mapped _ _ hreg).resolve_left hz
  exact (attached_iff h.frames.shared_frame).mpr ⟨hreg, hi, by rw [frame?_of_present hpres, hpb]⟩

theorem KernelInv.shmdt_ram (h : KernelInv useCow k ls) (hs : SharedInv k.mm []) {addr : Nat}
    (ha : addr < totalPages * pageSize) (hok : sysShmdt k addr = .ok (r, k')) :
    (r < 0 ∧ k' = k) ∨ ∃ i, KernelInv.Detachable k addr i ∧ k'.sched = k.sched ∧
      KernelInv.Detached k.mm k'.mm k.sched.current (addr / pageSize) i ∧
      k'.mm.ram = if (k'.mm.sharedPages i).numRefs = 0 ∧ (k'.mm.sharedPages i).toClear = 1 then
        Function.update k.mm.ram (256 + 2 * i) (fun _ => 0) else k.mm.ram := by
  rcases h.shmdt_eq_ok ha hok with hno | ⟨i, m₁, hd, _, hm₁, rfl⟩
  · exact .inl hno
  · have hst := KernelInv.clearLast_sameTables hm₁
    have hdet : KernelInv.Detached k.mm (m₁.setEntry k.sched.current (addr / pageSize) .zero)
        k.sched.current (addr / pageSize) i := by
      refine ⟨hst.physMem, hst.sharedPages, ?_⟩
      funext u q
      rw [Mm.setEntry_table, Mm.setEntry_table, hst.pagusrTable]
      rfl
    refine .inr ⟨i, hd, rfl, hdet, ?_⟩
    have hreg := hd.region h ha
    have hmap : MappedTo (addRefs k.mm i (-1)) k.sched.current (addr / pageSize) (256 + 2 * i) :=
      ⟨hreg.2, (hs.mapped _ _ hreg).resolve_left hd.2.2.2.1, hd.2.2.2.2⟩
    have haddr : addr = addr / pageSize * pageSize := by
      have := hd.1
      simp only [pageSize] at this ⊢
      omega
    rw [Mm.setEntry_ram, Mm.setEntry_sharedPages, hst.sharedPages]
    unfold KernelInv.clearLast at hm₁
    rw [haddr, zeroOut_page hmap] at hm₁
    split at hm₁
    · rename_i hlast
      cases hm₁
      rw [if_pos hlast]
      rfl
    · rename_i hlast
      cases hm₁
      rw [if_neg hlast]
      rfl

theorem SharedInv.numRefs_zero_iff {m : Mm} (h : SharedInv m []) (hf : SharedFrames m)
    (hid : id < numSharedPages) : (m.sharedPages id).numRefs = 0 ↔ ∀ t p, ¬ Attached m t p id := by
  rw [h.count id hid, Int.natCast_eq_zero, refs_eq_zero]
  constructor
  · intro hnone t p ha
    obtain ⟨hp, _, hmap⟩ := (attached_iff hf).mp ha
    exact hnone (t, p) (mem_regionPlaces.mpr hp) hmap
  · rintro hnone ⟨t, p⟩ hx hmap
    exact hnone t p ((attached_iff hf).mpr ⟨mem_regionPlaces.mp hx, hid, hmap⟩)

theorem RemovalInv.exec_shmdt (h : RemovalInv useCow id k ls) (hid : id < numSharedPages) {addr : Nat}
    (ha : heeds id k (.shmdt addr) r) (hok : exec useCow (.shmdt addr) k = .ok (r, k')) :
    ∃ ls', RemovalInv useCow id k' ls' := by
  have haddr : addr < totalPages * pageSize := (Or.resolve_left ha.1 fun hop => Op.noConfusion hop).2
  obtain ⟨ls', hk', _⟩ := exec_effect h.inv ha.1 hok
  have hs' := exec_shared h.inv h.counted List.not_mem_nil ha.1 hok
  have hf := h.inv.frames.shared_frame
  rcases h.inv.shmdt_ram h.counted haddr hok with ⟨_, rfl⟩ | ⟨i, hd, hsched, hdet, hram⟩
  · exact ⟨ls, h⟩
  · have hatt := hd.attached h.inv h.counted haddr
    have hlive : ∀ t, Live k t ↔ Live k' t := by
      intro t
      unfold Live
      rw [hsched]
    have hclear : (k'.mm.sharedPages id).toClear = (k.mm.sharedPages id).toClear := by
      rw [hdet.sharedPages, addRefs_toClear]
    refine ⟨ls', hk', hs', ?_⟩
    intro hflag hnone
    by_cases hi : i = id
    · subst hi
      have hlast : ∀ t p, Live k t → Attached k.mm t p i → t = k.sched.current ∧ p = addr / pageSize := by
        intro t p ht hp
        by_contra hc
        exact hnone t ((hlive t).mp ht) p (hdet.attached_iff.mpr ⟨hp, hc⟩)
      by_cases hdead : ∃ t p, ¬ Live k t ∧ Attached k.mm t p i
      · have hzero := ha.2 ⟨hclear ▸ hflag, by have := hd.2.1; omega, hd.1, hatt, hlast, hdead⟩
        rw [sharedBytes_eq hf hid] at hzero
        intro o
        rw [hram]
        split
        · rw [Function.update_self]
        · exact hzero o
      · -- nobody is left, dead or alive, so that the counter is 0
        have hrefs : (k'.mm.sharedPages i).numRefs = 0 := by
          apply (hs'.numRefs_zero_iff hk'.frames.shared_frame hid).mpr
          intro t p hp
          by_cases ht : Live k' t
          · exact hnone t ht p hp
          · exact hdead ⟨t, p, fun hl => ht ((hlive t).mp hl), (hdet.attached_iff.mp hp).1⟩
        intro o
        rw [hram, if_pos ⟨hrefs, hflag⟩, Function.update_self]
    · have hkeep : k'.mm.ram (256 + 2 * id) = k.mm.ram (256 + 2 * id) := by
        rw [hram]
        split
        · rw [Function.update_of_ne (by omega)]
        · rfl
      rw [hkeep]
      apply h.zero (hclear ▸ hflag)
      intro t ht p hp
      refine hnone t ((hlive t).mp ht) p (hdet.attached_iff.mpr ⟨hp, ?_⟩)
      rintro ⟨rfl, rfl⟩
      exact hi (hatt.unique hf hp)

theorem RemovalInv.exec (h : RemovalInv useCow id k ls) (hid : id < numSharedPages)
    (ha : heeds id k op r) (hok : exec useCow op k = .ok (r, k')) :
    ∃ ls', RemovalInv useCow id k' ls' := by
  by_cases hop : ∃ addr, op = .shmdt addr
  · obtain ⟨addr, rfl⟩ := hop
    exact h.exec_shmdt hid ha hok
  · exact h.exec_other hid ha (not_exists.mp hop) hok

/-- A step that forgets a page which is not all zeros leaves it to the next process as it is. -/
theorem RemovalInv.forgotten (h : RemovalInv useCow id k ls) (hid : id < numSharedPages)
    (ha : admitted k op r) (hok : Zeos.exec useCow op k = .ok (r, k')) (hforget : Forgets k id op) :
    (k'.mm.sharedPages id).toClear = 1 ∧ Unattached k' id ∧ sharedBytes k'.mm id = sharedBytes k.mm id := by
  obtain ⟨ls', hk', heff⟩ := exec_effect h.inv ha hok
  have hs' := exec_shared h.inv h.counted List.not_mem_nil ha hok
  rw [sharedBytes_eq h.inv.frames.shared_frame hid, sharedBytes_eq hk'.frames.shared_frame hid]
  cases op with
  | shmrm i =>
    obtain ⟨rfl, hnone⟩ := hforget
    have hret : sysShmrm k id = (r, k') := Except.ok.inj hok
    obtain ⟨hsched, hatt, _⟩ := sysShmrm_mm (k := k) id
    rw [hret] at hsched hatt
    refine ⟨?_, ?_, ?_⟩
    · exact shmrm_toClear hid hret
    · rintro t ⟨ls, hls, ht⟩ p hp
      exact hnone t ⟨ls, hsched ▸ hls, ht⟩ p ((hatt t p id).mp hp)
    · have hram := sysShmrm_ram (k := k) id
      rw [hret] at hram
      rw [hram]
  | exit =>
    obtain ⟨hflag, _, hlast⟩ := hforget
    have hawake : Awake k := (Or.resolve_left ha fun hop => Op.noConfusion hop).1
    obtain ⟨_, hexit⟩ := exec_exit_eq_ok hok
    obtain ⟨ls', hex⟩ := h.inv.exit hawake hexit
    refine ⟨by rw [hex.sameShared.sharedPages]; exact hflag, ?_, by rw [hex.released.ram]⟩
    intro t ht p hp
    rw [live_iff hex.inv.queues.rings, hex.free, List.mem_append, List.mem_singleton, not_or] at ht
    exact ht.2 (hlast t p ((live_iff h.inv.queues.rings).mpr ht.1) ((attached_congr hex.sameShared).mp hp))
  | shmdt addr =>
    obtain ⟨hflag, h0, hmod, hatt, hlast, u, q, hu, hq⟩ := hforget
    have haddr : addr < totalPages * pageSize := (Or.resolve_left ha fun hop => Op.noConfusion hop).2
    obtain ⟨hpres, hpb⟩ := frame?_eq_some.mp ((attached_iff h.inv.frames.shared_frame).mp hatt).2.2
    have hd : KernelInv.Detachable k addr id :=
      ⟨hmod, by omega, hid, ne_zero_of_present hpres, hpb⟩
    rcases h.inv.shmdt_ram h.counted haddr hok with ⟨hneg, _⟩ | ⟨i, hd', hsched, hdet, hram⟩
    · rw [Zeos.exec, h.inv.shmdt_detachable haddr hd] at hok
      obtain ⟨m₁, _, hok⟩ := bind_eq_ok.mp hok
      cases hok
      exact absurd hneg (by decide)
    · have hi : i = id := (hd'.attached h.inv h.counted haddr).unique h.inv.frames.shared_frame hatt
      subst hi
      have huc : u ≠ k.sched.current := by
        rintro rfl
        exact hu h.inv.live_current
      -- the entry of the dead process is still counted
      have hrefs : (k'.mm.sharedPages i).numRefs ≠ 0 := by
        intro h0
        apply (hs'.numRefs_zero_iff hk'.frames.shared_frame hid).mp h0 u q
        exact hdet.attached_iff.mpr ⟨hq, fun hc => huc hc.1⟩
      refine ⟨by rw [hdet.sharedPages, addRefs_toClear]; exact hflag, ?_, ?_⟩
      · rintro t ⟨ls, hls, ht⟩ p hp
        obtain ⟨hp, hne⟩ := hdet.attached_iff.mp hp
        exact hne (hlast t p ⟨ls, hsched ▸ hls, ht⟩ hp)
      · rw [hram, if_neg fun hc => hrefs hc.1]
  | _ => exact hforget.elim

theorem exec_toClear (h : KernelInv useCow k ls) (hid : id < numSharedPages) (ha : admitted k op r)
    (hok : exec useCow op k = .ok (r, k')) (hflag : (k.mm.sharedPages id).toClear = 1) :
    (k'.mm.sharedPages id).toClear = 1 := by
  obtain ⟨ls', _, heff⟩ := exec_effect h ha hok
  cases heff with
  | quiet hroles hmem =>
    rw [hmem.sharedPages]
    exact hflag
  | attach hp hi =>
    rw [KernelInv.attached, addRefs_toClear]
    exact hflag
  | detach hp hi hz hf hd =>
    rw [hd.sharedPages, addRefs_toClear]
    exact hflag
  | clear i =>
    rcases (sysShmrm_mm (k := k) i).2.2 id with hsame | rfl
    · rw [hsame]
      exact hflag
    · exact shmrm_toClear hid (Except.ok.inj hok)
  | leak hc hf hcard hl =>
    rw [hl.sharedPages]
    exact hflag
  | create hf hcur hin hlink =>
    rw [hin.sharedPages]
    exact hflag
  | exit hex =>
    rw [hex.sameShared.sharedPages]
    exact hflag

theorem KernelInv.load_mapped (h : KernelInv useCow k ls) {p f o : Nat}
    (hmap : MappedTo k.mm k.sched.current p f) (hu : (k.mm.pagusrTable k.sched.current p).user = true)
    (ho : o < pageSize) : Zeos.exec useCow (.load (p * pageSize + o)) k =
      .ok (((k.mm.ram f ⟨o, ho⟩).toNat : Int), k) := by
  have hpage : (p * pageSize + o) / pageSize = p := by
    simp only [pageSize] at ho ⊢
    omega
  have hmay : userMay k.mm k.sched.current (p * pageSize + o) false = true := by
    simp only [userMay, hpage, hmap.page, hmap.present, hu, decide_true, Bool.and_self, Bool.not_false,
      Bool.true_or]
  change (getPT k.sched k.sched.current >>= _) = _
  rw [h.getPT_current, ok_bind, userLoad, userRetry, if_pos hmay, ok_bind]
  change (loadByte k.mm k.sched.current (p * pageSize + o) >>= _) >>= _ = _
  rw [loadByte, translate_page hmap ho]
  rfl

theorem KernelInv.load_attached (h : KernelInv useCow k ls) (id o : Nat) {p : Nat}
    (hp : p ∈ freeRegion k.mm k.sched.current) (hid : id < numSharedPages) (ho : o < pageSize) :
    Zeos.exec useCow (.load (p * pageSize + o)) ⟨k.sched, KernelInv.attached k.mm k.sched.current p id⟩ =
      .ok (((k.mm.ram (256 + 2 * id) ⟨o, ho⟩).toNat : Int),
        ⟨k.sched, KernelInv.attached k.mm k.sched.current p id⟩) := by
  have hlt : 256 + 2 * id < totalPages := by
    simp only [numSharedPages, totalPages] at hid ⊢
    omega
  have hentry : (KernelInv.attached k.mm k.sched.current p id).pagusrTable k.sched.current p =
      ssEntry (256 + 2 * id) := by
    rw [KernelInv.attached_table, if_pos ⟨rfl, rfl⟩]
  have hmap : MappedTo (KernelInv.attached k.mm k.sched.current p id) k.sched.current p (256 + 2 * id) := by
    obtain ⟨hpres, hpb⟩ := frame?_eq_some.mp (frame?_ssEntry hlt)
    exact ⟨(mem_freeRegion.mp hp).1.2, by rw [hentry, hpres], by rw [hentry, hpb]⟩
  exact (h.attached_inv hp).load_mapped hmap (by rw [hentry]; rfl) ho

end Steps

theorem BootedMm.removalInv {image : Nat → Fin pageSize → UInt8} {m : Mm} (h : BootedMm image m)
    (useCow : Bool) {id : Nat} (hid : id < numSharedPages) :
    RemovalInv useCow id ⟨bootState, m⟩ bootLists := by
  refine ⟨.booted h useCow, .boot h [], ?_⟩
  intro hflag
  have h0 : (m.sharedPages id).toClear = 0 := by rw [h.shared id hid]
  rw [h0] at hflag
  cases hflag

theorem RunFrom.removal {useCow : Bool} {id : Nat} {image : Nat → Fin pageSize → UInt8}
    {tr : List Event} {k : Kernel} (hid : id < numSharedPages)
    (h : RunFrom useCow (heeds id) image tr k) : (∃ ls, RemovalInv useCow id k ls) ∧
      ((∃ e ∈ tr, e.op = .shmrm id) → (k.mm.sharedPages id).toClear = 1) := by
  obtain ⟨k₀, hk₀, hrun⟩ := h
  apply hrun.invariant_trace fun tr k => (∃ ls, RemovalInv useCow id k ls) ∧
    ((∃ e ∈ tr, e.op = .shmrm id) → (k.mm.sharedPages id).toClear = 1)
  · rw [boot_eq] at hk₀
    cases hk₀
    refine ⟨⟨bootLists, (bootMm_spec image).removalInv useCow hid⟩, ?_⟩
    rintro ⟨e, he, _⟩
    cases he
  · rintro tr k e k' ⟨⟨ls, hk⟩, hflag⟩ ⟨_, ha, hok⟩
    refine ⟨hk.exec hid ha hok, ?_⟩
    rintro ⟨e', he', hop⟩
    rcases List.mem_cons.mp he' with rfl | he'
    · rw [hop] at hok
      exact shmrm_toClear hid (Except.ok.inj hok)
    · exact exec_toClear hk.inv hid ha.1 hok (hflag ⟨e', he', hop⟩)

/-- In runs that forget the page `id` only when it is all zeros, a process that
attaches it after it was removed, when nobody has it, reads zeros. A step that
forgets it when it is not leaves those bytes in a removed page that nobody has. -/
theorem removed_page_reads_zero (useCow : Bool) {id : Nat} (hid : id < numSharedPages)
    {image : Nat → Fin pageSize → UInt8} {tr : List Event} {k : Kernel}
    (hrun : RunFrom useCow (heeds id) image tr k) :
    ((∃ e ∈ tr, e.op = .shmrm id) → Unattached k id →
      ∀ addr r k', admitted k (.shmat id addr) r → exec useCow (.shmat id addr) k = .ok (r, k') → 0 ≤ r →
        ∀ o, o < pageSize → exec useCow (.load (r.toNat + o)) k' = .ok (0, k')) ∧
    ∀ op r k', admitted k op r → exec useCow op k = .ok (r, k') → Forgets k id op →
      ¬ (∀ o, sharedBytes k.mm id o = 0) →
        (k'.mm.sharedPages id).toClear = 1 ∧ Unattached k' id ∧ ¬ ∀ o, sharedBytes k'.mm id o = 0 := by
  obtain ⟨⟨ls, hk⟩, hremoved⟩ := hrun.removal hid
  constructor
  · intro hrm hnone addr r k' ha hok hr o ho
    have hzero := hk.zero (hremoved hrm) hnone
    have hawake := Or.resolve_left ha fun hop => Op.noConfusion hop
    rcases hk.inv.shmat_cases hawake.1.1 hawake.2 hok with ⟨hneg, _⟩ | ⟨p, hp, _, _, rfl, rfl⟩
    · exact absurd hr (not_le.mpr hneg)
    · have hload := hk.inv.load_attached id o hp hid ho
      rw [hzero ⟨o, ho⟩] at hload
      exact hload
  · intro op r k' ha hok hforget hbytes
    obtain ⟨hflag, hnone, hsame⟩ := hk.forgotten hid ha hok hforget
    exact ⟨hflag, hnone, by rw [hsame]; exact hbytes⟩

section Written
variable {m : Mm}

/-- Process 1 is alone and has the shared page 1 attached at the bottom of its region. -/
structure AttachedOnce (m : Mm) : Prop where
  inv : KernelInv false ⟨bootState, m⟩ bootLists
  table : ∀ t p, SharedRegion p → m.pagusrTable t p = if t = 8 ∧ p = 284 then ssEntry 258 else .zero
  refs : (m.sharedPages 1).numRefs = 1

theorem BootedMm.attachedOnce {image : Nat → Fin pageSize → UInt8} (h : BootedMm image m) :
    AttachedOnce (KernelInv.attached m 8 284 1) := by
  refine ⟨h.attached_inv false, ?_, ?_⟩
  · intro t p hp
    rw [KernelInv.attached_table, h.region t p hp]
  · change int32 ((m.sharedPages 1).numRefs + 1) = 1
    rw [h.shared 1 (by decide)]
    rfl

theorem setByte_same (m : Mm) (f : Nat) (o : Fin pageSize) (v : UInt8) :
    (setByte m f o v).ram f o = v := by
  simp [setByte]

theorem BootedMm.written_unremoved {image : Nat → Fin pageSize → UInt8} (h : BootedMm image m) (v : UInt8) :
    ((setByte (KernelInv.attached m 8 284 1) 258 0 v).sharedPages 1).toClear = 0 := by
  change ((addRefs m 1 1).sharedPages 1).toClear = 0
  rw [addRefs_toClear, h.shared 1 (by decide)]

namespace AttachedOnce

theorem mapped (h : AttachedOnce m) : MappedTo m 8 284 258 := by
  have hentry : m.pagusrTable 8 284 = ssEntry 258 := h.table 8 284 (by decide)
  exact ⟨by decide, by rw [hentry]; rfl, by rw [hentry]; rfl⟩

theorem attached_iff (h : AttachedOnce m) {t : Slot} {p : Nat} :
    Attached m t p 1 ↔ t = 8 ∧ p = 284 := by
  rw [Zeos.attached_iff h.inv.frames.shared_frame]
  constructor
  · rintro ⟨hp, _, hmap⟩
    by_contra hc
    rw [h.table t p hp, if_neg hc] at hmap
    cases hmap
  · rintro ⟨rfl, rfl⟩
    exact ⟨by decide, by decide, frame?_eq_some.mpr ⟨h.mapped.present, h.mapped.frame⟩⟩

theorem store (h : AttachedOnce m) (v : UInt8) :
    exec false (.store 1163264 v) ⟨bootState, m⟩ = .ok (0, ⟨bootState, setByte m 258 0 v⟩) := by
  have hentry : m.pagusrTable 8 284 = ssEntry 258 := h.table 8 284 (by decide)
  have hmay : userMay m 8 1163264 true = true := by
    simp only [userMay, show 1163264 / pageSize = 284 from rfl, hentry]
    rfl
  have htrans : translate m 8 1163264 = .ok (258, 0) := translate_page h.mapped (k := 0) (by decide)
  change (getPT bootState bootState.current >>= _) = _
  rw [h.inv.getPT_current, ok_bind, bootState_current, userStore, userRetry, if_pos hmay, ok_bind]
  change (storeByte m 8 1163264 v >>= _) >>= _ = _
  rw [storeByte, htrans]
  rfl

theorem stored (h : AttachedOnce m) (v : UInt8) : AttachedOnce (setByte m 258 0 v) :=
  ⟨(h.inv.store (by decide) (h.store v)).1, h.table, h.refs⟩

theorem shmdt (h : AttachedOnce m) :
    ∃ m', exec false (.shmdt 1163264) ⟨bootState, m⟩ = .ok (0, ⟨bootState, m'⟩) ∧
      KernelInv.Detached m m' 8 284 1 ∧ m'.ram 258 = if (m.sharedPages 1).toClear = 1 then fun _ => 0
        else m.ram 258 := by
  have hd : KernelInv.Detachable ⟨bootState, m⟩ 1163264 1 :=
    ⟨by decide, by decide, by decide, ne_zero_of_present h.mapped.present, h.mapped.frame⟩
  have hrefs : ((addRefs m 1 (-1)).sharedPages 1).numRefs = 0 := by
    change int32 ((m.sharedPages 1).numRefs + -1) = 0
    rw [h.refs]
    rfl
  have hmap : MappedTo (addRefs m 1 (-1)) 8 284 258 := ⟨h.mapped.page, h.mapped.present, h.mapped.frame⟩
  have hok := h.inv.shmdt_detachable (by decide) hd
  rw [bootState_current, KernelInv.clearLast, addRefs_toClear] at hok
  by_cases hflag : (m.sharedPages 1).toClear = 1
  · rw [if_pos ⟨hrefs, hflag⟩, show (1163264 : Nat) = 284 * pageSize from rfl, zeroOut_page hmap,
      ok_bind] at hok
    refine ⟨(pageCleared (addRefs m 1 (-1)) 258).setEntry 8 284 .zero, hok, ⟨rfl, rfl, rfl⟩, ?_⟩
    rw [if_pos hflag, Mm.setEntry_ram]
    exact Function.update_self 258 _ m.ram
  · rw [if_neg fun hc => hflag hc.2, ok_bind] at hok
    refine ⟨(addRefs m 1 (-1)).setEntry 8 284 .zero, hok, ⟨rfl, rfl, rfl⟩, ?_⟩
    rw [if_neg hflag, Mm.setEntry_ram]
    rfl

theorem detached (h : AttachedOnce m) {m' : Mm} (hd : KernelInv.Detached m m' 8 284 1) :
    KernelInv false ⟨bootState, m'⟩ bootLists ∧ m'.pagusrTable 8 284 = .zero ∧
      Unattached ⟨bootState, m'⟩ 1 := by
  refine ⟨h.inv.detached_inv (by decide) hd, ?_, ?_⟩
  · rw [hd.pagusrTable, Mm.setEntry_same]
  · intro t _ p hp
    obtain ⟨hp, hne⟩ := hd.attached_iff.mp hp
    exact hne (h.attached_iff.mp hp)

end AttachedOnce

/-- The memory `m` once the shared page 1 has been removed. -/
def removedOne (m : Mm) : Mm := setShared m 1 { m.sharedPages 1 with toClear := 1 }

theorem AttachedOnce.removed (h : AttachedOnce m) : AttachedOnce (removedOne m) :=
  ⟨h.inv.shmrm_inv 1, h.table, h.refs⟩

end Written

/-- Process 1 writes a byte, removes the page and detaches it: it reads 0 there afterwards. -/
theorem removed_page_reads_zero_last : ∃ k k', RunFrom false (heeds 1) (fun _ _ => 0)
    [⟨1, .shmdt 1163264, 0⟩, ⟨1, .shmrm 1, 0⟩, ⟨1, .store 1163264 5, 0⟩, ⟨1, .shmat 1 0, 1163264⟩] k ∧
    Unattached k 1 ∧ exec false (.shmat 1 0) k = .ok (1163264, k') ∧
    exec false (.load 1163264) k' = .ok (0, k') := by
  have hboot := bootMm_spec fun _ _ => 0
  have hone := hboot.attachedOnce
  have hremoved := (hone.stored 5).removed
  obtain ⟨m, hshmdt, hd, _⟩ := hremoved.shmdt
  obtain ⟨hinv, hz, hnone⟩ := hremoved.detached hd
  have hpid : (1 : Int) = bootState.pcb.pid := by decide +kernel
  have haddr : 1163264 < totalPages * pageSize := by decide
  have hnull : 0 < totalPages * pageSize := by decide
  have hallowed : ∀ m op, op.AddrOk → ¬ Forgets ⟨bootState, m⟩ 1 op → heeds 1 ⟨bootState, m⟩ op 0 :=
    fun m op ha hf => ⟨.inr ⟨boot_awake m, ha⟩, fun hc => absurd hc hf⟩
  have hrun : RunFrom false (heeds 1) (fun _ _ => 0)
      [⟨1, .shmdt 1163264, 0⟩, ⟨1, .shmrm 1, 0⟩, ⟨1, .store 1163264 5, 0⟩, ⟨1, .shmat 1 0, 1163264⟩]
      ⟨bootState, m⟩ := by
    refine ⟨_, boot_eq _, .snoc (.snoc (.snoc (.snoc .nil
      ⟨hpid, ⟨.inr ⟨boot_awake _, hnull⟩, fun hc => hc.elim⟩, hboot.shmat false⟩)
      ⟨hpid, hallowed _ _ haddr id, hone.store 5⟩) ⟨hpid, hallowed _ _ trivial ?_, rfl⟩)
      ⟨hpid, hallowed _ _ haddr ?_, hshmdt⟩⟩
    · rintro ⟨_, hnone⟩
      exact hnone 8 (hone.stored 5).inv.live_current 284 ((hone.stored 5).attached_iff.mpr ⟨rfl, rfl⟩)
    · rintro ⟨_, _, _, _, _, t, p, ht, hp⟩
      obtain ⟨rfl, _⟩ := hremoved.attached_iff.mp hp
      exact ht hremoved.inv.live_current
  have hok := shmat_bootState hinv hz
  have hload := (removed_page_reads_zero false (by decide) hrun).1 ⟨⟨1, .shmrm 1, 0⟩, by simp, rfl⟩ hnone 0
    1163264 _ (.inr ⟨boot_awake m, hnull⟩) hok (by decide) 0 (by decide)
  exact ⟨_, _, hrun, hnone, hok, hload⟩

/-- Process 1 writes a byte, detaches the page and removes it: the byte is still there. -/
theorem removed_page_keeps_byte : ∃ k k', RunFrom false admitted (fun _ _ => 0)
    [⟨1, .shmrm 1, 0⟩, ⟨1, .shmdt 1163264, 0⟩, ⟨1, .store 1163264 5, 0⟩, ⟨1, .shmat 1 0, 1163264⟩] k ∧
    Unattached k 1 ∧ exec false (.shmat 1 0) k = .ok (1163264, k') ∧
    exec false (.load 1163264) k' = .ok (5, k') := by
  have hboot := bootMm_spec fun _ _ => 0
  have hone := hboot.attachedOnce
  have hstored := hone.stored 5
  obtain ⟨m, hshmdt, hd, hram⟩ := hstored.shmdt
  obtain ⟨hinv, hz, hnone⟩ := hstored.detached hd
  have hpid : (1 : Int) = bootState.pcb.pid := by decide +kernel
  have haddr : 1163264 < totalPages * pageSize := by decide
  have hnull : 0 < totalPages * pageSize := by decide
  have hallowed : ∀ m op r, op.AddrOk → admitted ⟨bootState, m⟩ op r :=
    fun m op r ha => .inr ⟨boot_awake m, ha⟩
  have hrun : RunFrom false admitted (fun _ _ => 0)
      [⟨1, .shmrm 1, 0⟩, ⟨1, .shmdt 1163264, 0⟩, ⟨1, .store 1163264 5, 0⟩, ⟨1, .shmat 1 0, 1163264⟩]
      ⟨bootState, removedOne m⟩ :=
    ⟨_, boot_eq _, .snoc (.snoc (.snoc (.snoc .nil
      ⟨hpid, hallowed _ _ _ hnull, hboot.shmat false⟩)
      ⟨hpid, hallowed _ _ _ haddr, hone.store 5⟩)
      ⟨hpid, hallowed _ _ _ haddr, hshmdt⟩) ⟨hpid, hallowed _ _ _ trivial, rfl⟩⟩
  have hinv' : KernelInv false ⟨bootState, removedOne m⟩ bootLists := hinv.shmrm_inv 1
  have hload := hinv'.load_attached 1 0 (mem_freeRegion.mpr ⟨by decide, hz⟩) (by decide) (by decide)
  have hbyte : (removedOne m).ram (256 + 2 * 1) ⟨0, by decide⟩ = 5 := by
    change m.ram 258 0 = 5
    rw [hram, hboot.written_unremoved, if_neg (by decide)]
    exact setByte_same _ 258 0 5
  rw [hbyte] at hload
  refine ⟨_, _, hrun, ?_, shmat_bootState hinv' hz, hload⟩
  intro t ht p hp
  exact hnone t ht p (((sysShmrm_mm (k := ⟨bootState, m⟩) 1).2.1 t p 1).mp hp)

end Zeos
