import Zeos.SharedPages

/-!
# Attaching and detaching a shared page

What one `sys_shmat` does, and whether the next `sys_shmdt` takes it back. The
second is a question about all runs, also those that have left the page tables in
disorder: it needs only that shared pages keep their frames and that the
counters are still `int`s.
-/

namespace Zeos

open Loops KernelInv
set_option autoImplicit false

section Kept
variable {m m' : Mm} {parent child pt : Slot}

theorem writePte_sharedPages {page : Nat} {e : PageTableEntry} (h : writePte m pt page e = .ok m') :
    m'.sharedPages = m.sharedPages := by
  obtain ⟨_, _, h⟩ := bind_eq_ok.mp h
  cases h
  rfl

end Kept

def IsInt (x : Int) : Prop := -2147483648 ≤ x ∧ x < 2147483648

theorem isInt_int32 (x : Int) : IsInt (int32 x) := by
  unfold IsInt int32
  omega

def CountersInt (m : Mm) : Prop := ∀ id, id < numSharedPages → IsInt (m.sharedPages id).numRefs

section Counters
variable {m m' : Mm}

theorem CountersInt.kept (h : CountersInt m) (hs : m'.sharedPages = m.sharedPages) : CountersInt m' := by
  intro id hid
  rw [hs]
  exact h id hid

theorem CountersInt.setShared (h : CountersInt m) {idx : Nat} {p : SharedPage} (hp : IsInt p.numRefs) :
    CountersInt (setShared m idx p) := by
  intro id hid
  change IsInt (Function.update m.sharedPages idx p id).numRefs
  by_cases he : id = idx
  · subst he
    rw [Function.update_self]
    exact hp
  · rw [Function.update_of_ne he]
    exact h id hid

theorem CountersInt.addRefs (h : CountersInt m) (idx : Nat) (d : Int) : CountersInt (addRefs m idx d) :=
  h.setShared (isInt_int32 _)

variable {useCow : Bool} {k k' : Kernel} {r : Int}

theorem CountersInt.shmat (h : CountersInt k.mm) {id : Int} {addr : Nat}
    (hok : sysShmat k id addr = .ok (r, k')) : CountersInt k'.mm := by
  rcases sysShmat_eq_ok hok with ⟨_, rfl⟩ | ⟨pt, page, m, _, _, _, _, hm, _, rfl⟩
  · exact h
  · exact (h.kept (writePte_sharedPages hm)).addRefs _ 1

theorem CountersInt.shmdt (h : CountersInt k.mm) {addr : Nat} (hok : sysShmdt k addr = .ok (r, k')) :
    CountersInt k'.mm := by
  rcases sysShmdt_eq_ok hok with ⟨_, rfl⟩ | ⟨pt, e, m, m', _, _, _, _, hsame, hdel, _, rfl⟩
  · exact h
  · exact ((h.addRefs _ (-1)).kept hsame.tables.sharedPages).kept (writePte_sharedPages hdel)

end Counters

section Undo
variable {k k₁ : Kernel} {id a : Int} {addr : Nat}

section Detach
variable {s : Sched} {m : Mm} {pt : Slot} {p i : Nat}

end Detach

end Undo

/-- Shared page `id` is attached at page `p` of the caller, and nothing else happens. -/
structure Attaches (k : Kernel) (id p : Nat) (k' : Kernel) : Prop where
  page : SharedRegion p
  free : k.mm.pagusrTable k.sched.current p = .zero
  entry : k'.mm.pagusrTable k.sched.current p =
    { present := true, rw := true, user := true, pbaseAddr := (k.mm.sharedPages id).frame.toNat }
  others : ∀ t q, ¬ (t = k.sched.current ∧ q = p) → k'.mm.pagusrTable t q = k.mm.pagusrTable t q
  counter : k'.mm.sharedPages = Function.update k.mm.sharedPages id
    { k.mm.sharedPages id with numRefs := (k.mm.sharedPages id).numRefs + 1 }
  physMem : k'.mm.physMem = k.mm.physMem
  ram : k'.mm.ram = k.mm.ram
  sched : k'.sched = k.sched

def AttachesOrFails (k : Kernel) (id r : Int) (k' : Kernel) : Prop :=
  (r < 0 ∧ k' = k) ∨ ∃ p, r = (p * pageSize : Nat) ∧ Attaches k id.toNat p k'

/-- The call is refused, or the address is in the caller's table, or what lies there
behind the table is a page table entry in use. -/
def StaysInTable (k : Kernel) (id : Int) (addr : Nat) : Prop :=
  (id < 0 ∨ 9 < id) ∨ addr % pageSize ≠ 0 ∨ addr < totalPages * pageSize ∨
    ∃ e, readPte k.mm k.sched.current (addr / pageSize) = .ok e ∧ e ≠ .zero

section Effects
variable {useCow : Bool} {k k' : Kernel} {ls : Queue → List Slot} {id r : Int} {addr : Nat}

/-- In admitted runs the counters are those of the tables, which bounds them. -/
theorem Reachable.sharedInv (h : Reachable useCow admitted k) :
    ∃ ls, KernelInv useCow k ls ∧ SharedInv k.mm [] := by
  apply h.invariant (fun k => ∃ ls, KernelInv useCow k ls ∧ SharedInv k.mm [])
  · intro image k hb
    have hboot := bootMm_spec image
    have hinv := KernelInv.booted hboot useCow
    have hshared := SharedInv.boot hboot []
    rw [boot_eq] at hb
    cases hb
    dsimp only
    exact ⟨bootLists, hinv, hshared⟩
  · rintro k op r k' ⟨ls, hk, hs⟩ ha hok
    obtain ⟨ls', hk', _⟩ := exec_effect hk ha hok
    exact ⟨ls', hk', exec_shared hk hs List.not_mem_nil ha hok⟩

theorem attaches_attached (hk : KernelInv useCow k ls) (hs : SharedInv k.mm []) {i p : Nat}
    (hi : i < numSharedPages) (hp : p ∈ freeRegion k.mm k.sched.current) :
    Attaches k i p ⟨k.sched, attached k.mm k.sched.current p i⟩ := by
  obtain ⟨hreg, hz⟩ := mem_freeRegion.mp hp
  have hlow : 256 + 2 * i < 1048576 := by
    simp only [numSharedPages] at hi
    omega
  have hcount := hs.count i hi
  have hbound := SharedInv.refs_bound k.mm (256 + 2 * i)
  have hframe : (k.mm.sharedPages i).frame.toNat = 256 + 2 * i := by
    rw [hk.frames.shared_frame i hi, Int.toNat_natCast]
  refine ⟨hreg, hz, ?_, ?_, ?_, rfl, rfl, rfl⟩
  · rw [attached_table, if_pos ⟨rfl, rfl⟩, hframe, ssEntry, Nat.mod_eq_of_lt hlow]
  · intro t q hne
    rw [attached_table, if_neg hne]
  · change Function.update k.mm.sharedPages i _ = _
    congr 1
    change ({ k.mm.sharedPages i with numRefs := int32 ((k.mm.sharedPages i).numRefs + 1) } : SharedPage) = _
    rw [int32_of_range (by omega) (by omega)]

theorem shmat_settled (hk : KernelInv useCow k ls) (hs : SharedInv k.mm []) (hid : 0 ≤ id ∧ id ≤ 9)
    {page : Int} (hpage : shmatPage k.mm k.sched.current addr = .ok page)
    (hfree : page < 0 ∨ ∃ p : Nat, page = p ∧ p ∈ freeRegion k.mm k.sched.current) :
    ∃ r k', sysShmat k id addr = .ok (r, k') ∧ AttachesOrFails k id r k' := by
  have hi : id.toNat < numSharedPages := by
    simp only [numSharedPages]
    omega
  have hcall : sysShmat k id addr = (shmatPage k.mm k.sched.current addr >>= fun page =>
      if page < 0 then .ok (page, k)
      else setSsPag k.mm k.sched.current page.toNat (uint32 (k.mm.sharedPages id.toNat).frame) >>= fun m =>
        .ok (page * pageSize, ⟨k.sched, addRefs m id.toNat 1⟩)) := by
    rw [sysShmat, if_neg (by omega), hk.getPT_current, ok_bind]
    rfl
  rw [hcall, hpage, ok_bind]
  by_cases hneg : page < 0
  · rw [if_pos hneg]
    exact ⟨page, k, rfl, .inl ⟨hneg, rfl⟩⟩
  · rw [if_neg hneg]
    obtain ⟨p, rfl, hp⟩ := hfree.resolve_left hneg
    have hlt := (mem_freeRegion.mp hp).1.2
    rw [Int.toNat_natCast, setSsPag, writePte_of_lt _ _ _ hlt, ok_bind,
      SharedFrames.uint32 hk.frames.shared_frame hi]
    exact ⟨_, _, rfl, .inr ⟨p, (Int.natCast_mul p pageSize).symm, attaches_attached hk hs hi hp⟩⟩

theorem shmatPage_total (m : Mm) (pt : Slot) (ha : addr < totalPages * pageSize) :
    ∃ page, shmatPage m pt addr = .ok page := by
  unfold shmatPage
  split
  · exact ⟨_, rfl⟩
  · split
    · exact ⟨_, rfl⟩
    · simp only [isLogicPageFree, readPte_of_lt _ _ (page_of_addr ha), ok_bind, pure_eq_ok]
      split <;> exact ⟨_, rfl⟩

theorem shmatPage_scans {m : Mm} {pt : Slot} {e : PageTableEntry} (h0 : addr ≠ 0)
    (hmod : addr % pageSize = 0) (he : readPte m pt (addr / pageSize) = .ok e) (hz : e ≠ .zero) :
    ∃ page, shmatPage m pt addr = .ok page ∧
      (page < 0 ∨ ∃ p : Nat, page = p ∧ p ∈ freeRegion m pt) := by
  have hused : (e == .zero) = false := by simpa using hz
  refine ⟨if getUserFreePage m pt = -1 then -enomem else getUserFreePage m pt, ?_, ?_⟩
  · rw [shmatPage, if_neg h0, if_neg (not_not.mpr hmod), isLogicPageFree, he]
    simp only [ok_bind, pure_eq_ok, hused]
    rfl
  · rcases freePage_or_enomem m pt rfl with hneg | ⟨p, hp, hr, hz⟩
    · exact .inl hneg
    · exact .inr ⟨p, hp, mem_freeRegion.mpr ⟨hr, hz⟩⟩

/-- A free entry behind the table is taken, whoever it belongs to. -/
theorem shmat_beyond (hk : KernelInv useCow k ls) (hid : 0 ≤ id ∧ id ≤ 9) (hmod : addr % pageSize = 0)
    (hfar : totalPages * pageSize ≤ addr)
    (hfree : ∀ e, readPte k.mm k.sched.current (addr / pageSize) = .ok e → e = .zero)
    (hok : sysShmat k id addr = .ok (r, k')) : ¬ AttachesOrFails k id r k' := by
  have h0 : addr ≠ 0 := by
    simp only [totalPages, pageSize] at hfar
    omega
  have hpage : totalPages ≤ addr / pageSize := (Nat.le_div_iff_mul_le (by decide)).mpr hfar
  rw [sysShmat, if_neg (by omega), hk.getPT_current, ok_bind, shmatPage, if_neg h0,
    if_neg (not_not.mpr hmod)] at hok
  obtain ⟨page, hsettle, hok⟩ := bind_eq_ok.mp hok
  obtain ⟨b, hb, hsettle⟩ := bind_eq_ok.mp hsettle
  obtain ⟨e, he, hb⟩ := bind_eq_ok.mp hb
  cases hb
  rw [hfree e he, beq_self_eq_true, if_pos rfl] at hsettle
  cases hsettle
  rw [if_neg (by omega)] at hok
  obtain ⟨m, _, hok⟩ := bind_eq_ok.mp hok
  cases hok
  rintro (⟨hneg, _⟩ | ⟨p, hp, hat⟩)
  · rw [← Int.natCast_mul] at hneg
    exact absurd hneg (not_lt.mpr (Int.natCast_nonneg _))
  · rw [← Int.natCast_mul] at hp
    have heq : addr / pageSize = p := Nat.eq_of_mul_eq_mul_right (by decide) (Int.ofNat.inj hp)
    have := hat.page.2
    omega

/-- `sys_shmat` attaches one page of the caller's region and changes nothing else,
or fails and changes nothing, exactly if the address stays in the table. -/
theorem shmat_attaches_iff (h : Reachable useCow admitted k) (hu : UserRuns k) (id : Int) (addr : Nat) :
    (∃ r k', sysShmat k id addr = .ok (r, k') ∧ AttachesOrFails k id r k') ↔ StaysInTable k id addr := by
  obtain ⟨ls, hk, hs⟩ := h.sharedInv
  by_cases hbad : id < 0 ∨ 9 < id
  · refine ⟨fun _ => .inl hbad, fun _ => ⟨-enoshr, k, if_pos hbad, .inl ⟨by decide, rfl⟩⟩⟩
  have hid : 0 ≤ id ∧ id ≤ 9 := by omega
  constructor
  · rintro ⟨r, k', hok, heffect⟩
    by_contra hfar
    simp only [StaysInTable, not_or, not_not, not_exists, not_and, not_lt] at hfar
    obtain ⟨_, hmod, hfar, hfree⟩ := hfar
    exact shmat_beyond hk hid hmod hfar hfree hok heffect
  · intro hstays
    by_cases hmod : addr % pageSize = 0
    · by_cases ha : addr < totalPages * pageSize
      · obtain ⟨page, hpage⟩ := shmatPage_total k.mm k.sched.current ha
        exact shmat_settled hk hs hid hpage (hk.shmatPage_cases hu ha hpage)
      · obtain ⟨e, he, hz⟩ := ((hstays.resolve_left hbad).resolve_left (not_not.mpr hmod)).resolve_left ha
        have h0 : addr ≠ 0 := by
          simp only [totalPages, pageSize] at ha
          omega
        obtain ⟨page, hpage, hfree⟩ := shmatPage_scans h0 hmod he hz
        exact shmat_settled hk hs hid hpage hfree
    · have h0 : addr ≠ 0 := by
        rintro rfl
        exact hmod rfl
      have hpage : shmatPage k.mm k.sched.current addr = .ok (-efault) := by
        rw [shmatPage, if_neg h0, if_pos hmod]
      exact shmat_settled hk hs hid hpage (.inl (by decide))

/-- Process 1 attaches shared page 1 wherever there is room. -/
theorem shmat_attaches_iff_null : ∃ k r k', Reachable false admitted k ∧ UserRuns k ∧
    sysShmat k 1 0 = .ok (r, k') ∧ AttachesOrFails k 1 r k' := by
  have hreach : Reachable false admitted ⟨bootState, bootMm fun _ _ => 0⟩ := .boot (boot_eq _)
  have hu := (boot_awake (bootMm fun _ _ => 0)).1
  have hstays : StaysInTable ⟨bootState, bootMm fun _ _ => 0⟩ 1 0 := .inr (.inr (.inl (by decide)))
  obtain ⟨r, k', hok, heffect⟩ := (shmat_attaches_iff hreach hu 1 0).mpr hstays
  exact ⟨_, r, k', hreach, hu, hok, heffect⟩

/-- Process 1 asks for 4 MiB and gets entry 0 of the table of idle, which lies behind its own. -/
theorem BootedMm.shmat_beyond {image : Nat → Fin pageSize → UInt8} {m : Mm} (h : BootedMm image m) :
    ∃ k', sysShmat ⟨bootState, m⟩ 1 4194304 = .ok (4194304, k') ∧
      m.pagusrTable 9 0 = .zero ∧ k'.mm.pagusrTable 9 0 = ssEntry 258 := by
  have hz : m.pagusrTable 9 0 = .zero := (h.inv false).kernel 9 0 (by decide)
  have hpt : getPT bootState bootState.current = .ok 8 := rfl
  have hindex : pteIndex 8 1024 = .ok (9, 0) := by decide
  have hread : readPte m 8 1024 = .ok .zero := by
    rw [readPte, hindex, ← hz]
    rfl
  have hpage : shmatPage m 8 4194304 = .ok 1024 := by
    rw [shmatPage, if_neg (by decide), if_neg (by decide)]
    change (isLogicPageFree m 8 1024 >>= _) = _
    rw [isLogicPageFree, hread]
    rfl
  have hframe := SharedFrames.uint32 (h.inv false).shared_frame (show 1 < numSharedPages by decide)
  refine ⟨⟨bootState, addRefs (m.setEntry 9 0 (ssEntry 258)) 1 1⟩, ?_, hz, ?_⟩
  · rw [sysShmat, if_neg (by decide), hpt, ok_bind, hpage, ok_bind, if_neg (by decide)]
    change (setSsPag m 8 1024 (uint32 (m.sharedPages 1).frame) >>= _) = _
    rw [hframe, setSsPag, writePte, hindex]
    rfl
  · change (m.setEntry 9 0 (ssEntry 258)).pagusrTable 9 0 = _
    exact Mm.setEntry_same ..

theorem AttachesOrFails.other_table (h : AttachesOrFails k id r k') (hr : 0 ≤ r) {t : Slot}
    (ht : t ≠ k.sched.current) (q : Nat) : k'.mm.pagusrTable t q = k.mm.pagusrTable t q := by
  rcases h with ⟨hneg, _⟩ | ⟨p, _, hat⟩
  · exact absurd hr (not_le.mpr hneg)
  · exact hat.others t q fun hc => ht hc.1

theorem shmat_leaves_table : ∃ k r k', Reachable false admitted k ∧ UserRuns k ∧
    sysShmat k 1 4194304 = .ok (r, k') ∧ ¬ AttachesOrFails k 1 r k' := by
  obtain ⟨k', hok, hz, hentry⟩ := (bootMm_spec fun _ _ => 0).shmat_beyond
  refine ⟨_, _, k', .boot (boot_eq _), (boot_awake _).1, hok, ?_⟩
  intro heffect
  have hne : (9 : Slot) ≠ bootState.current := by
    rw [bootState_current]
    decide
  have hsame := heffect.other_table (by decide) hne 0
  dsimp only at hsame
  rw [hentry, hz] at hsame
  exact absurd hsame (ne_zero_of_present rfl)

end Effects

end Zeos
