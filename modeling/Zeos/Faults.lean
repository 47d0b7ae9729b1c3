import Zeos.ForkMemory

/-!
# Page faults

`pgf_routine` repairs an access to a present page without `rw`. On a data page it
takes the frame over when nobody else maps it and copies it otherwise; the other
pages that it accepts are code pages, which it makes writable.
-/

namespace Zeos

open Loops Holders
set_option autoImplicit false

/-- What a repaired fault on page `p` of table `t` changes. -/
structure Repaired (useCow : Bool) (m m' : Mm) (t : Slot) (p : Nat) : Prop where
  inv : FrameInv useCow m'
  page : DataPage p ∨ CodePage p
  was : m.pagusrTable t p ≠ .zero ∧ (m.pagusrTable t p).rw = false
  now : m'.pagusrTable t p ≠ .zero ∧ (m'.pagusrTable t p).rw = true
  other : ∀ u q, ¬ (u = t ∧ q = p) → m'.pagusrTable u q = m.pagusrTable u q
  content : ∀ u q, DataPage q → m.pagusrTable u q ≠ .zero → content m' u q = content m u q
  sharedPages : m'.sharedPages = m.sharedPages

section Cow
variable {useCow : Bool} {m m' : Mm} {t : Slot} {p : Nat}

theorem cowCopy_spec (h : FrameInv useCow m) (hp : DataPage p) (hz : m.pagusrTable t p ≠ .zero)
    {q : Nat} (hq : SharedRegion q) (hqz : m.pagusrTable t q = .zero)
    (hget : getUserFreePage m t = (q : Int)) :
    ∃ f, 292 ≤ f ∧ f < totalPages ∧ dataRefs m f = 0 ∧
      cowCopy m t p = .ok (pageCopied ((decFrame (incFrame m f) (m.pagusrTable t p).pbaseAddr).setEntry
        t p (ssEntry f)) (m.pagusrTable t p).pbaseAddr f) ∧
      FrameInv useCow (pageCopied ((decFrame (incFrame m f) (m.pagusrTable t p).pbaseAddr).setEntry
        t p (ssEntry f)) (m.pagusrTable t p).pbaseAddr f) := by
  obtain ⟨f, hf, halloc, hl, h0⟩ := h.alloc
  have hd := (h.data t p hp).resolve_left hz
  have hne : p ≠ q := fun he => (region_disjoint hq).1 (he ▸ hp)
  have hplt : p < totalPages := data_lt hp
  have hfp : (m.pagusrTable t p).pbaseAddr ≠ f := by
    intro he
    exact FrameInv.unmapped_of_dataRefs h0 hp (by rw [frame?_of_present hd.present, he])
  have hflt : f < totalPages := hf.upper
  have hu32 : uint32 ((f : Nat) : Int) = f := uint32_natCast (hflt.trans (by decide))
  have hmod : f % 1048576 = f := Nat.mod_eq_of_lt (hflt.trans (by decide))
  have hsrc : MappedTo ((incFrame m f).setEntry t q (ssEntry f)) t p (m.pagusrTable t p).pbaseAddr := by
    have hsame : ((incFrame m f).setEntry t q (ssEntry f)).pagusrTable t p = m.pagusrTable t p := by
      rw [Mm.setEntry_table, if_neg (fun hc => hne hc.2)]
      rfl
    exact ⟨hplt, by rw [hsame]; exact hd.present, by rw [hsame]⟩
  have hdst : MappedTo ((incFrame m f).setEntry t q (ssEntry f)) t q f :=
    ⟨hq.2, by rw [Mm.setEntry_same]; rfl, by rw [Mm.setEntry_same]; exact hmod⟩
  have hcopy := copyData_page hsrc hdst hfp
  have haddr : p * pageSize % 4294967296 = p * pageSize := by
    simp only [totalPages, pageSize] at hplt ⊢
    omega
  refine ⟨f, hl, hf.upper, h0, ?_, ?_⟩
  · unfold cowCopy
    rw [hget, halloc, if_neg (by omega), if_neg (by simp only [not_lt]; omega)]
    simp only [hu32, haddr, Int.toNat_natCast, setSsPag, writePte_of_lt _ t _ hq.2, ok_bind, hcopy, getFrame,
      readPte_of_lt _ t hplt, pure_eq_ok, writePte_of_lt _ t _ hplt, delSsPag]
    congr 1
    have hold : ((pageCopied ((incFrame m f).setEntry t q (ssEntry f)) (m.pagusrTable t p).pbaseAddr
        f).pagusrTable t p) = m.pagusrTable t p := by
      change (if t = t ∧ p = q then ssEntry f else m.pagusrTable t p) = _
      rw [if_neg (fun hc => hne hc.2)]
    rw [hold]
    refine mm_ext rfl rfl ?_ rfl
    · funext u r
      change (if u = t ∧ r = q then PageTableEntry.zero else if u = t ∧ r = p then ssEntry f
        else if u = t ∧ r = q then ssEntry f else m.pagusrTable u r) =
        if u = t ∧ r = p then ssEntry f else m.pagusrTable u r
      by_cases hr : u = t ∧ r = q
      · obtain ⟨rfl, rfl⟩ := hr
        have : ¬ r = p := fun he => hne he.symm
        simp [this, hqz]
      · simp [hr]
  · exact (h.replaceData hp hz hf hl h0).sameTables (pageCopied_sameTables _ _ _)

theorem cowCopy_repaired (h : FrameInv useCow m) (hp : DataPage p) (hz : m.pagusrTable t p ≠ .zero)
    (hrw : (m.pagusrTable t p).rw = false) (hok : cowCopy m t p = .ok m') :
    Repaired useCow m m' t p := by
  rcases getUserFreePage_cases m t with ⟨q, hq, hqz, hget⟩ | ⟨_, hget⟩
  · obtain ⟨f, hl, hu, h0, hok', hinv⟩ := cowCopy_spec h hp hz hq hqz hget
    rw [hok] at hok'
    cases hok'
    have htab : ∀ u r, (pageCopied ((decFrame (incFrame m f) (m.pagusrTable t p).pbaseAddr).setEntry
        t p (ssEntry f)) (m.pagusrTable t p).pbaseAddr f).pagusrTable u r =
        if u = t ∧ r = p then ssEntry f else m.pagusrTable u r := fun _ _ => rfl
    have hmod : f % 1048576 = f := Nat.mod_eq_of_lt (by simp only [totalPages] at hu; omega)
    refine ⟨hinv, .inl hp, ⟨hz, hrw⟩, ?_, ?_, ?_, rfl⟩
    · rw [htab, if_pos ⟨rfl, rfl⟩]
      exact ⟨ne_zero_of_present rfl, rfl⟩
    · intro u r hne
      rw [htab, if_neg hne]
    · intro u r hr hzr
      have hd := (h.data u r hr).resolve_left hzr
      unfold content
      rw [htab]
      change Function.update m.ram f (m.ram (m.pagusrTable t p).pbaseAddr) _ = _
      by_cases hur : u = t ∧ r = p
      · rw [if_pos hur, hur.1, hur.2]
        change Function.update m.ram f _ (f % 1048576) = _
        rw [hmod, Function.update_self]
      · rw [if_neg hur, Function.update_of_ne]
        intro he
        exact FrameInv.unmapped_of_dataRefs h0 hr (by rw [frame?_of_present hd.present, he])
  · unfold cowCopy at hok
    rw [hget, if_pos (by omega)] at hok
    cases hok

theorem grantRw_repaired (h : FrameInv useCow m) (hp : DataPage p) (hz : m.pagusrTable t p ≠ .zero)
    (hrw : (m.pagusrTable t p).rw = false) (h1 : m.physMem (m.pagusrTable t p).pbaseAddr = 1) :
    Repaired useCow m (m.setEntry t p { m.pagusrTable t p with rw := true }) t p := by
  have hd := (h.data t p hp).resolve_left hz
  have hcount := h.count (m.pagusrTable t p).pbaseAddr (by
    have := hd.lower
    simp only [numPagKernel]
    omega)
  refine ⟨h.grantRw hp (by omega) hz, .inl hp, ⟨hz, hrw⟩, ?_, ?_, ?_, rfl⟩
  · rw [Mm.setEntry_same]
    exact ⟨ne_zero_of_present hd.present, rfl⟩
  · intro u q hne
    rw [Mm.setEntry_table, if_neg hne]
  · intro u q _ _
    unfold content
    rw [Mm.setEntry_table]
    split
    · rename_i hc
      rw [hc.1, hc.2]
      rfl
    · rfl

theorem codeRw_repaired (h : FrameInv useCow m) (hp : CodePage p) (hz : m.pagusrTable t p ≠ .zero)
    (hrw : (m.pagusrTable t p).rw = false) :
    Repaired useCow m (m.setEntry t p { m.pagusrTable t p with rw := true }) t p := by
  obtain ⟨hpr, hus, hpb⟩ := (h.code t p hp).resolve_left hz
  have hnd : ¬ DataPage p := fun hd => data_not_code hd hp
  have hk : ¬ p < numPagKernel := not_lt.mpr (user_page (.inr (.inl hp)))
  refine ⟨h.updateOther hnd (fun _ => .inr ⟨hpr, hus, hpb⟩) (fun hlt => absurd hlt hk)
    (fun hr => absurd hr (not_region_of_code hp)), .inr hp, ⟨hz, hrw⟩, ?_, ?_, ?_, rfl⟩
  · rw [Mm.setEntry_same]
    exact ⟨ne_zero_of_present hpr, rfl⟩
  · intro u q hne
    rw [Mm.setEntry_table, if_neg hne]
  · intro u q hq _
    unfold content
    rw [Mm.setEntry_table, if_neg]
    · rfl
    · rintro ⟨_, rfl⟩
      exact hnd hq

/-- Code frames have exactly one reference, whoever maps them. -/
theorem FrameInv.physMem_code (h : FrameInv useCow m) (hp : CodePage p)
    (hz : m.pagusrTable t p ≠ .zero) : m.physMem (m.pagusrTable t p).pbaseAddr = 1 := by
  obtain ⟨_, _, hpb⟩ := (h.code t p hp).resolve_left hz
  have hfix : FixedFrame (m.pagusrTable t p).pbaseAddr := by
    rw [hpb]
    simp only [CodePage, numPagCode, FixedFrame, numPagKernel] at hp ⊢
    omega
  have h0 : dataRefs m (m.pagusrTable t p).pbaseAddr = 0 := by
    apply refs_eq_zero.mpr
    rintro ⟨u, q⟩ hx hf
    obtain ⟨hd, he⟩ := h.frame?_data (mem_dataPlaces.mp hx) hf
    have := hd.lower
    rw [he] at this
    have := hfix.2.1
    omega
  rw [h.count _ hfix.1, h0, if_pos hfix]

theorem page_cases {p : Nat} (hp : p < totalPages) :
    p < numPagKernel ∨ DataPage p ∨ CodePage p ∨ SharedRegion p := by
  simp only [numPagKernel, DataPage, CodePage, SharedRegion, pagLogInitCode, pagLogInitData,
    userLastPage, userFirstPage, lUserStart, pageSize, numPagData, numPagCode, totalPages] at hp ⊢
  omega

theorem FrameInv.region_of_shared (h : FrameInv useCow m) {id : Nat} (hp : p < totalPages)
    (hid : id < numSharedPages) (hz : m.pagusrTable t p ≠ .zero)
    (hf : (m.pagusrTable t p).pbaseAddr = 256 + 2 * id) : SharedRegion p := by
  simp only [numSharedPages] at hid
  rcases page_cases hp with hk | hd | hc | hr
  · rw [h.kernel t p hk, kernelEntry] at hf
    simp only [numPagKernel] at hk hf
    split at hf
    · have : p = 256 + 2 * id := hf
      omega
    · have : (0 : Nat) = 256 + 2 * id := hf
      omega
  · have := ((h.data t p hd).resolve_left hz).lower
    omega
  · have := ((h.code t p hc).resolve_left hz).2.2
    omega
  · exact hr

/-- The page of a fault that the handler accepts: of code, or of data. -/
theorem pgfRoutine_cases (h : FrameInv useCow m) {addr : Nat} (ha : addr < totalPages * pageSize)
    (hok : pgfRoutine m t addr = .ok m') :
    m.pagusrTable t (addr / pageSize) ≠ .zero ∧ (m.pagusrTable t (addr / pageSize)).rw = false ∧
      ((DataPage (addr / pageSize) ∧ cowCopy m t (addr / pageSize) = .ok m') ∨
        (m' = m.setEntry t (addr / pageSize) { m.pagusrTable t (addr / pageSize) with rw := true } ∧
          (CodePage (addr / pageSize) ∨ (DataPage (addr / pageSize) ∧
            m.physMem (m.pagusrTable t (addr / pageSize)).pbaseAddr = 1)))) := by
  have hlt : addr / pageSize < totalPages := by
    simp only [totalPages, pageSize] at ha ⊢
    omega
  obtain ⟨t', p, hidx, _, hz, hrw, hdone⟩ := pgfRoutine_eq_ok hok
  rw [phPage_of_lt ha] at hdone hidx
  rw [pteIndex_of_lt t hlt] at hidx
  cases hidx
  refine ⟨hz, hrw, ?_⟩
  rcases page_cases hlt with hk | hd | hc | hr
  · -- kernel pages have `rw`
    rw [h.kernel t _ hk, kernelEntry] at hz hrw
    split at hrw
    · cases hrw
    · rename_i hno
      rw [if_neg hno] at hz
      exact absurd rfl hz
  · rcases hdone with ⟨hone, rfl⟩ | ⟨_, hcopy⟩
    · exact .inr ⟨rfl, .inr ⟨hd, hone⟩⟩
    · exact .inl ⟨hd, hcopy⟩
  · rcases hdone with ⟨_, rfl⟩ | ⟨hmany, _⟩
    · exact .inr ⟨rfl, .inl hc⟩
    · exact absurd (h.physMem_code hc hz) hmany
  · rcases h.region t _ hr with h0 | hrw'
    · exact absurd h0 hz
    · rw [hrw] at hrw'
      cases hrw'

theorem pgfRoutine_repaired (h : FrameInv useCow m) {addr : Nat} (ha : addr < totalPages * pageSize)
    (hok : pgfRoutine m t addr = .ok m') : Repaired useCow m m' t (addr / pageSize) := by
  obtain ⟨hz, hrw, ⟨hd, hcopy⟩ | ⟨rfl, hc | ⟨hd, h1⟩⟩⟩ := pgfRoutine_cases h ha hok
  · exact cowCopy_repaired h hd hz hrw hcopy
  · exact codeRw_repaired h hc hz hrw
  · exact grantRw_repaired h hd hz hrw h1

theorem pgfRoutine_ram (h : FrameInv useCow m) {addr : Nat} (ha : addr < totalPages * pageSize)
    (hok : pgfRoutine m t addr = .ok m') {f : Nat} (hf : f < 292) : m'.ram f = m.ram f := by
  obtain ⟨hz, _, ⟨hd, hcopy⟩ | ⟨rfl, _⟩⟩ := pgfRoutine_cases h ha hok
  · rcases getUserFreePage_cases m t with ⟨q, hq, hqz, hget⟩ | ⟨_, hget⟩
    · obtain ⟨g, hg, _, _, hcopy', _⟩ := cowCopy_spec h hd hz hq hqz hget
      rw [hcopy] at hcopy'
      cases hcopy'
      change Function.update m.ram g _ f = m.ram f
      rw [Function.update_of_ne (by omega)]
    · unfold cowCopy at hcopy
      rw [hget, if_pos (by omega)] at hcopy
      cases hcopy
  · rfl

theorem pgfRoutine_completes (h : FrameInv useCow m) {addr : Nat} (hp : DataPage (addr / pageSize))
    (hz : m.pagusrTable t (addr / pageSize) ≠ .zero)
    (hrw : (m.pagusrTable t (addr / pageSize)).rw = false) {q : Nat} (hq : q ∈ freeRegion m t) :
    ∃ m', pgfRoutine m t addr = .ok m' := by
  have hlt : addr / pageSize < totalPages := data_lt hp
  have hpage : phPage addr = addr / pageSize :=
    phPage_of_lt ((Nat.div_lt_iff_lt_mul (by decide)).mp hlt)
  have hcow : (m.pagusrTable t (addr / pageSize) != .zero && !(m.pagusrTable t (addr / pageSize)).rw) =
      true := by
    rw [Bool.and_eq_true, bne_iff_ne, Bool.not_eq_true']
    exact ⟨hz, hrw⟩
  unfold pgfRoutine
  simp only [hpage, isCowPage, readPte_of_lt _ _ hlt, ok_bind, pure_eq_ok, hcow, if_true]
  split
  · exact ⟨_, writePte_of_lt _ _ _ hlt⟩
  · rcases getUserFreePage_cases m t with ⟨r, hr, hrz, hget⟩ | ⟨hnone, _⟩
    · obtain ⟨f, _, _, _, hok, _⟩ := cowCopy_spec h hp hz hr hrz hget
      exact ⟨_, hok⟩
    · rw [mem_freeRegion] at hq
      exact absurd hq.2 (hnone q hq.1)

end Cow

end Zeos
