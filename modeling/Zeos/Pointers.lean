import Zeos.Circular
import Zeos.SharedPages

/-!
# Pointers that `access_ok` lets through

The check looks at the page of the first byte and at the page of the byte behind
the last one. Both are taken after a 32-bit addition, the second bound of the
user pages is inclusive, and a failed write check falls through to the read
check. For exactly which blocks a check of either kind lets through one that is not
mapped, and which blocks in attached pages it refuses.
-/

namespace Zeos

open Loops
set_option autoImplicit false

/-- The pages that every live process has: its data and its code. -/
def LiveTable (m : Mm) (pt : Slot) : Prop :=
  ∀ p, userFirstPage ≤ p → p < userLastPage → m.pagusrTable pt p ≠ .zero

theorem KernelInv.liveTable {useCow : Bool} {k : Kernel} {ls : Queue → List Slot}
    (h : KernelInv useCow k ls) {t : Slot} (ht : Runnable k.sched ls t) : LiveTable k.mm t := by
  intro p hl hu
  apply h.full t ht p
  simp only [DataPage, CodePage, pagLogInitCode, pagLogInitData, userLastPage, userFirstPage] at hl hu ⊢
  omega

def BlockMapped (m : Mm) (pt : Slot) (addr size : Nat) : Prop :=
  ∀ x, addr ≤ x → x < addr + size → userFirstPage ≤ x / pageSize ∧ x / pageSize < totalPages ∧
    m.pagusrTable pt (x / pageSize) ≠ .zero

section Accepted
variable {m : Mm} {pt : Slot} {type : AccessType} {addr size : Nat}

theorem uint32_add_of_lt (h : addr + size < 4294967296) : uint32 (addr + size) = addr + size := by
  unfold uint32
  omega

theorem uint32_add_of_ge (ha : addr < 4294967296) (hs : size < 4294967296)
    (h : 4294967296 ≤ addr + size) : uint32 (addr + size) = addr + size - 4294967296 := by
  unfold uint32
  omega

theorem checkAllocatedFrom_iff {left : Nat} {i : Nat} (h : i + left ≤ totalPages) :
    checkAllocatedFrom m pt i left = .ok true ↔
      ∀ p, i ≤ p → p < i + left → m.pagusrTable pt p ≠ .zero := by
  induction left generalizing i with
  | zero =>
    refine ⟨fun _ p hl hu => ?_, fun _ => rfl⟩
    omega
  | succ left ih =>
    have hread : isLogicPageFree m pt i = .ok (m.pagusrTable pt i == .zero) := by
      simp [isLogicPageFree, readPte_of_lt m pt (show i < totalPages by omega)]
    rw [checkAllocatedFrom, hread, ok_bind]
    by_cases hz : m.pagusrTable pt i = .zero
    · simp only [hz, beq_self_eq_true, if_true, pure_eq_ok, Except.ok.injEq, Bool.false_eq_true,
        false_iff]
      intro hall
      exact hall i (Nat.le_refl i) (by omega) hz
    · rw [if_neg (by simpa using hz), ih (by omega)]
      constructor
      · intro hall p hl hu
        rcases Nat.eq_or_lt_of_le hl with rfl | hlt
        · exact hz
        · exact hall p hlt (by omega)
      · intro hall p hl hu
        exact hall p (by omega) (by omega)

/-- The pages of the first byte and of the byte behind the block, as the code
computes them, in one of the two regions. -/
def Accepted (m : Mm) (pt : Slot) (ini fin : Nat) : Prop :=
  ini ≤ fin ∧ (userFirstPage ≤ ini ∧ fin ≤ userLastPage ∨
    userLastPage ≤ ini ∧ fin < totalPages ∧ ∀ p, ini ≤ p → p ≤ fin → m.pagusrTable pt p ≠ .zero)

theorem checkAllocated_iff {ini fin : Nat} (hle : ini ≤ fin) (hfin : fin < totalPages) :
    checkAllocated m pt ini fin = .ok true ↔ ∀ p, ini ≤ p → p ≤ fin → m.pagusrTable pt p ≠ .zero := by
  rw [checkAllocated, checkAllocatedFrom_iff (by omega)]
  constructor
  · intro hall p hl hu
    exact hall p hl (by omega)
  · intro hall p hl hu
    exact hall p hl (by omega)

/-- Both types of access are granted to the same blocks. -/
theorem accessOk_iff : accessOk m pt type addr size = .ok true ↔
    Accepted m pt (addr / pageSize) (uint32 (addr + size) / pageSize) := by
  generalize hini : addr / pageSize = ini
  generalize hfin : uint32 (addr + size) / pageSize = fin
  unfold accessOk
  rw [hini, hfin]
  dsimp only
  have hcheck : ¬ (userFirstPage ≤ ini ∧ fin ≤ userLastPage) → ini ≤ fin → userLastPage ≤ ini →
      fin < totalPages → (checkAllocated m pt ini fin = .ok true ↔ Accepted m pt ini fin) := by
    intro hno hle hl hu
    rw [checkAllocated_iff hle hu]
    exact ⟨fun hall => ⟨hle, .inr ⟨hl, hu, hall⟩⟩,
      fun hacc => (hacc.2.resolve_left hno).2.2⟩
  -- the tests of the source, in its order
  by_cases hlt : fin < ini
  · rw [if_pos hlt]
    constructor
    · intro h
      cases h
    · intro hacc
      exact absurd hacc.1 (Nat.not_le.mpr hlt)
  rw [if_neg hlt]
  have hle : ini ≤ fin := by omega
  by_cases hw : type = .verifyWrite ∧ userFirstPage + numPagCode ≤ ini ∧ fin ≤ userLastPage
  · rw [if_pos hw]
    exact ⟨fun _ => ⟨hle, .inl ⟨by omega, hw.2.2⟩⟩, fun _ => rfl⟩
  rw [if_neg hw]
  by_cases hws : type = .verifyWrite ∧ userLastPage ≤ ini ∧ fin < totalPages
  · rw [if_pos hws]
    refine hcheck ?_ hle hws.2.1 hws.2.2
    intro hr
    refine hw ⟨hws.1, ?_, hr.2⟩
    have := hws.2.1
    unfold userLastPage at this
    omega
  rw [if_neg hws]
  by_cases hr : userFirstPage ≤ ini ∧ fin ≤ userFirstPage + numPagCode + numPagData
  · rw [if_pos hr]
    exact ⟨fun _ => ⟨hle, .inl hr⟩, fun _ => rfl⟩
  rw [if_neg hr]
  by_cases hrs : userLastPage ≤ ini ∧ fin < totalPages
  · rw [if_pos hrs]
    exact hcheck hr hle hrs.1 hrs.2
  · rw [if_neg hrs]
    constructor
    · intro h
      cases h
    · intro hacc
      rcases hacc.2 with hleft | ⟨hl, hu, _⟩
      · exact absurd hleft hr
      · exact absurd ⟨hl, hu⟩ hrs

end Accepted

/-- A block that ends inside the page behind the user pages, when that is not mapped. -/
def EndsPastUser (m : Mm) (pt : Slot) (addr size : Nat) : Prop :=
  0 < size ∧ userFirstPage * pageSize ≤ addr ∧ userLastPage * pageSize < addr + size ∧
    addr + size < (userLastPage + 1) * pageSize ∧ m.pagusrTable pt userLastPage = .zero

/-- A block so large that its end comes round to the page of its start, when that
page can be accessed. -/
def WrapsRound (m : Mm) (pt : Slot) (addr size : Nat) : Prop :=
  addr / pageSize * pageSize + 4294967296 ≤ addr + size ∧ userFirstPage ≤ addr / pageSize ∧
    (addr / pageSize ≤ userLastPage ∨
      addr / pageSize < totalPages ∧ m.pagusrTable pt (addr / pageSize) ≠ .zero)

section Soundness
variable {m : Mm} {pt : Slot} {addr size : Nat}

theorem EndsPastUser.accepted (h : EndsPastUser m pt addr size) :
    Accepted m pt (addr / pageSize) (uint32 (addr + size) / pageSize) ∧
      ¬ BlockMapped m pt addr size := by
  obtain ⟨hpos, hl, hend, hu, hz⟩ := h
  simp only [userLastPage, userFirstPage, lUserStart, pageSize, numPagCode, numPagData] at hl hend hu
  refine ⟨?_, ?_⟩
  · rw [uint32_add_of_lt (by omega)]
    refine ⟨Nat.div_le_div_right (Nat.le_add_right _ _), .inl ?_⟩
    simp only [userLastPage, userFirstPage, lUserStart, pageSize, numPagCode, numPagData]
    omega
  · intro hall
    have hpage : (addr + size - 1) / pageSize = userLastPage := by
      simp only [userLastPage, userFirstPage, lUserStart, pageSize, numPagCode, numPagData]
      omega
    have hlast := (hall (addr + size - 1) (by omega) (by omega)).2.2
    rw [hpage] at hlast
    exact hlast hz

/-- Past a wrap the end is in the page of the start, or before it. -/
theorem accepted_wrap_iff (ha : addr < 4294967296) (hs : size < 4294967296)
    (hw : 4294967296 ≤ addr + size) :
    Accepted m pt (addr / pageSize) (uint32 (addr + size) / pageSize) ↔ WrapsRound m pt addr size := by
  rw [uint32_add_of_ge ha hs hw]
  have hback : (addr + size - 4294967296) / pageSize ≤ addr / pageSize :=
    Nat.div_le_div_right (by omega)
  have hround : addr / pageSize ≤ (addr + size - 4294967296) / pageSize ↔
      addr / pageSize * pageSize + 4294967296 ≤ addr + size := by
    rw [Nat.le_div_iff_mul_le (by decide)]
    omega
  constructor
  · rintro ⟨hle, hregion⟩
    have heq := Nat.le_antisymm hback hle
    rw [heq] at hregion
    refine ⟨hround.mp hle, ?_⟩
    rcases hregion with ⟨hl, hu⟩ | ⟨hl, hu, hall⟩
    · exact ⟨hl, .inl hu⟩
    · exact ⟨by unfold userLastPage at hl; omega, .inr ⟨hu, hall _ (Nat.le_refl _) (Nat.le_refl _)⟩⟩
  · rintro ⟨hcomes, hl, hregion⟩
    have hle := hround.mpr hcomes
    have heq := Nat.le_antisymm hback hle
    rw [heq]
    refine ⟨Nat.le_refl _, ?_⟩
    by_cases hu : addr / pageSize ≤ userLastPage
    · exact .inl ⟨hl, hu⟩
    · obtain ⟨hlt, hne⟩ := hregion.resolve_left hu
      refine .inr ⟨by omega, hlt, ?_⟩
      intro p hpl hpu
      rw [Nat.le_antisymm hpu hpl]
      exact hne

/-- `access_ok` lets through only mapped bytes of the user, for every table of a
live process, except for blocks of two kinds: those that end in the first page
behind the user pages, and those that wrap round to where they start. -/
theorem accessOk_sound_iff (hlive : LiveTable m pt) (type : AccessType) (ha : addr < 4294967296)
    (hs : size < 4294967296) :
    (accessOk m pt type addr size = .ok true → BlockMapped m pt addr size) ↔
      ¬ EndsPastUser m pt addr size ∧ ¬ WrapsRound m pt addr size := by
  rw [accessOk_iff]
  constructor
  · intro hsound
    constructor
    · intro hpast
      exact hpast.accepted.2 (hsound hpast.accepted.1)
    · intro hround
      have hw : 4294967296 ≤ addr + size := by
        have := hround.1
        omega
      have htop := (hsound ((accepted_wrap_iff ha hs hw).mpr hround)) 4294967295 (by omega) (by omega)
      exact absurd htop.2.1 (by decide)
  · rintro ⟨hpast, hround⟩ hacc x hl hu
    have hnowrap : addr + size < 4294967296 := by
      by_contra hw
      exact hround ((accepted_wrap_iff ha hs (by omega)).mp hacc)
    rw [uint32_add_of_lt hnowrap] at hacc
    have hfirst : addr / pageSize ≤ x / pageSize := Nat.div_le_div_right hl
    have hlast : x / pageSize ≤ (addr + size) / pageSize := Nat.div_le_div_right (Nat.le_of_lt hu)
    rcases hacc.2 with ⟨hini, hfin⟩ | ⟨hini, hfin, hall⟩
    · have hrange : x / pageSize ≤ userLastPage := hlast.trans hfin
      refine ⟨hini.trans hfirst, hrange.trans_lt (by decide), ?_⟩
      rcases Nat.lt_or_eq_of_le hrange with hlt | heq
      · exact hlive _ (hini.trans hfirst) hlt
      · -- the block reaches into the page behind the user pages
        rw [heq]
        intro hz
        refine hpast ⟨by omega, (Nat.le_div_iff_mul_le (by decide)).mp hini, ?_, ?_, hz⟩
        · exact Nat.lt_of_le_of_lt ((Nat.le_div_iff_mul_le (by decide)).mp (Nat.le_of_eq heq.symm)) hu
        · exact (Nat.div_lt_iff_lt_mul (by decide)).mp (Nat.lt_succ_of_le hfin)
    · refine ⟨?_, hlast.trans_lt hfin, hall _ hfirst hlast⟩
      exact (Nat.le_trans (by decide) hini).trans hfirst

theorem BootedMm.liveTable {image : Nat → Fin pageSize → UInt8} (h : BootedMm image m) (useCow : Bool) :
    LiveTable m 8 :=
  (KernelInv.booted h useCow).liveTable (KernelInv.current_runnable (boot_awake m).1)

theorem BootedMm.data_mapped {image : Nat → Fin pageSize → UInt8} (h : BootedMm image m) {x : Nat}
    (hpage : DataPage (x / pageSize)) : ∃ loc, translate m 8 x = .ok loc := by
  have hentry := ((h.inv false).data 8 _ hpage).resolve_left (h.data _ hpage)
  have hrange : x / pageSize < totalPages := Nat.lt_trans hpage.2 (by decide)
  exact ⟨_, if_pos ⟨hrange, hentry.present⟩⟩

/-- Sixteen bytes at the start of the data of process 1. -/
theorem accessOk_sound_iff_boot :
    accessOk (bootMm fun _ _ => 0) 8 .verifyRead 1048576 16 = .ok true ∧
    BlockMapped (bootMm fun _ _ => 0) 8 1048576 16 := by
  have hlive := (bootMm_spec fun _ _ => 0).liveTable false
  have hacc : accessOk (bootMm fun _ _ => 0) 8 .verifyRead 1048576 16 = .ok true := by
    rw [accessOk_iff]
    exact ⟨by decide, .inl (by decide)⟩
  refine ⟨hacc, (accessOk_sound_iff hlive .verifyRead (by decide) (by decide)).mpr ⟨?_, ?_⟩ hacc⟩
  · rintro ⟨_, _, hend, _⟩
    simp only [userLastPage, userFirstPage, lUserStart, pageSize, numPagCode, numPagData] at hend
    omega
  · rintro ⟨hround, _⟩
    omega

/-- Two bytes, the last of the code pages and the first of the page behind them. -/
theorem accessOk_past_user :
    accessOk (bootMm fun _ _ => 0) 8 .verifyRead 1163263 2 = .ok true ∧
    ¬ BlockMapped (bootMm fun _ _ => 0) 8 1163263 2 := by
  have hpast : EndsPastUser (bootMm fun _ _ => 0) 8 1163263 2 := by
    refine ⟨by decide, by decide, by decide, ?_,
      (bootMm_spec fun _ _ => 0).region 8 userLastPage (by decide)⟩
    simp only [userLastPage, userFirstPage, lUserStart, pageSize, numPagCode, numPagData]
    omega
  exact ⟨accessOk_iff.mpr hpast.accepted.1, hpast.accepted.2⟩

end Soundness

section Completeness
variable {m : Mm} {pt : Slot} {addr size : Nat}

def BlockAttached (m : Mm) (pt : Slot) (addr size : Nat) : Prop :=
  ∀ x, addr ≤ x → x < addr + size → SharedRegion (x / pageSize) ∧
    m.pagusrTable pt (x / pageSize) ≠ .zero

theorem BlockAttached.page (h : BlockAttached m pt addr size) {p : Nat} (hl : addr / pageSize ≤ p)
    (hu : p * pageSize < addr + size) (hpos : 0 < size) : m.pagusrTable pt p ≠ .zero := by
  by_cases hfirst : p * pageSize ≤ addr
  · have hp : addr / pageSize = p :=
      Nat.le_antisymm hl ((Nat.le_div_iff_mul_le (by decide)).mpr hfirst)
    rw [← hp]
    exact (h addr (Nat.le_refl _) (by omega)).2
  · have hp : p * pageSize / pageSize = p := Nat.mul_div_cancel _ (by decide)
    have := (h (p * pageSize) (by omega) hu).2
    rwa [hp] at this

/-- A block of attached pages is accepted, whatever else is mapped, unless it ends
with a page: then the next page is asked for too. -/
theorem accessOk_complete_iff (type : AccessType) (hpos : 0 < size)
    (h : BlockAttached m pt addr size) :
    accessOk m pt type addr size = .ok true ↔
      ((addr + size) % pageSize = 0 → (addr + size) / pageSize < totalPages ∧
        m.pagusrTable pt ((addr + size) / pageSize) ≠ .zero) := by
  obtain ⟨hfirst, -⟩ := (h addr (Nat.le_refl _) (by omega)).1
  obtain ⟨-, hlast⟩ := (h (addr + size - 1) (by omega) (by omega)).1
  have hend : addr + size ≤ totalPages * pageSize := by
    have := (Nat.div_lt_iff_lt_mul (by decide)).mp hlast
    omega
  have hle : addr / pageSize ≤ (addr + size) / pageSize := Nat.div_le_div_right (Nat.le_add_right _ _)
  rw [accessOk_iff, uint32_add_of_lt (Nat.lt_of_le_of_lt hend (by decide))]
  constructor
  · rintro ⟨_, hregion⟩ hmod
    have hbehind : (addr + size - 1) / pageSize < (addr + size) / pageSize := by
      simp only [pageSize] at hmod ⊢
      omega
    rcases hregion with ⟨_, hfin⟩ | ⟨_, hfin, hall⟩
    · have hin : addr / pageSize ≤ (addr + size - 1) / pageSize := Nat.div_le_div_right (by omega)
      omega
    · exact ⟨hfin, hall _ hle (Nat.le_refl _)⟩
  · intro hnext
    have hfin : (addr + size) / pageSize < totalPages ∧
        m.pagusrTable pt ((addr + size) / pageSize) ≠ .zero := by
      by_cases hmod : (addr + size) % pageSize = 0
      · exact hnext hmod
      · have hsame : (addr + size) / pageSize * pageSize < addr + size := by
          simp only [pageSize] at hmod ⊢
          omega
        refine ⟨?_, h.page hle hsame hpos⟩
        simp only [pageSize] at hmod hlast ⊢
        omega
    refine ⟨hle, .inr ⟨hfirst, hfin.1, ?_⟩⟩
    intro p hl hu
    rcases Nat.lt_or_eq_of_le hu with hlt | rfl
    · apply h.page hl _ hpos
      have : (p + 1) * pageSize ≤ addr + size := (Nat.le_div_iff_mul_le (by decide)).mp hlt
      simp only [pageSize] at this ⊢
      omega
    · exact hfin.2

theorem reachable_attached : Reachable false admitted
    ⟨bootState, KernelInv.attached (bootMm fun _ _ => 0) 8 284 1⟩ := by
  have haddr : 0 < totalPages * pageSize := by decide
  have hallowed : admitted ⟨bootState, bootMm fun _ _ => 0⟩ (.shmat 1 0) 1163264 :=
    .inr ⟨boot_awake _, haddr⟩
  exact (Reachable.boot (boot_eq fun _ _ => 0)).step hallowed ((bootMm_spec fun _ _ => 0).shmat false)

theorem attached_block {size : Nat} (hsize : size ≤ pageSize) :
    BlockAttached (KernelInv.attached (bootMm fun _ _ => 0) 8 284 1) 8 1163264 size := by
  intro x hl hu
  have hpage : x / pageSize = 284 := by
    simp only [pageSize] at hsize ⊢
    omega
  rw [hpage, KernelInv.attached_table, if_pos ⟨rfl, rfl⟩]
  exact ⟨by decide, ne_zero_of_present rfl⟩

theorem accessOk_complete_iff_half :
    accessOk (KernelInv.attached (bootMm fun _ _ => 0) 8 284 1) 8 .verifyWrite 1163264 2048 =
      .ok true :=
  (accessOk_complete_iff .verifyWrite (by decide) (attached_block (by decide))).mpr fun h =>
    absurd h (by decide)

/-- The whole attached page is refused. -/
theorem attached_page_refused : ∃ k, Reachable false admitted k ∧ k.sched.current = 8 ∧
    BlockAttached k.mm 8 1163264 pageSize ∧
    accessOk k.mm 8 .verifyRead 1163264 pageSize ≠ .ok true := by
  refine ⟨_, reachable_attached, rfl, attached_block (Nat.le_refl _), ?_⟩
  intro hacc
  have hnext := (accessOk_complete_iff .verifyRead (by decide) (attached_block (Nat.le_refl _))).mp hacc
    (by decide)
  have hpage : (1163264 + pageSize) / pageSize = 285 := by decide
  rw [hpage, KernelInv.attached_table, if_neg (by decide)] at hnext
  exact hnext.2 ((bootMm_spec fun _ _ => 0).region 8 285 (by decide))

end Completeness

end Zeos
