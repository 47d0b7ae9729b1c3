import Zeos.Interrupt
import Zeos.Lib.Holders
import Mathlib.Order.Interval.Finset.Nat
import Mathlib.Data.Finset.Prod

/-!
# Frames and their reference counts

Boot hands out the even frames from 256 on: ten to the shared pages, eight to
the code of process 1, and all later ones to data pages. `FrameInv` says that
`phys_mem` counts the data entries that map a frame, and that an entry with `rw`
does not share its frame. It holds with and without `USE_COW`.
-/

namespace Zeos

open Loops Holders
set_option autoImplicit false

/-- The frame that an entry maps. -/
def PageTableEntry.frame? (e : PageTableEntry) : Option Nat :=
  if e.present then some e.pbaseAddr else none

@[simp] theorem frame?_zero : PageTableEntry.zero.frame? = none := rfl

theorem frame?_of_present {e : PageTableEntry} (h : e.present = true) :
    e.frame? = some e.pbaseAddr := by
  simp [PageTableEntry.frame?, h]

theorem frame?_eq_some {e : PageTableEntry} {f : Nat} :
    e.frame? = some f ↔ e.present = true ∧ e.pbaseAddr = f := by
  simp [PageTableEntry.frame?]

theorem ne_zero_of_present {e : PageTableEntry} (h : e.present = true) : e ≠ .zero := by
  rintro rfl
  cases h

def DataPage (p : Nat) : Prop := pagLogInitData ≤ p ∧ p < pagLogInitData + numPagData

def CodePage (p : Nat) : Prop := pagLogInitCode ≤ p ∧ p < pagLogInitCode + numPagCode

instance (p : Nat) : Decidable (DataPage p) := inferInstanceAs (Decidable (_ ∧ _))
instance (p : Nat) : Decidable (CodePage p) := inferInstanceAs (Decidable (_ ∧ _))
instance (p : Nat) : Decidable (SharedRegion p) := inferInstanceAs (Decidable (_ ∧ _))

-- code, data and the region of the shared pages are disjoint, and above the kernel

theorem user_page {p : Nat} (hp : DataPage p ∨ CodePage p ∨ SharedRegion p) : numPagKernel ≤ p := by
  simp only [DataPage, CodePage, SharedRegion, pagLogInitCode, pagLogInitData, userLastPage,
    userFirstPage, lUserStart, pageSize, numPagKernel] at hp ⊢
  omega

theorem data_not_code {p : Nat} (hp : DataPage p) : ¬ CodePage p := by
  simp only [DataPage, CodePage, pagLogInitCode] at hp ⊢
  omega

theorem region_disjoint {p : Nat} (hp : SharedRegion p) : ¬ DataPage p ∧ ¬ CodePage p := by
  simp only [SharedRegion, DataPage, CodePage, userLastPage, userFirstPage, pagLogInitCode,
    pagLogInitData, numPagCode] at hp ⊢
  omega

theorem not_region_of_data {p : Nat} (hp : DataPage p) : ¬ SharedRegion p :=
  fun hreg => (region_disjoint hreg).1 hp

theorem not_region_of_code {p : Nat} (hp : CodePage p) : ¬ SharedRegion p :=
  fun hreg => (region_disjoint hreg).2 hp

/-- The places of all page tables where data frames are mapped. -/
def dataPlaces : Finset (Slot × Nat) :=
  Finset.univ ×ˢ Finset.Ico pagLogInitData (pagLogInitData + numPagData)

theorem mem_dataPlaces {t : Slot} {p : Nat} : (t, p) ∈ dataPlaces ↔ DataPage p := by
  simp [dataPlaces, DataPage]

theorem dataPlaces_card : dataPlaces.card = 200 := by
  simp [dataPlaces, nrTasks, numPagData]

def heldFrame (m : Mm) (x : Slot × Nat) : Option Nat := (m.pagusrTable x.1 x.2).frame?

/-- How many data entries map the frame. -/
def dataRefs (m : Mm) (f : Nat) : Nat := refs dataPlaces (heldFrame m) f

/-- The frames given to shared pages and code at boot, for good. -/
def FixedFrame (f : Nat) : Prop := numPagKernel ≤ f ∧ f < 292 ∧ f % 2 = 0

instance (f : Nat) : Decidable (FixedFrame f) := inferInstanceAs (Decidable (_ ∧ _))

structure DataEntry (useCow : Bool) (e : PageTableEntry) : Prop where
  present : e.present = true
  user : e.user = true
  lower : 292 ≤ e.pbaseAddr
  upper : e.pbaseAddr < totalPages
  eager_rw : useCow = false → e.rw = true

structure FrameInv (useCow : Bool) (m : Mm) : Prop where
  shared_frame : ∀ id, id < numSharedPages → (m.sharedPages id).frame = ((256 + 2 * id : Nat) : Int)
  count : ∀ f, numPagKernel ≤ f → m.physMem f = dataRefs m f + (if FixedFrame f then 1 else 0)
  data : ∀ t p, DataPage p → m.pagusrTable t p = .zero ∨ DataEntry useCow (m.pagusrTable t p)
  owner : ∀ t p u q, DataPage p → DataPage q → (m.pagusrTable t p).rw = true →
    (m.pagusrTable u q).frame? = (m.pagusrTable t p).frame? → u = t ∧ q = p
  code : ∀ t p, CodePage p → m.pagusrTable t p = .zero ∨
    ((m.pagusrTable t p).present = true ∧ (m.pagusrTable t p).user = true ∧
      (m.pagusrTable t p).pbaseAddr = 276 + 2 * (p - pagLogInitCode))
  kernel : ∀ t p, p < numPagKernel → m.pagusrTable t p = kernelEntry p
  region : ∀ t p, SharedRegion p → m.pagusrTable t p = .zero ∨ (m.pagusrTable t p).rw = true

theorem ssEntry_dataEntry (useCow : Bool) {f : Nat} (hl : 292 ≤ f) (hu : f < totalPages) :
    DataEntry useCow (ssEntry f) := by
  have hmod : f % 1048576 = f := Nat.mod_eq_of_lt (by simp only [totalPages] at hu; omega)
  exact ⟨rfl, rfl, by simp [ssEntry, hmod, hl], by simp [ssEntry, hmod, hu], fun _ => rfl⟩

theorem frame?_ssEntry {f : Nat} (hu : f < totalPages) : (ssEntry f).frame? = some f := by
  have hmod : f % 1048576 = f := Nat.mod_eq_of_lt (by simp only [totalPages] at hu; omega)
  simp [ssEntry, PageTableEntry.frame?, hmod]

section Invariant
variable {useCow : Bool} {m m' : Mm}

theorem dataRefs_le (m : Mm) (f : Nat) : dataRefs m f ≤ 200 := by
  rw [← dataPlaces_card]
  exact refs_le_card dataPlaces (heldFrame m) f

theorem dataRefs_congr (h : ∀ t p, DataPage p → m'.pagusrTable t p = m.pagusrTable t p) (f : Nat) :
    dataRefs m' f = dataRefs m f := by
  apply refs_congr
  rintro ⟨t, p⟩ hx
  unfold heldFrame
  rw [h t p (mem_dataPlaces.mp hx)]

theorem dataRefs_setEntry {t : Slot} {p : Nat} {e : PageTableEntry} (hp : DataPage p)
    (ht : m'.pagusrTable = (m.setEntry t p e).pagusrTable) (f : Nat) :
    dataRefs m' f + (if (m.pagusrTable t p).frame? = some f then 1 else 0) =
      dataRefs m f + (if e.frame? = some f then 1 else 0) := by
  have hrest : ∀ x ∈ dataPlaces, x ≠ (t, p) → heldFrame m' x = heldFrame m x := by
    rintro ⟨u, q⟩ _ hne
    unfold heldFrame
    rw [ht, Mm.setEntry_table, if_neg]
    rintro ⟨rfl, rfl⟩
    exact hne rfl
  have h := refs_update (mem_dataPlaces.mpr hp) hrest f
  have hnew : heldFrame m' (t, p) = e.frame? := by
    unfold heldFrame
    rw [ht, Mm.setEntry_same]
  rw [hnew] at h
  exact h

namespace FrameInv

theorem congr (h : FrameInv useCow m) (hp : m'.physMem = m.physMem)
    (hs : ∀ id, (m'.sharedPages id).frame = (m.sharedPages id).frame)
    (ht : m'.pagusrTable = m.pagusrTable) : FrameInv useCow m' where
  shared_frame id hid := by rw [hs, h.shared_frame id hid]
  count f hf := by
    have hd : dataRefs m' f = dataRefs m f := dataRefs_congr (fun t p _ => by rw [ht]) f
    rw [hp, hd]
    exact h.count f hf
  data := by
    rw [ht]
    exact h.data
  owner := by
    rw [ht]
    exact h.owner
  code := by
    rw [ht]
    exact h.code
  kernel := by
    rw [ht]
    exact h.kernel
  region := by
    rw [ht]
    exact h.region

theorem sameTables (h : FrameInv useCow m) (hs : SameTables m m') : FrameInv useCow m' :=
  h.congr hs.physMem (fun id => by rw [hs.sharedPages]) hs.pagusrTable

theorem frame?_data (h : FrameInv useCow m) {t : Slot} {p f : Nat} (hp : DataPage p)
    (hf : (m.pagusrTable t p).frame? = some f) :
    DataEntry useCow (m.pagusrTable t p) ∧ (m.pagusrTable t p).pbaseAddr = f := by
  rcases h.data t p hp with h0 | hd
  · rw [h0] at hf
    cases hf
  · refine ⟨hd, ?_⟩
    rw [frame?_of_present hd.present] at hf
    exact Option.some.inj hf

theorem updateData (h : FrameInv useCow m) {t : Slot} {p : Nat} {e : PageTableEntry}
    (hp : DataPage p) (ht : m'.pagusrTable = (m.setEntry t p e).pagusrTable)
    (hs : m'.sharedPages = m.sharedPages) (he : e = .zero ∨ DataEntry useCow e)
    (hcount : ∀ f, numPagKernel ≤ f →
      m'.physMem f + (if (m.pagusrTable t p).frame? = some f then 1 else 0) =
        m.physMem f + (if e.frame? = some f then 1 else 0))
    (howner : ∀ u q, DataPage q → (u ≠ t ∨ q ≠ p) → (e.rw = true ∨ (m.pagusrTable u q).rw = true) →
      (m.pagusrTable u q).frame? ≠ e.frame?) : FrameInv useCow m' := by
  have hother : ∀ u q, ¬ (u = t ∧ q = p) → m'.pagusrTable u q = m.pagusrTable u q := by
    intro u q hne
    rw [ht, Mm.setEntry_table, if_neg hne]
  have hsame : m'.pagusrTable t p = e := by rw [ht, Mm.setEntry_same]
  have hout : ∀ u q, ¬ DataPage q → m'.pagusrTable u q = m.pagusrTable u q := by
    intro u q hq
    exact hother u q fun hc => hq (hc.2 ▸ hp)
  constructor
  case shared_frame =>
    rw [hs]
    exact h.shared_frame
  case count =>
    intro f hf
    have h₁ := hcount f hf
    have h₂ := dataRefs_setEntry hp ht f
    have h₃ := h.count f hf
    omega
  case data =>
    intro u q hq
    by_cases hc : u = t ∧ q = p
    · rw [hc.1, hc.2, hsame]
      exact he
    · rw [hother u q hc]
      exact h.data u q hq
  case owner =>
    intro u q v r hq hr hrw hf
    by_cases hc : u = t ∧ q = p
    · obtain ⟨rfl, rfl⟩ := hc
      by_cases hd : v = u ∧ r = q
      · exact hd
      · rw [hsame] at hrw hf
        rw [hother v r hd] at hf
        exact absurd hf (howner v r hr (not_and_or.mp hd) (.inl hrw))
    · rw [hother u q hc] at hrw hf
      by_cases hd : v = t ∧ r = p
      · obtain ⟨rfl, rfl⟩ := hd
        rw [hsame] at hf
        exact absurd hf.symm (howner u q hq (not_and_or.mp hc) (.inr hrw))
      · rw [hother v r hd] at hf
        exact h.owner u q v r hq hr hrw hf
  case code =>
    intro u q hq
    rw [hout u q fun hd => data_not_code hd hq]
    exact h.code u q hq
  case kernel =>
    intro u q hq
    rw [hout u q fun hd => absurd hq (not_lt.mpr (user_page (.inl hd)))]
    exact h.kernel u q hq
  case region =>
    intro u q hq
    rw [hout u q (region_disjoint hq).1]
    exact h.region u q hq

theorem updateOther (h : FrameInv useCow m) {t : Slot} {p : Nat} {e : PageTableEntry}
    (hd : ¬ DataPage p)
    (hc : CodePage p → e = .zero ∨ (e.present = true ∧ e.user = true ∧
      e.pbaseAddr = 276 + 2 * (p - pagLogInitCode)))
    (hk : p < numPagKernel → e = kernelEntry p)
    (hr : SharedRegion p → e = .zero ∨ e.rw = true) : FrameInv useCow (m.setEntry t p e) := by
  have hdata : ∀ u q, DataPage q → (m.setEntry t p e).pagusrTable u q = m.pagusrTable u q := by
    intro u q hq
    rw [Mm.setEntry_table, if_neg]
    rintro ⟨_, rfl⟩
    exact hd hq
  constructor
  case shared_frame => exact h.shared_frame
  case count =>
    intro f hf
    rw [dataRefs_congr hdata]
    exact h.count f hf
  case data =>
    intro u q hq
    rw [hdata u q hq]
    exact h.data u q hq
  case owner =>
    intro u q v r hq hr'
    rw [hdata u q hq, hdata v r hr']
    exact h.owner u q v r hq hr'
  case code =>
    intro u q hq
    rw [Mm.setEntry_table]
    split
    · rename_i hup
      exact hup.2 ▸ hc (hup.2 ▸ hq)
    · exact h.code u q hq
  case kernel =>
    intro u q hq
    rw [Mm.setEntry_table]
    split
    · rename_i hup
      exact hup.2 ▸ hk (hup.2 ▸ hq)
    · exact h.kernel u q hq
  case region =>
    intro u q hq
    rw [Mm.setEntry_table]
    split
    · rename_i hup
      exact hr (hup.2 ▸ hq)
    · exact h.region u q hq

/-- The allocator always finds a frame, and one that nothing maps. -/
theorem alloc (h : FrameInv useCow m) :
    ∃ f, FreeFrame m f ∧ allocFrame m = ((f : Int), incFrame m f) ∧ 292 ≤ f ∧ dataRefs m f = 0 := by
  have hzero : ∀ f, FreeFrame m f → 292 ≤ f ∧ dataRefs m f = 0 := by
    intro f hf
    have hc := h.count f hf.lower
    rw [hf.free] at hc
    have hfix : ¬ FixedFrame f := by
      intro hx
      rw [if_pos hx] at hc
      omega
    rw [if_neg hfix] at hc
    refine ⟨?_, by omega⟩
    by_contra hlt
    exact hfix ⟨hf.lower, by omega, hf.even⟩
  rcases allocFrame_cases m with ⟨f, hf, hok⟩ | ⟨hnone, _⟩
  · exact ⟨f, hf, hok, hzero f hf⟩
  · -- more even frames above 292 than data entries
    exfalso
    have hcard : dataPlaces.card < ((Finset.range 366).image fun i => 292 + 2 * i).card := by
      have hinj : Function.Injective fun i : Nat => 292 + 2 * i := by
        intro a b hab
        have : 292 + 2 * a = 292 + 2 * b := hab
        omega
      rw [Finset.card_image_of_injective _ hinj, dataPlaces_card, Finset.card_range]
      decide
    obtain ⟨f, hf, h0⟩ := exists_unheld (h := heldFrame m) hcard
    obtain ⟨i, hi, rfl⟩ := Finset.mem_image.mp hf
    rw [Finset.mem_range] at hi
    have hfix : ¬ FixedFrame (292 + 2 * i) := by
      simp only [FixedFrame]
      omega
    have hc := h.count (292 + 2 * i) (by simp only [numPagKernel]; omega)
    rw [if_neg hfix] at hc
    have h0' : dataRefs m (292 + 2 * i) = 0 := h0
    exact hnone (292 + 2 * i) ⟨by simp only [numPagKernel]; omega, by simp only [totalPages]; omega,
      by omega, by omega⟩

theorem unmapped_of_dataRefs {f : Nat} (h0 : dataRefs m f = 0) {t : Slot} {p : Nat}
    (hp : DataPage p) : (m.pagusrTable t p).frame? ≠ some f :=
  refs_eq_zero.mp h0 (t, p) (mem_dataPlaces.mpr hp)

theorem allocData (h : FrameInv useCow m) {t : Slot} {p f : Nat} (hp : DataPage p)
    (hz : m.pagusrTable t p = .zero) (hf : FreeFrame m f) (hl : 292 ≤ f) (h0 : dataRefs m f = 0) :
    FrameInv useCow ((incFrame m f).setEntry t p (ssEntry f)) := by
  refine h.updateData hp rfl rfl (.inr (ssEntry_dataEntry useCow hl hf.upper)) ?_ ?_
  · intro g _
    rw [hz, frame?_ssEntry hf.upper, frame?_zero]
    change Function.update m.physMem f ((m.physMem f + 1) % 256) g + _ = _
    by_cases hg : g = f
    · subst hg
      simp [hf.free]
    · have : f ≠ g := fun he => hg he.symm
      simp [hg, this]
  · intro u q hq _ _
    rw [frame?_ssEntry hf.upper]
    exact unmapped_of_dataRefs h0 hq

theorem freeData (h : FrameInv useCow m) {t : Slot} {p : Nat} (hp : DataPage p) :
    FrameInv useCow ((freeFrame m (m.pagusrTable t p).pbaseAddr).setEntry t p .zero) := by
  have hset : (freeFrame m (m.pagusrTable t p).pbaseAddr).pagusrTable = m.pagusrTable ∧
      (freeFrame m (m.pagusrTable t p).pbaseAddr).sharedPages = m.sharedPages := by
    unfold freeFrame
    split <;> exact ⟨rfl, rfl⟩
  refine h.updateData (t := t) hp (e := .zero) ?_ hset.2 (.inl rfl) ?_ ?_
  · funext u q
    rw [Mm.setEntry_table, Mm.setEntry_table, hset.1]
  · intro g hg
    change (freeFrame m (m.pagusrTable t p).pbaseAddr).physMem g + _ = _
    rcases h.data t p hp with h0 | hd
    · rw [h0]
      simp [freeFrame, PageTableEntry.zero]
    · have hmap := frame?_of_present hd.present
      have hin : numPagKernel < (m.pagusrTable t p).pbaseAddr ∧
          (m.pagusrTable t p).pbaseAddr < totalPages := by
        have := hd.lower
        exact ⟨by simp only [numPagKernel]; omega, hd.upper⟩
      rw [freeFrame, if_pos hin, hmap, frame?_zero]
      change Function.update m.physMem (m.pagusrTable t p).pbaseAddr _ g + _ = _
      by_cases hgf : g = (m.pagusrTable t p).pbaseAddr
      · subst hgf
        have hpos : 0 < dataRefs m (m.pagusrTable t p).pbaseAddr :=
          refs_pos (i := (t, p)) (mem_dataPlaces.mpr hp) hmap
        have hle := dataRefs_le m (m.pagusrTable t p).pbaseAddr
        have hc := h.count _ hg
        have hfix : ¬ FixedFrame (m.pagusrTable t p).pbaseAddr := by
          have := hd.lower
          simp only [FixedFrame]
          omega
        rw [if_neg hfix] at hc
        simp only [Function.update_self, if_true, reduceCtorEq, if_false]
        omega
      · have : (m.pagusrTable t p).pbaseAddr ≠ g := fun he => hgf he.symm
        simp [hgf, this]
  · intro u q hq hne hrw hf
    rcases hrw with hrw | hrw
    · cases hrw
    · rcases h.data u q hq with h0 | hd
      · rw [h0] at hrw
        cases hrw
      · rw [frame?_of_present hd.present] at hf
        cases hf

theorem grantRw (h : FrameInv useCow m) {t : Slot} {p : Nat} (hp : DataPage p)
    (h1 : dataRefs m (m.pagusrTable t p).pbaseAddr ≤ 1) (hne : m.pagusrTable t p ≠ .zero) :
    FrameInv useCow (m.setEntry t p { m.pagusrTable t p with rw := true }) := by
  have hd := (h.data t p hp).resolve_left hne
  have hframe : ({ m.pagusrTable t p with rw := true } : PageTableEntry).frame? =
      (m.pagusrTable t p).frame? := rfl
  refine h.updateData hp rfl rfl (.inr ⟨hd.present, hd.user, hd.lower, hd.upper, fun _ => rfl⟩) ?_ ?_
  · intro f _
    rw [hframe]
    rfl
  · intro u q hq hne' _ hf
    rw [hframe, frame?_of_present hd.present] at hf
    have := unique_of_refs_le_one h1 (mem_dataPlaces.mpr hq) (mem_dataPlaces.mpr hp) hf
      (frame?_of_present hd.present)
    rw [Prod.mk.injEq] at this
    rcases hne' with hu | hq'
    · exact hu this.1
    · exact hq' this.2

theorem dropRw (h : FrameInv true m) {t : Slot} {p : Nat} (hp : DataPage p)
    (hne : m.pagusrTable t p ≠ .zero) :
    FrameInv true (m.setEntry t p { m.pagusrTable t p with rw := false }) := by
  have hd := (h.data t p hp).resolve_left hne
  have hframe : ({ m.pagusrTable t p with rw := false } : PageTableEntry).frame? =
      (m.pagusrTable t p).frame? := rfl
  refine h.updateData hp rfl rfl
    (.inr ⟨hd.present, hd.user, hd.lower, hd.upper, fun hc => Bool.noConfusion hc⟩) ?_ ?_
  · intro f _
    rw [hframe]
    rfl
  · intro u q hq hne' hrw hf
    rcases hrw with hrw | hrw
    · cases hrw
    · rw [hframe] at hf
      have := h.owner u q t p hq hp hrw hf.symm
      rcases hne' with hu | hq'
      · exact hu this.1.symm
      · exact hq' this.2.symm

theorem shareData (h : FrameInv true m) {t u : Slot} {p : Nat} (hp : DataPage p) (htu : t ≠ u)
    (hne : m.pagusrTable t p ≠ .zero) (hz : m.pagusrTable u p = .zero) :
    FrameInv true (((incFrame m (m.pagusrTable t p).pbaseAddr).setEntry u p
      { m.pagusrTable t p with rw := false }).setEntry t p { m.pagusrTable t p with rw := false }) := by
  have hd := (h.data t p hp).resolve_left hne
  have h' := h.dropRw hp hne
  have hzero : (m.setEntry t p { m.pagusrTable t p with rw := false }).pagusrTable u p = .zero := by
    rw [Mm.setEntry_table, if_neg (fun hc => htu hc.1.symm)]
    exact hz
  refine h'.updateData (t := u) hp (e := { m.pagusrTable t p with rw := false }) ?_ rfl
    (.inr ⟨hd.present, hd.user, hd.lower, hd.upper, fun hc => Bool.noConfusion hc⟩) ?_ ?_
  · funext v q
    simp only [Mm.setEntry_table]
    by_cases hv : v = t ∧ q = p
    · simp [hv.1, hv.2, htu]
    · simp only [hv, if_false]
      rfl
  · intro f hf
    have hframe : ({ m.pagusrTable t p with rw := false } : PageTableEntry).frame? =
        some (m.pagusrTable t p).pbaseAddr := frame?_of_present hd.present
    rw [hzero, frame?_zero, hframe]
    change Function.update m.physMem (m.pagusrTable t p).pbaseAddr _ f + _ = m.physMem f + _
    by_cases hg : f = (m.pagusrTable t p).pbaseAddr
    · subst hg
      have hle := dataRefs_le m (m.pagusrTable t p).pbaseAddr
      have hc := h.count _ hf
      have hfix : ¬ FixedFrame (m.pagusrTable t p).pbaseAddr := by
        have := hd.lower
        simp only [FixedFrame]
        omega
      rw [if_neg hfix] at hc
      simp only [Function.update_self, if_true, reduceCtorEq, if_false]
      omega
    · have : (m.pagusrTable t p).pbaseAddr ≠ f := fun he => hg he.symm
      simp [hg, this]
  · intro v q hq _ hrw hf
    rcases hrw with hrw | hrw
    · cases hrw
    · -- an entry with `rw` is the only one that maps its frame, and that one lost it
      have hmap : ((m.setEntry t p { m.pagusrTable t p with rw := false }).pagusrTable t p).frame? =
          ({ m.pagusrTable t p with rw := false } : PageTableEntry).frame? := by
        rw [Mm.setEntry_same]
      have hown := h'.owner v q t p hq hp hrw (by rw [hmap, hf])
      rw [← hown.1, ← hown.2, Mm.setEntry_same] at hrw
      cases hrw

theorem replaceData (h : FrameInv useCow m) {t : Slot} {p f : Nat} (hp : DataPage p)
    (hne : m.pagusrTable t p ≠ .zero) (hf : FreeFrame m f) (hl : 292 ≤ f) (h0 : dataRefs m f = 0) :
    FrameInv useCow ((decFrame (incFrame m f) (m.pagusrTable t p).pbaseAddr).setEntry t p
      (ssEntry f)) := by
  have hd := (h.data t p hp).resolve_left hne
  have hmap := frame?_of_present hd.present
  refine h.updateData (t := t) hp (e := ssEntry f) rfl rfl
    (.inr (ssEntry_dataEntry useCow hl hf.upper)) ?_ ?_
  · intro g hg
    rw [hmap, frame?_ssEntry hf.upper]
    have hfo : f ≠ (m.pagusrTable t p).pbaseAddr := by
      intro he
      exact unmapped_of_dataRefs h0 hp (by rw [hmap, he])
    change Function.update (Function.update m.physMem f ((m.physMem f + 1) % 256))
      (m.pagusrTable t p).pbaseAddr
      ((Function.update m.physMem f ((m.physMem f + 1) % 256) (m.pagusrTable t p).pbaseAddr + 255) %
        256) g + _ = _
    rw [Function.update_of_ne hfo.symm]
    by_cases hgo : g = (m.pagusrTable t p).pbaseAddr
    · subst hgo
      have hpos : 0 < dataRefs m (m.pagusrTable t p).pbaseAddr :=
        refs_pos (i := (t, p)) (mem_dataPlaces.mpr hp) hmap
      have hle := dataRefs_le m (m.pagusrTable t p).pbaseAddr
      have hc := h.count _ hg
      have hfix : ¬ FixedFrame (m.pagusrTable t p).pbaseAddr := by
        have := hd.lower
        simp only [FixedFrame]
        omega
      rw [if_neg hfix] at hc
      simp only [Function.update_self, if_true, Option.some.injEq, hfo, if_false]
      omega
    · rw [Function.update_of_ne hgo]
      have hgo' : (m.pagusrTable t p).pbaseAddr ≠ g := fun he => hgo he.symm
      by_cases hgf : g = f
      · subst hgf
        simp [hf.free, hgo']
      · have : f ≠ g := fun he => hgf he.symm
        simp [hgf, this, hgo']
  · intro u q hq _ _
    rw [frame?_ssEntry hf.upper]
    exact unmapped_of_dataRefs h0 hq

end FrameInv

end Invariant

/-- Where boot put the shared pages. No step moves them. -/
def SharedFrames (m : Mm) : Prop :=
  ∀ id, id < numSharedPages → (m.sharedPages id).frame = ((256 + 2 * id : Nat) : Int)

section Shared
variable {m : Mm} {f : Nat}

theorem setShared_frame {idx : Nat} {p : SharedPage} (hp : p.frame = (m.sharedPages idx).frame) (i : Nat) :
    ((setShared m idx p).sharedPages i).frame = (m.sharedPages i).frame := by
  change (Function.update m.sharedPages idx p i).frame = _
  by_cases hi : i = idx
  · rw [hi, Function.update_self, hp]
  · rw [Function.update_of_ne hi]

theorem addRefs_frame (m : Mm) (idx : Nat) (d : Int) (i : Nat) :
    ((addRefs m idx d).sharedPages i).frame = (m.sharedPages i).frame :=
  setShared_frame (by rfl) i

theorem SharedFrames.uint32 (h : SharedFrames m) {id : Nat} (hid : id < numSharedPages) :
    Zeos.uint32 (m.sharedPages id).frame = 256 + 2 * id := by
  rw [h id hid]
  unfold Zeos.uint32
  simp only [numSharedPages] at hid
  omega

theorem isFrameShared_unshared (h : SharedFrames m)
    (hf : ∀ id, id < numSharedPages → f ≠ 256 + 2 * id) : isFrameShared m f = 0 := by
  have hnone : (List.range numSharedPages).find? (fun idx => Zeos.uint32 (m.sharedPages idx).frame = f) =
      none := by
    apply List.find?_eq_none.mpr
    intro id hid
    rw [List.mem_range] at hid
    rw [decide_eq_true_eq, h.uint32 hid]
    exact (hf id hid).symm
  rw [isFrameShared, hnone]
  rfl

theorem isFrameShared_shared (h : SharedFrames m) {id : Nat} (hid : id < numSharedPages) :
    isFrameShared m (256 + 2 * id) = id := by
  have hsome : (List.range numSharedPages).find?
      (fun idx => Zeos.uint32 (m.sharedPages idx).frame = 256 + 2 * id) = some id := by
    apply List.find?_range_eq_some.mpr
    refine ⟨?_, List.mem_range.mpr hid, ?_⟩
    · rw [decide_eq_true_eq, h.uint32 hid]
    · intro j hj
      rw [Bool.not_eq_true', decide_eq_false_iff_not, h.uint32 (lt_trans hj hid)]
      omega
  rw [isFrameShared, hsome]
  rfl

/-- A shifted frame number is a multiple of the page size, and never the number
of a shared frame: both lookups of `sys_fork` and `sys_exit` fail. -/
theorem sharedIndex_eq (h : SharedFrames m) (pt : Slot) (pag : Nat) (hp : pag < totalPages) :
    sharedIndex m pt pag = .ok 0 := by
  unfold sharedIndex isLogicPageFree
  simp only [readPte_of_lt m pt hp, ok_bind, pure_eq_ok]
  split
  · rfl
  · rw [isFrameShared_unshared h]
    intro id hid
    unfold shiftedFrame
    simp only [numSharedPages, pageSize] at hid ⊢
    omega

theorem forkShared_eq (h : SharedFrames m) (parent child : Slot) :
    forkShared m parent child = .ok m := by
  apply loop_fixed
  intro i hi
  have hidx := sharedIndex_eq h parent (userLastPage + i) (by
    simp only [totalPages, userLastPage] at hi ⊢
    omega)
  simp only [hidx, ok_bind]
  rfl

theorem exitShared_eq (h : SharedFrames m) (pt : Slot) : exitShared m pt = .ok m := by
  apply loop_fixed
  intro i hi
  have hidx := sharedIndex_eq h pt (userLastPage + i) (by
    simp only [totalPages, userLastPage] at hi ⊢
    omega)
  simp only [hidx, ok_bind]
  rfl

end Shared

section Release
variable {useCow : Bool} {m : Mm}

/-- What `free_user_pages` leaves alone. -/
structure Released (m m' : Mm) (t : Slot) (n : Nat) : Prop where
  zero : ∀ i, i < n → m'.pagusrTable t (pagLogInitData + i) = .zero
  other : ∀ u p, (u ≠ t ∨ ∀ i, i < n → p ≠ pagLogInitData + i) → m'.pagusrTable u p = m.pagusrTable u p
  sharedPages : m'.sharedPages = m.sharedPages
  ram : m'.ram = m.ram

theorem Released.step {m' : Mm} {t : Slot} {n : Nat} (h : Released m m' t n) (f : Nat) :
    Released m ((freeFrame m' f).setEntry t (pagLogInitData + n) .zero) t (n + 1) := by
  have hfree : (freeFrame m' f).pagusrTable = m'.pagusrTable ∧
      (freeFrame m' f).sharedPages = m'.sharedPages ∧ (freeFrame m' f).ram = m'.ram := by
    unfold freeFrame
    split <;> exact ⟨rfl, rfl, rfl⟩
  refine ⟨?_, ?_, ?_, ?_⟩
  · intro j hj
    rw [Mm.setEntry_table]
    by_cases hji : j = n
    · simp [hji]
    · rw [if_neg (by omega), hfree.1]
      exact h.zero j (by omega)
  · intro u p hup
    rw [Mm.setEntry_table, if_neg, hfree.1]
    · apply h.other
      rcases hup with hu | hp
      · exact .inl hu
      · exact .inr fun j hj => hp j (by omega)
    · rintro ⟨rfl, rfl⟩
      rcases hup with hu | hp
      · exact hu rfl
      · exact hp n (by omega) rfl
  · rw [Mm.setEntry_sharedPages, hfree.2.1, h.sharedPages]
  · rw [Mm.setEntry_ram, hfree.2.2, h.ram]

theorem freeUserPages_spec (h : FrameInv useCow m) (t : Slot) :
    FrameInv useCow (freeUserPages m t) ∧ Released m (freeUserPages m t) t numPagData := by
  refine times_preserves (fun i m' => FrameInv useCow m' ∧ Released m m' t i) ?_
    ⟨h, fun i hi => absurd hi (Nat.not_lt_zero i), fun u p _ => rfl, rfl, rfl⟩
  intro i m' hi hm
  exact ⟨hm.1.freeData ⟨by omega, by omega⟩, hm.2.step _⟩

end Release

end Zeos
