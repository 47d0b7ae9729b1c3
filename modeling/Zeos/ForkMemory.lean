import Zeos.Frames

/-!
# Memory of a fork

What `sys_fork` does to page tables, counts and contents. With `USE_COW` parent
and child share the data frames without `rw`; without it every data page of the
parent is copied to a fresh frame through a temporary page of the parent. Both
ways give the child the contents of its parent, which is all that `Inherits` says.
-/

namespace Zeos

open Loops Holders
set_option autoImplicit false

/-- The bytes of a page as its owner sees them. -/
def content (m : Mm) (t : Slot) (p : Nat) : Fin pageSize → UInt8 :=
  m.ram (m.pagusrTable t p).pbaseAddr

structure SameFrames (m m' : Mm) : Prop where
  physMem : m'.physMem = m.physMem
  sharedPages : m'.sharedPages = m.sharedPages
  ram : m'.ram = m.ram

/-- A successful fork of `parent` into `child`. -/
structure Inherits (useCow : Bool) (m m' : Mm) (parent child : Slot) : Prop where
  inv : FrameInv useCow m'
  child_mapped : ∀ p, DataPage p → m'.pagusrTable child p ≠ .zero
  child_content : ∀ p, DataPage p → content m' child p = content m parent p
  child_code : ∀ p, CodePage p → m'.pagusrTable child p = m.pagusrTable parent p
  other_zero : ∀ u p, u ≠ child → DataPage p →
    (m'.pagusrTable u p = .zero ↔ m.pagusrTable u p = .zero)
  other_content : ∀ u p, u ≠ child → DataPage p → m.pagusrTable u p ≠ .zero →
    content m' u p = content m u p
  other_code : ∀ u p, u ≠ child → CodePage p → m'.pagusrTable u p = m.pagusrTable u p
  region : ∀ u p, SharedRegion p → m'.pagusrTable u p = m.pagusrTable u p
  sharedPages : m'.sharedPages = m.sharedPages

section Copy
variable {useCow : Bool} {m : Mm} {parent child : Slot}

structure CopiedEntries (m m' : Mm) (parent child : Slot) (base n : Nat) : Prop
    extends SameFrames m m' where
  copied : ∀ q, base ≤ q → q < base + n → m'.pagusrTable child q = m.pagusrTable parent q
  other : ∀ u q, ¬ (u = child ∧ base ≤ q ∧ q < base + n) → m'.pagusrTable u q = m.pagusrTable u q

theorem copyEntries_copied (m : Mm) (hne : parent ≠ child) (base n : Nat) :
    CopiedEntries m (copyEntries m parent child base n) parent child base n := by
  refine times_preserves (fun i m' => CopiedEntries m m' parent child base i) ?_
    ⟨⟨rfl, rfl, rfl⟩, fun q hq hq' => by omega, fun _ _ _ => rfl⟩
  intro i m' hi hc
  refine ⟨⟨hc.physMem, hc.sharedPages, hc.ram⟩, ?_, ?_⟩
  · intro q hq hq'
    rw [Mm.setEntry_table]
    by_cases hqi : q = base + i
    · rw [if_pos ⟨rfl, hqi⟩, hqi]
      exact hc.other parent _ (fun hc => hne hc.1)
    · rw [if_neg (fun hc => hqi hc.2)]
      exact hc.copied q hq (by omega)
  · intro u q huq
    rw [Mm.setEntry_table, if_neg (fun hc => huq ⟨hc.1, by omega, by omega⟩)]
    exact hc.other u q (fun hc => huq ⟨hc.1, hc.2.1, by omega⟩)

theorem copyEntries_spec (h : FrameInv useCow m) (hne : parent ≠ child) (base n : Nat)
    (hd : ∀ i, i < n → ¬ DataPage (base + i)) :
    FrameInv useCow (copyEntries m parent child base n) ∧
      CopiedEntries m (copyEntries m parent child base n) parent child base n := by
  refine ⟨times_preserves (fun _ => FrameInv useCow) ?_ h, copyEntries_copied m hne base n⟩
  intro i m' hi hinv
  apply hinv.updateOther (hd i hi)
  · exact fun hp => hinv.code parent _ hp
  · exact fun hp => hinv.kernel parent _ hp
  · exact fun hp => hinv.region parent _ hp

/-- The entries of the kernel and of the code, before the data pages. -/
def forkBase (m : Mm) (parent child : Slot) : Mm :=
  copyEntries (copyEntries m parent child 0 numPagKernel) parent child pagLogInitCode numPagCode

structure Based (m m' : Mm) (parent child : Slot) : Prop extends SameFrames m m' where
  code : ∀ p, CodePage p → m'.pagusrTable child p = m.pagusrTable parent p
  other : ∀ u p, (u ≠ child ∨ ¬ CodePage p) → m'.pagusrTable u p = m.pagusrTable u p

theorem Based.data {m' : Mm} (h : Based m m' parent child) (u : Slot) {p : Nat} (hp : DataPage p) :
    m'.pagusrTable u p = m.pagusrTable u p :=
  h.other u p (.inr (data_not_code hp))

theorem forkBase_spec (h : FrameInv useCow m) (hne : parent ≠ child) :
    FrameInv useCow (forkBase m parent child) ∧ Based m (forkBase m parent child) parent child := by
  obtain ⟨h₁, hc₁⟩ := copyEntries_spec h hne 0 numPagKernel (by
    intro i hi
    simp only [DataPage, numPagKernel, pagLogInitData, lUserStart, pageSize] at hi ⊢
    omega)
  obtain ⟨h₂, hc₂⟩ := copyEntries_spec h₁ hne pagLogInitCode numPagCode (by
    intro i hi
    simp only [DataPage, pagLogInitCode] at hi ⊢
    omega)
  refine ⟨h₂, ⟨hc₂.physMem.trans hc₁.physMem, hc₂.sharedPages.trans hc₁.sharedPages,
    hc₂.ram.trans hc₁.ram⟩, ?_, ?_⟩
  · intro p hp
    rw [forkBase, hc₂.copied p hp.1 hp.2, hc₁.other parent p (fun hc => hne hc.1)]
  · intro u p hup
    have hcode : ¬ (u = child ∧ pagLogInitCode ≤ p ∧ p < pagLogInitCode + numPagCode) :=
      fun hc => hup.elim (fun hu => hu hc.1) (fun hp => hp hc.2)
    rw [forkBase, hc₂.other u p hcode]
    by_cases hk : u = child ∧ 0 ≤ p ∧ p < 0 + numPagKernel
    · -- the kernel entries of all tables are the same
      rw [h₁.kernel u p (by omega), h.kernel u p (by omega)]
    · exact hc₁.other u p hk

end Copy

section Cow
variable {m : Mm} {parent child : Slot}

/-- Parent and child after the first `n` pages were shared. -/
structure SharedData (m m' : Mm) (parent child : Slot) (n : Nat) : Prop where
  ofChild : ∀ i, i < n → m'.pagusrTable child (pagLogInitData + i) =
    { m.pagusrTable parent (pagLogInitData + i) with rw := false }
  ofParent : ∀ i, i < n → m'.pagusrTable parent (pagLogInitData + i) =
    { m.pagusrTable parent (pagLogInitData + i) with rw := false }
  other : ∀ u q, (u ≠ child ∧ u ≠ parent ∨ ∀ i, i < n → q ≠ pagLogInitData + i) →
    m'.pagusrTable u q = m.pagusrTable u q
  sharedPages : m'.sharedPages = m.sharedPages
  ram : m'.ram = m.ram

theorem cowData_round (m : Mm) (hne : parent ≠ child) (p : Nat) :
    (let m₁ := m.setEntry child p (m.pagusrTable parent p)
     let m₂ := incFrame m₁ (m₁.pagusrTable child p).pbaseAddr
     let m₃ := m₂.setEntry child p { m₂.pagusrTable child p with rw := false }
     m₃.setEntry parent p { m₃.pagusrTable parent p with rw := false }) =
    ((incFrame m (m.pagusrTable parent p).pbaseAddr).setEntry child p
      { m.pagusrTable parent p with rw := false }).setEntry parent p
        { m.pagusrTable parent p with rw := false } := by
  simp only [Mm.setEntry, incFrame, and_self, if_true, hne, false_and, if_false]
  congr 1
  funext u q
  by_cases hu : u = child ∧ q = p
  · simp [hu.1, hu.2]
  · simp [hu]

theorem cowData_spec (h : FrameInv true m) (hne : parent ≠ child)
    (hfull : ∀ p, DataPage p → m.pagusrTable parent p ≠ .zero)
    (hempty : ∀ p, DataPage p → m.pagusrTable child p = .zero) :
    FrameInv true (cowData m parent child) ∧
      SharedData m (cowData m parent child) parent child numPagData := by
  refine times_preserves (fun i m' => FrameInv true m' ∧ SharedData m m' parent child i) ?_
    ⟨h, fun i hi => absurd hi (Nat.not_lt_zero i), fun i hi => absurd hi (Nat.not_lt_zero i),
      fun _ _ _ => rfl, rfl, rfl⟩
  rintro i m' hi ⟨hinv, hs⟩
  have hp : DataPage (pagLogInitData + i) := ⟨by omega, by simp only [numPagData] at hi ⊢; omega⟩
  have hpar : m'.pagusrTable parent (pagLogInitData + i) = m.pagusrTable parent (pagLogInitData + i) :=
    hs.other _ _ (.inr fun j hj => by omega)
  have hchi : m'.pagusrTable child (pagLogInitData + i) = .zero := by
    rw [hs.other _ _ (.inr fun j hj => by omega)]
    exact hempty _ hp
  have hround := cowData_round m' hne (pagLogInitData + i)
  dsimp only at hround ⊢
  rw [hround]
  refine ⟨hinv.shareData hp hne (by rw [hpar]; exact hfull _ hp) hchi, ?_, ?_, ?_, ?_, ?_⟩
  · intro j hj
    rw [Mm.setEntry_table, if_neg (fun hc => hne hc.1.symm), Mm.setEntry_table]
    by_cases hji : j = i
    · rw [if_pos ⟨rfl, by rw [hji]⟩, hpar, hji]
    · rw [if_neg (by omega)]
      exact hs.ofChild j (by omega)
  · intro j hj
    rw [Mm.setEntry_table]
    by_cases hji : j = i
    · rw [if_pos ⟨rfl, by rw [hji]⟩, hpar, hji]
    · rw [if_neg (by omega), Mm.setEntry_table, if_neg (fun hc => hne hc.1)]
      exact hs.ofParent j (by omega)
  · intro u q huq
    have hno : ¬ (u = parent ∧ q = pagLogInitData + i) ∧ ¬ (u = child ∧ q = pagLogInitData + i) := by
      rcases huq with hu | hq
      · exact ⟨fun hc => hu.2 hc.1, fun hc => hu.1 hc.1⟩
      · exact ⟨fun hc => hq i (by omega) hc.2, fun hc => hq i (by omega) hc.2⟩
    rw [Mm.setEntry_table, if_neg hno.1, Mm.setEntry_table, if_neg hno.2]
    exact hs.other u q (huq.imp_right fun hq j hj => hq j (by omega))
  · exact hs.sharedPages
  · exact hs.ram

theorem dataPage_index {p : Nat} (hp : DataPage p) :
    p - pagLogInitData < numPagData ∧ pagLogInitData + (p - pagLogInitData) = p := by
  simp only [DataPage] at hp
  omega

theorem cow_inherits (h : FrameInv true m) (hne : parent ≠ child)
    (hfull : ∀ p, DataPage p → m.pagusrTable parent p ≠ .zero)
    (hempty : ∀ p, DataPage p → m.pagusrTable child p = .zero) :
    forkMemory true m parent child = .ok (cowData (forkBase m parent child) parent child, true) ∧
      Inherits true m (cowData (forkBase m parent child) parent child) parent child := by
  obtain ⟨h₁, hb⟩ := forkBase_spec h hne
  obtain ⟨h₂, hs⟩ := cowData_spec h₁ hne (fun p hp => by rw [hb.data _ hp]; exact hfull p hp)
    (fun p hp => by rw [hb.data _ hp]; exact hempty p hp)
  have hshared : ∀ u p, DataPage p → (u = child ∨ u = parent) →
      (cowData (forkBase m parent child) parent child).pagusrTable u p =
        { m.pagusrTable parent p with rw := false } := by
    intro u p hp hu
    obtain ⟨hi, he⟩ := dataPage_index hp
    rw [← hb.data parent hp]
    rcases hu with rfl | rfl
    · have := hs.ofChild _ hi
      rwa [he] at this
    · have := hs.ofParent _ hi
      rwa [he] at this
  have hout : ∀ u p, DataPage p → u ≠ child → u ≠ parent →
      (cowData (forkBase m parent child) parent child).pagusrTable u p = m.pagusrTable u p := by
    intro u p hp hc hpa
    rw [hs.other u p (.inl ⟨hc, hpa⟩), hb.data u hp]
  have hnd : ∀ u p, ¬ DataPage p → (cowData (forkBase m parent child) parent child).pagusrTable u p =
      (forkBase m parent child).pagusrTable u p := by
    intro u p hp
    apply hs.other
    refine .inr fun i hi he => hp ?_
    simp only [DataPage]
    omega
  have hpresent : ∀ p, DataPage p → (m.pagusrTable parent p).present = true :=
    fun p hp => ((h.data parent p hp).resolve_left (hfull p hp)).present
  have hram : (cowData (forkBase m parent child) parent child).ram = m.ram := hs.ram.trans hb.ram
  refine ⟨?_, h₂, ?_, ?_, ?_, ?_, ?_, ?_, ?_, hs.sharedPages.trans hb.sharedPages⟩
  · change (forkShared (cowData (forkBase m parent child) parent child) parent child >>= fun m =>
      pure (m, true)) = _
    rw [forkShared_eq h₂.shared_frame]
    rfl
  · intro p hp hz
    rw [hshared child p hp (.inl rfl)] at hz
    exact absurd hz (ne_zero_of_present (hpresent p hp))
  · intro p hp
    unfold content
    rw [hshared child p hp (.inl rfl), hram]
  · intro p hp
    rw [hnd child p (fun hd => data_not_code hd hp)]
    exact hb.code p hp
  · intro u p hu hp
    by_cases hpa : u = parent
    · subst hpa
      rw [hshared u p hp (.inr rfl)]
      constructor
      · intro hz
        exact absurd hz (ne_zero_of_present (hpresent p hp))
      · exact fun hz => absurd hz (hfull p hp)
    · rw [hout u p hp hu hpa]
  · intro u p hu hp _
    unfold content
    rw [hram]
    by_cases hpa : u = parent
    · subst hpa
      rw [hshared u p hp (.inr rfl)]
    · rw [hout u p hp hu hpa]
  · intro u p hu hp
    rw [hnd u p (fun hd => data_not_code hd hp)]
    exact hb.other u p (.inl hu)
  · intro u p hp
    rw [hnd u p (region_disjoint hp).1]
    exact hb.other u p (.inr (region_disjoint hp).2)

end Cow

section Eager
variable {m m₀ : Mm} {parent child : Slot} {n : Nat} {pages : Nat → Nat}

/-- The free pages of the region in which `get_user_free_page` looks. -/
def freeRegion (m : Mm) (pt : Slot) : Finset Nat :=
  (Finset.Ico userLastPage totalPages).filter fun p => m.pagusrTable pt p = .zero

theorem mem_freeRegion {pt : Slot} {p : Nat} :
    p ∈ freeRegion m pt ↔ SharedRegion p ∧ m.pagusrTable pt p = .zero := by
  simp [freeRegion, SharedRegion]

theorem update_injOn {g : Nat → Nat} {x : Nat}
    (h : ∀ i j, i < n → j < n → g i = g j → i = j) (hx : ∀ i, i < n → x ≠ g i) (i j : Nat)
    (hi : i < n + 1) (hj : j < n + 1) (he : Function.update g n x i = Function.update g n x j) :
    i = j := by
  by_cases hin : i = n
  · by_cases hjn : j = n
    · rw [hin, hjn]
    · rw [hin, Function.update_self, Function.update_of_ne hjn] at he
      exact absurd he (hx j (by omega))
  · by_cases hjn : j = n
    · rw [hjn, Function.update_self, Function.update_of_ne hin] at he
      exact absurd he.symm (hx i (by omega))
    · rw [Function.update_of_ne hin, Function.update_of_ne hjn] at he
      exact h i j (by omega) (by omega) he

theorem forall_update {g : Nat → Nat} {x : Nat} {P : Nat → Nat → Prop} (h : ∀ i, i < n → P i (g i))
    (hx : P n x) (i : Nat) (hi : i < n + 1) : P i (Function.update g n x i) := by
  by_cases hin : i = n
  · rw [hin, Function.update_self]
    exact hx
  · rw [Function.update_of_ne hin]
    exact h i (by omega)

theorem ne_of_ne_update {g : Nat → Nat} {x y : Nat} (h : ∀ i, i < n + 1 → y ≠ Function.update g n x i) :
    y ≠ x ∧ ∀ i, i < n → y ≠ g i := by
  constructor
  · have := h n (by omega)
    rwa [Function.update_self] at this
  · intro i hi
    have := h i (by omega)
    rwa [Function.update_of_ne (by omega)] at this

/-- The first `n` rounds of the reserving loop: child page `i` and page `pages i`
of the parent map the same fresh frame. -/
structure Reserved (m₀ m : Mm) (parent child : Slot) (n : Nat) (pages : Nat → Nat) : Prop where
  inv : FrameInv false m
  child_empty : ∀ p, DataPage p → m₀.pagusrTable child p = .zero
  sharedPages : m.sharedPages = m₀.sharedPages
  ram : m.ram = m₀.ram
  frame : ∀ i, i < n → ∃ f, 292 ≤ f ∧ f < totalPages ∧
    m.pagusrTable child (pagLogInitData + i) = ssEntry f ∧ m.pagusrTable parent (pages i) = ssEntry f ∧
    ∀ u p, DataPage p → (m₀.pagusrTable u p).frame? ≠ some f
  todo : ∀ i, n ≤ i → i < numPagData → m.pagusrTable child (pagLogInitData + i) = .zero
  page : ∀ i, i < n → pages i ∈ freeRegion m₀ parent
  page_inj : ∀ i j, i < n → j < n → pages i = pages j → i = j
  parent_other : ∀ p, (∀ i, i < n → p ≠ pages i) → m.pagusrTable parent p = m₀.pagusrTable parent p
  other : ∀ u p, u ≠ parent → ¬ (u = child ∧ DataPage p) → m.pagusrTable u p = m₀.pagusrTable u p

theorem Reserved.start (h : FrameInv false m) (hempty : ∀ p, DataPage p → m.pagusrTable child p = .zero) :
    Reserved m m parent child 0 pages where
  inv := h
  child_empty := hempty
  sharedPages := rfl
  ram := rfl
  frame i hi := absurd hi (Nat.not_lt_zero i)
  todo i _ hi := hempty _ ⟨by omega, by omega⟩
  page i hi := absurd hi (Nat.not_lt_zero i)
  page_inj i _ hi := absurd hi (Nat.not_lt_zero i)
  parent_other _ _ := rfl
  other _ _ _ _ := rfl

theorem Reserved.parent_data (h : Reserved m₀ m parent child n pages) {p : Nat} (hp : ¬ SharedRegion p) :
    m.pagusrTable parent p = m₀.pagusrTable parent p := by
  apply h.parent_other
  rintro i hi rfl
  exact hp (mem_freeRegion.mp (h.page i hi)).1

theorem Reserved.other_data (h : Reserved m₀ m parent child n pages) {u : Slot} {p : Nat} (hu : u ≠ child)
    (hp : ¬ SharedRegion p) : m.pagusrTable u p = m₀.pagusrTable u p := by
  by_cases hup : u = parent
  · subst hup
    exact h.parent_data hp
  · exact h.other u p hup fun hc => hu hc.1

theorem Reserved.unmapped (h : Reserved m₀ m parent child n pages) {f : Nat} (h0 : dataRefs m f = 0)
    {u : Slot} {p : Nat} (hp : DataPage p) : (m₀.pagusrTable u p).frame? ≠ some f := by
  by_cases huc : u = child
  · rw [huc, h.child_empty p hp]
    simp
  · rw [← h.other_data huc (not_region_of_data hp)]
    exact FrameInv.unmapped_of_dataRefs h0 hp

theorem Reserved.le_card (h : Reserved m₀ m parent child n pages) :
    n ≤ (freeRegion m₀ parent).card := by
  have hinj : Set.InjOn pages (Finset.range n : Set Nat) := by
    intro i hi j hj he
    exact h.page_inj i j (by simpa using hi) (by simpa using hj) he
  have hsub : (Finset.range n).image pages ⊆ freeRegion m₀ parent := by
    intro p hp
    obtain ⟨i, hi, rfl⟩ := Finset.mem_image.mp hp
    exact h.page i (Finset.mem_range.mp hi)
  have := Finset.card_le_card hsub
  rwa [Finset.card_image_of_injOn hinj, Finset.card_range] at this

theorem Reserved.card_le (h : Reserved m₀ m parent child n pages)
    (hnone : ∀ p, SharedRegion p → m.pagusrTable parent p ≠ .zero) :
    (freeRegion m₀ parent).card ≤ n := by
  have hsurj : Set.SurjOn pages (Finset.range n) (freeRegion m₀ parent) := by
    intro p hp
    rw [Finset.mem_coe, mem_freeRegion] at hp
    by_contra hno
    apply hnone p hp.1
    rw [h.parent_other p, hp.2]
    rintro i hi rfl
    exact hno ⟨i, Finset.mem_coe.mpr (Finset.mem_range.mpr hi), rfl⟩
  have := Finset.card_le_card_of_surjOn pages hsurj
  rwa [Finset.card_range] at this

theorem forkReserveStep_eq {m : Mm} {q f : Nat} (hn : n < numPagData) (hq : q < totalPages)
    (hf : f < totalPages) (hget : getUserFreePage m parent = (q : Int))
    (halloc : allocFrame m = ((f : Int), incFrame m f)) :
    forkReserveStep parent child n m = .ok
      (((incFrame m f).setEntry parent q (ssEntry f)).setEntry child (pagLogInitData + n) (ssEntry f),
        some q) := by
  have hu32 : uint32 ((f : Nat) : Int) = f := uint32_natCast (hf.trans (by decide))
  unfold forkReserveStep
  rw [hget, halloc, if_neg (by omega), if_neg (by simp only [not_lt]; omega)]
  simp only [hu32, Int.toNat_natCast, setSsPag, writePte_of_lt _ parent _ hq, ok_bind]
  rw [writePte_of_lt _ child _ (by
    simp only [userFirstPage, lUserStart, pageSize, numPagData, totalPages] at hn ⊢
    omega)]
  rfl

theorem forkReserveStep_none {m : Mm} (hget : getUserFreePage m parent = -1) :
    forkReserveStep parent child n m = .ok (m, none) := by
  unfold forkReserveStep
  rw [hget, if_pos (by omega)]

/-- What the rounds keep, the loop keeps; it ends early when a round finds no page. -/
theorem forkReserve_rounds {N : Nat} (P : Nat → Mm → (Nat → Nat) → Prop) (Q : Nat → Prop)
    (h0 : P 0 m₀ fun _ => 0)
    (step : ∀ n m pages, n < N → P n m pages →
      (forkReserveStep parent child n m = .ok (m, none) ∧ Q n) ∨
      ∃ m' page, forkReserveStep parent child n m = .ok (m', some page) ∧
        P (n + 1) m' (Function.update pages n page)) (n : Nat) (hn : n ≤ N) :
    (∃ m pages, forkReserve parent child n m₀ = .ok (m, some pages) ∧ P n m pages) ∨
    (∃ m pages k, forkReserve parent child n m₀ = .ok (m, none) ∧ k < n ∧ P k m pages ∧ Q k) := by
  induction n with
  | zero => exact .inl ⟨m₀, _, rfl, h0⟩
  | succ n ih =>
    rcases ih (by omega) with ⟨m, pages, hok, hr⟩ | ⟨m, pages, k, hok, hk, hr⟩
    · rcases step n m pages (by omega) hr with ⟨hstep, hc⟩ | ⟨m', page, hstep, hr'⟩
      · refine .inr ⟨m, pages, n, ?_, by omega, hr, hc⟩
        rw [forkReserve, hok, ok_bind]
        simp only [hstep, ok_bind, pure_eq_ok]
      · refine .inl ⟨m', _, ?_, hr'⟩
        rw [forkReserve, hok, ok_bind]
        simp only [hstep, ok_bind, pure_eq_ok]
    · refine .inr ⟨m, pages, k, ?_, by omega, hr⟩
      rw [forkReserve, hok, ok_bind]
      rfl

theorem Reserved.step (h : Reserved m₀ m parent child n pages) (hne : parent ≠ child)
    (hn : n < numPagData) :
    (forkReserveStep parent child n m = .ok (m, none) ∧ (freeRegion m₀ parent).card ≤ n) ∨
    ∃ m' page, forkReserveStep parent child n m = .ok (m', some page) ∧
      Reserved m₀ m' parent child (n + 1) (Function.update pages n page) := by
  have hdp : DataPage (pagLogInitData + n) := ⟨by omega, by omega⟩
  rcases getUserFreePage_cases m parent with ⟨q, hq, hqz, hget⟩ | ⟨hnone, hget⟩
  · refine .inr ?_
    obtain ⟨f, hf, halloc, hl, h0⟩ := h.inv.alloc
    have hqlt : q < totalPages := hq.2
    obtain ⟨hqd, hqc⟩ := region_disjoint hq
    have hqk : ¬ q < numPagKernel := not_lt.mpr (user_page (.inr (.inr hq)))
    have hfresh : ∀ i, i < n → q ≠ pages i := by
      rintro i hi rfl
      obtain ⟨g, _, _, _, hg, _⟩ := h.frame i hi
      rw [hqz] at hg
      cases hg
    have hchild : m.pagusrTable child (pagLogInitData + n) = .zero := h.todo n (le_refl n) hn
    refine ⟨_, q, forkReserveStep_eq hn hqlt hf.upper hget halloc, ?_⟩
    have hinv₁ := h.inv.allocData hdp hchild hf hl h0
    have hcomm := Mm.setEntry_comm (incFrame m f) hne q (pagLogInitData + n) (ssEntry f) (ssEntry f)
    have htab : ∀ u p, (((incFrame m f).setEntry parent q (ssEntry f)).setEntry child
        (pagLogInitData + n) (ssEntry f)).pagusrTable u p =
        if u = child ∧ p = pagLogInitData + n then ssEntry f
        else if u = parent ∧ p = q then ssEntry f else m.pagusrTable u p := fun _ _ => rfl
    have hold := fun u p => h.unmapped h0 (u := u) (p := p)
    refine ⟨hcomm ▸ hinv₁.updateOther hqd (fun hc => absurd hc hqc)
      (fun hk => absurd hk hqk) (fun _ => .inr rfl), h.child_empty, h.sharedPages, h.ram,
      ?_, ?_, ?_, ?_, ?_, ?_⟩
    · intro i hi
      by_cases hin : i = n
      · subst hin
        refine ⟨f, hl, hf.upper, by simp, ?_, hold⟩
        rw [htab, Function.update_self, if_neg (fun hc => hne hc.1), if_pos ⟨rfl, rfl⟩]
      · obtain ⟨g, hg, hg', hgc, hgp, hgo⟩ := h.frame i (by omega)
        refine ⟨g, hg, hg', ?_, ?_, hgo⟩
        · rw [htab, if_neg (by omega), if_neg (fun hc => hne hc.1.symm), hgc]
        · rw [htab, Function.update_of_ne hin, if_neg (fun hc => hne hc.1),
            if_neg (fun hc => hfresh i (by omega) hc.2.symm), hgp]
    · intro i hi hi'
      rw [htab, if_neg (by omega), if_neg (fun hc => hne hc.1.symm)]
      exact h.todo i (by omega) hi'
    · have hfree : q ∈ freeRegion m₀ parent := by
        rw [mem_freeRegion, ← h.parent_other q hfresh]
        exact ⟨hq, hqz⟩
      exact forall_update h.page hfree
    · exact update_injOn h.page_inj hfresh
    · intro p hp
      obtain ⟨hpq, hp⟩ := ne_of_ne_update hp
      rw [htab, if_neg (fun hc => hne hc.1), if_neg (fun hc => hpq hc.2)]
      exact h.parent_other p hp
    · intro u p hu hup
      have hno : ¬ (u = child ∧ p = pagLogInitData + n) := by
        rintro ⟨hc, rfl⟩
        exact hup ⟨hc, hdp⟩
      rw [htab, if_neg hno, if_neg (fun hc => hu hc.1)]
      exact h.other u p hu hup
  · exact .inl ⟨forkReserveStep_none hget, h.card_le hnone⟩

theorem forkReserve_spec (h : FrameInv false m₀) (hne : parent ≠ child)
    (hempty : ∀ p, DataPage p → m₀.pagusrTable child p = .zero) (n : Nat) (hn : n ≤ numPagData) :
    (∃ m pages, forkReserve parent child n m₀ = .ok (m, some pages) ∧
      Reserved m₀ m parent child n pages) ∨
    (∃ m pages k, forkReserve parent child n m₀ = .ok (m, none) ∧ k < n ∧
      Reserved m₀ m parent child k pages ∧ (freeRegion m₀ parent).card ≤ k) := by
  apply forkReserve_rounds (fun n m pages => Reserved m₀ m parent child n pages)
    (fun k => (freeRegion m₀ parent).card ≤ k) (.start h hempty) ?_ n hn
  intro n m pages hn hr
  exact hr.step hne hn

/-- The first `n` rounds of the copying loop, in any layout of the tables: the data
pages of the parent have been copied to the frames `fr`, and the temporary pages are gone. -/
structure CopiedFrames (m m' : Mm) (parent : Slot) (pages fr : Nat → Nat) (n : Nat) : Prop where
  physMem : m'.physMem = m.physMem
  sharedPages : m'.sharedPages = m.sharedPages
  cleared : ∀ i, i < n → m'.pagusrTable parent (pages i) = .zero
  other : ∀ u p, (u ≠ parent ∨ ∀ i, i < n → p ≠ pages i) → m'.pagusrTable u p = m.pagusrTable u p
  done : ∀ i, i < n → m'.ram (fr i) = m.ram (m.pagusrTable parent (pagLogInitData + i)).pbaseAddr
  ram_other : ∀ f, (∀ i, i < n → f ≠ fr i) → m'.ram f = m.ram f

/-- What the copying loop needs: the frames `fr` behind the temporary pages are
distinct, and none of them holds a data page of the parent. -/
structure Copyable (m : Mm) (parent : Slot) (pages fr : Nat → Nat) : Prop where
  page : ∀ i, i < numPagData → SharedRegion (pages i)
  page_inj : ∀ i j, i < numPagData → j < numPagData → pages i = pages j → i = j
  source : ∀ i, i < numPagData → (m.pagusrTable parent (pagLogInitData + i)).present = true
  target : ∀ i, i < numPagData → MappedTo m parent (pages i) (fr i)
  target_inj : ∀ i j, i < numPagData → j < numPagData → fr i = fr j → i = j
  apart : ∀ i j, i < numPagData → j < numPagData →
    (m.pagusrTable parent (pagLogInitData + i)).pbaseAddr ≠ fr j

theorem CopiedFrames.step {m' : Mm} {fr : Nat → Nat} (h : CopiedFrames m m' parent pages fr n)
    (hc : Copyable m parent pages fr) (hn : n < numPagData) :
    ∃ m'', (copyData m' parent ((userFirstPage + n) * pageSize) (pages n * pageSize) pageSize >>=
        fun m => delSsPag m parent (pages n)) = .ok m'' ∧
      CopiedFrames m m'' parent pages fr (n + 1) := by
  have hreg := hc.page n hn
  have hsame : m'.pagusrTable parent (pagLogInitData + n) = m.pagusrTable parent (pagLogInitData + n) := by
    refine h.other parent _ (.inr fun j hj he => ?_)
    have hj' := hc.page j (by omega)
    rw [← he] at hj'
    simp only [SharedRegion, userLastPage, userFirstPage, pagLogInitData] at hj'
    omega
  have htemp : m'.pagusrTable parent (pages n) = m.pagusrTable parent (pages n) := by
    refine h.other parent _ (.inr fun j hj he => ?_)
    have := hc.page_inj n j hn (by omega) he
    omega
  have hsrc : MappedTo m' parent (userFirstPage + n)
      (m.pagusrTable parent (pagLogInitData + n)).pbaseAddr := by
    refine ⟨?_, ?_, ?_⟩
    · simp only [userFirstPage, lUserStart, pageSize, numPagData, totalPages] at hn ⊢
      omega
    · change (m'.pagusrTable parent (pagLogInitData + n)).present = true
      rw [hsame]
      exact hc.source n hn
    · change (m'.pagusrTable parent (pagLogInitData + n)).pbaseAddr = _
      rw [hsame]
  have hdst : MappedTo m' parent (pages n) (fr n) := by
    refine ⟨hreg.2, ?_, ?_⟩
    · rw [htemp]
      exact (hc.target n hn).present
    · rw [htemp]
      exact (hc.target n hn).frame
  have hkeep : m'.ram (m.pagusrTable parent (pagLogInitData + n)).pbaseAddr =
      m.ram (m.pagusrTable parent (pagLogInitData + n)).pbaseAddr :=
    h.ram_other _ fun k hk => hc.apart n k hn (by omega)
  refine ⟨(pageCopied m' (m.pagusrTable parent (pagLogInitData + n)).pbaseAddr (fr n)).setEntry
    parent (pages n) .zero, ?_, h.physMem, h.sharedPages, ?_, ?_, ?_, ?_⟩
  · rw [copyData_page hsrc hdst (hc.apart n n hn hn), ok_bind, delSsPag,
      writePte_of_lt _ parent _ hreg.2]
  · intro j hj
    rw [Mm.setEntry_table]
    by_cases hjn : pages j = pages n
    · rw [if_pos ⟨rfl, hjn⟩]
    · rw [if_neg (fun hc => hjn hc.2)]
      have : j ≠ n := fun he => hjn (by rw [he])
      exact h.cleared j (by omega)
  · intro u p hup
    have hno : ¬ (u = parent ∧ p = pages n) := by
      rintro ⟨hu, hp⟩
      rcases hup with hup | hup
      · exact hup hu
      · exact hup n (by omega) hp
    rw [Mm.setEntry_table, if_neg hno]
    exact h.other u p (hup.imp_right fun hp j hj => hp j (by omega))
  · intro j hj
    change Function.update m'.ram (fr n) _ (fr j) = _
    by_cases hjn : j = n
    · rw [hjn, Function.update_self]
      exact hkeep
    · rw [Function.update_of_ne (fun he => hjn (hc.target_inj j n (by omega) hn he))]
      exact h.done j (by omega)
  · intro g hg
    change Function.update m'.ram (fr n) _ g = _
    rw [Function.update_of_ne (hg n (by omega))]
    exact h.ram_other g fun j hj => hg j (by omega)

theorem forkCopy_copied {fr : Nat → Nat} (hc : Copyable m parent pages fr) :
    ∃ m', forkCopy parent pages m = .ok m' ∧ CopiedFrames m m' parent pages fr numPagData := by
  refine loop_completes (fun i m' => CopiedFrames m m' parent pages fr i) ?_
    ⟨rfl, rfl, fun i hi => absurd hi (Nat.not_lt_zero i), fun _ _ _ => rfl,
      fun i hi => absurd hi (Nat.not_lt_zero i), fun _ _ => rfl⟩
  intro i m' hi h
  exact h.step hc hi

theorem FrameInv.clearRegion {useCow : Bool} {m' : Mm} (h : FrameInv useCow m)
    (hp : m'.physMem = m.physMem) (hs : m'.sharedPages = m.sharedPages)
    (hout : ∀ u p, ¬ SharedRegion p → m'.pagusrTable u p = m.pagusrTable u p)
    (hin : ∀ u p, SharedRegion p → m'.pagusrTable u p = .zero ∨
      m'.pagusrTable u p = m.pagusrTable u p) : FrameInv useCow m' := by
  have hdata : ∀ u p, DataPage p → m'.pagusrTable u p = m.pagusrTable u p := by
    intro u p hd
    exact hout u p (not_region_of_data hd)
  constructor
  case shared_frame =>
    rw [hs]
    exact h.shared_frame
  case count =>
    intro f hf
    rw [hp, dataRefs_congr hdata]
    exact h.count f hf
  case data =>
    intro u p hd
    rw [hdata u p hd]
    exact h.data u p hd
  case owner =>
    intro u p v q hd hq
    rw [hdata u p hd, hdata v q hq]
    exact h.owner u p v q hd hq
  case code =>
    intro u p hc
    rw [hout u p (not_region_of_code hc)]
    exact h.code u p hc
  case kernel =>
    intro u p hk
    rw [hout u p fun hreg => absurd hk (not_lt.mpr (user_page (.inr (.inr hreg))))]
    exact h.kernel u p hk
  case region =>
    intro u p hr
    rcases hin u p hr with hz | he
    · exact .inl hz
    · rw [he]
      exact h.region u p hr

/-- After `i` rounds of the copying loop: `i` pages of the child have their
contents, and the temporary pages of the parent are gone. -/
structure CopyingPages (m m' : Mm) (parent child : Slot) (pages : Nat → Nat) (n : Nat) : Prop where
  inv : FrameInv false m'
  sharedPages : m'.sharedPages = m.sharedPages
  cleared : ∀ i, i < n → m'.pagusrTable parent (pages i) = .zero
  other : ∀ u p, (u ≠ parent ∨ ∀ i, i < n → p ≠ pages i) → m'.pagusrTable u p = m.pagusrTable u p
  done : ∀ i, i < n → m'.ram (m.pagusrTable child (pagLogInitData + i)).pbaseAddr =
    m.ram (m.pagusrTable parent (pagLogInitData + i)).pbaseAddr
  ram_other : ∀ f, (∀ i, i < n → f ≠ (m.pagusrTable child (pagLogInitData + i)).pbaseAddr) →
    m'.ram f = m.ram f

theorem Reserved.child_frame (h : Reserved m₀ m parent child n pages) {i : Nat} (hi : i < n) :
    (m.pagusrTable child (pagLogInitData + i)).frame? =
      some (m.pagusrTable child (pagLogInitData + i)).pbaseAddr ∧
    (m.pagusrTable child (pagLogInitData + i)).rw = true := by
  obtain ⟨f, _, _, hc, _⟩ := h.frame i hi
  rw [hc]
  exact ⟨rfl, rfl⟩

/-- A frame of the child is no frame of anybody else. -/
theorem Reserved.child_frame_ne (h : Reserved m₀ m parent child n pages) (hn : n ≤ numPagData)
    {i : Nat} (hi : i < n) {u : Slot} {p : Nat} (hp : DataPage p)
    (hup : u ≠ child ∨ p ≠ pagLogInitData + i) (hz : m.pagusrTable u p ≠ .zero) :
    (m.pagusrTable u p).pbaseAddr ≠ (m.pagusrTable child (pagLogInitData + i)).pbaseAddr := by
  intro he
  obtain ⟨hf, hrw⟩ := h.child_frame hi
  have hd := (h.inv.data u p hp).resolve_left hz
  have hdi : DataPage (pagLogInitData + i) := ⟨by omega, by omega⟩
  have := h.inv.owner child _ u p hdi hp hrw (by rw [hf, frame?_of_present hd.present, he])
  rcases hup with hu | hq
  · exact hu this.1
  · exact hq this.2

theorem forkCopy_spec (h : Reserved m₀ m parent child numPagData pages) (hne : parent ≠ child)
    (hfull : ∀ p, DataPage p → m.pagusrTable parent p ≠ .zero) :
    ∃ m', forkCopy parent pages m = .ok m' ∧
      CopyingPages m m' parent child pages numPagData := by
  have hdata : ∀ i, i < numPagData → DataPage (pagLogInitData + i) :=
    fun i hi => ⟨by omega, by omega⟩
  have hmapped : ∀ i, i < numPagData → m.pagusrTable child (pagLogInitData + i) ≠ .zero := by
    intro i hi
    obtain ⟨f, _, _, hf, _⟩ := h.frame i hi
    rw [hf]
    exact ne_zero_of_present rfl
  have hcopy : Copyable m parent pages fun i => (m.pagusrTable child (pagLogInitData + i)).pbaseAddr := by
    refine ⟨fun i hi => (mem_freeRegion.mp (h.page i hi)).1, h.page_inj, ?_, ?_, ?_, ?_⟩
    · intro i hi
      exact ((h.inv.data parent _ (hdata i hi)).resolve_left (hfull _ (hdata i hi))).present
    · intro i hi
      obtain ⟨f, _, _, hfc, hfp, _⟩ := h.frame i hi
      refine ⟨(mem_freeRegion.mp (h.page i hi)).1.2, ?_, ?_⟩
      · rw [hfp]
        rfl
      · rw [hfp, hfc]
    · intro i j hi hj he
      by_contra hij
      exact h.child_frame_ne (le_refl _) hj (hdata i hi) (.inr (by omega)) (hmapped i hi) he
    · intro i j hi hj
      exact h.child_frame_ne (le_refl _) hj (hdata i hi) (.inl hne) (hfull _ (hdata i hi))
  obtain ⟨m', hok, hc⟩ := forkCopy_copied hcopy
  refine ⟨m', hok, ?_, hc.sharedPages, hc.cleared, hc.other, hc.done, hc.ram_other⟩
  apply h.inv.clearRegion hc.physMem hc.sharedPages
  · intro u p hp
    refine hc.other u p (.inr fun i hi he => hp ?_)
    rw [he]
    exact (mem_freeRegion.mp (h.page i hi)).1
  · intro u p _
    by_cases hup : u = parent ∧ ∃ i, i < numPagData ∧ p = pages i
    · obtain ⟨rfl, i, hi, rfl⟩ := hup
      exact .inl (hc.cleared i hi)
    · refine .inr (hc.other u p ?_)
      by_cases hu : u = parent
      · exact .inr fun i hi he => hup ⟨hu, i, hi, he⟩
      · exact .inl hu

/-- What a fork that runs out of free pages leaves behind. -/
structure Leaked (m m' : Mm) (child : Slot) : Prop where
  inv : FrameInv false m'
  other : ∀ u p, u ≠ child → DataPage p ∨ CodePage p → m'.pagusrTable u p = m.pagusrTable u p
  region : ∀ u p, SharedRegion p → m'.pagusrTable u p = m.pagusrTable u p ∨
    (m.pagusrTable u p = .zero ∧ ∃ f, 292 ≤ f ∧ f < totalPages ∧ m'.pagusrTable u p = ssEntry f)
  sharedPages : m'.sharedPages = m.sharedPages
  ram : m'.ram = m.ram

theorem data_lt {p : Nat} (hp : DataPage p) : p < totalPages := by
  simp only [DataPage, pagLogInitData, lUserStart, pageSize, numPagData, totalPages] at hp ⊢
  omega

theorem Reserved.region (h : Reserved m₀ m parent child n pages) (u : Slot) {p : Nat}
    (hp : SharedRegion p) : m.pagusrTable u p = m₀.pagusrTable u p ∨
      (m₀.pagusrTable u p = .zero ∧ ∃ f, 292 ≤ f ∧ f < totalPages ∧ m.pagusrTable u p = ssEntry f) := by
  by_cases hu : u = parent
  · subst hu
    by_cases hpi : ∃ i, i < n ∧ p = pages i
    · obtain ⟨i, hi, rfl⟩ := hpi
      obtain ⟨f, hl, hu, _, hf, _⟩ := h.frame i hi
      exact .inr ⟨(mem_freeRegion.mp (h.page i hi)).2, f, hl, hu, hf⟩
    · exact .inl (h.parent_other p fun i hi he => hpi ⟨i, hi, he⟩)
  · exact .inl (h.other u p hu fun hc => (region_disjoint hp).1 hc.2)

theorem eagerData_spec (h : FrameInv false m) (hne : parent ≠ child)
    (hfull : ∀ p, DataPage p → m.pagusrTable parent p ≠ .zero)
    (hempty : ∀ p, DataPage p → m.pagusrTable child p = .zero) :
    (numPagData ≤ (freeRegion m parent).card ∧ ∃ m₁ m' pages,
      eagerData m parent child = .ok (m', true) ∧ Reserved m m₁ parent child numPagData pages ∧
      CopyingPages m₁ m' parent child pages numPagData) ∨
    ((freeRegion m parent).card < numPagData ∧ ∃ m' pages k,
      eagerData m parent child = .ok (m', false) ∧ Reserved m m' parent child k pages) := by
  rcases forkReserve_spec h hne hempty numPagData (le_refl _) with
    ⟨m₁, pages, hok, hr⟩ | ⟨m₁, pages, k, hok, hk, hr, hc⟩
  · obtain ⟨m', hok', hc⟩ := forkCopy_spec hr hne (fun p hp => by
      rw [hr.parent_data (not_region_of_data hp)]
      exact hfull p hp)
    refine .inl ⟨hr.le_card, m₁, m', pages, ?_, hr, hc⟩
    unfold eagerData
    rw [hok, ok_bind]
    simp only [hok', ok_bind, pure_eq_ok]
  · refine .inr ⟨by omega, m₁, pages, k, ?_, hr⟩
    unfold eagerData
    rw [hok, ok_bind]
    rfl

theorem freeRegion_forkBase (hb : Based m (forkBase m parent child) parent child) (pt : Slot) :
    freeRegion (forkBase m parent child) pt = freeRegion m pt := by
  ext p
  rw [mem_freeRegion, mem_freeRegion]
  constructor
  · rintro ⟨hp, hz⟩
    exact ⟨hp, by rw [← hb.other pt p (.inr (region_disjoint hp).2)]; exact hz⟩
  · rintro ⟨hp, hz⟩
    exact ⟨hp, by rw [hb.other pt p (.inr (region_disjoint hp).2)]; exact hz⟩

section Copied
variable {m₁ m' : Mm}

theorem CopyingPages.keeps (hc : CopyingPages m₁ m' parent child pages n)
    (hr : Reserved m₀ m₁ parent child n pages) (u : Slot) {p : Nat} (hp : ¬ SharedRegion p) :
    m'.pagusrTable u p = m₁.pagusrTable u p := by
  refine hc.other u p (.inr fun i hi he => hp ?_)
  rw [he]
  exact (mem_freeRegion.mp (hr.page i hi)).1

theorem CopyingPages.region (hc : CopyingPages m₁ m' parent child pages n)
    (hr : Reserved m₀ m₁ parent child n pages) (u : Slot) {p : Nat} (hp : SharedRegion p) :
    m'.pagusrTable u p = m₀.pagusrTable u p := by
  by_cases hup : u = parent
  · subst hup
    by_cases hpi : ∃ i, i < n ∧ p = pages i
    · obtain ⟨i, hi, rfl⟩ := hpi
      rw [hc.cleared i hi]
      exact (mem_freeRegion.mp (hr.page i hi)).2.symm
    · have hno : ∀ i, i < n → p ≠ pages i := fun i hi he => hpi ⟨i, hi, he⟩
      rw [hc.other u p (.inr hno), hr.parent_other p hno]
  · rw [hc.other u p (.inl hup), hr.other u p hup fun hcd => (region_disjoint hp).1 hcd.2]

theorem CopyingPages.ram_mapped (hc : CopyingPages m₁ m' parent child pages n)
    (hr : Reserved m₀ m₁ parent child n pages) {u : Slot} {p : Nat} (hp : DataPage p)
    (hpresent : (m₀.pagusrTable u p).present = true) :
    m'.ram (m₀.pagusrTable u p).pbaseAddr = m₀.ram (m₀.pagusrTable u p).pbaseAddr := by
  rw [hc.ram_other, hr.ram]
  intro i hi he
  obtain ⟨f, _, hfu, hfc, _, hfree⟩ := hr.frame i hi
  have hpb : (ssEntry f).pbaseAddr = f := Option.some.inj (frame?_ssEntry hfu)
  apply hfree u p hp
  rw [frame?_of_present hpresent, he, hfc, hpb]

theorem inherits_of_copied (h : FrameInv false m) (hne : parent ≠ child) (hb : Based m m₀ parent child)
    (hr : Reserved m₀ m₁ parent child numPagData pages)
    (hc : CopyingPages m₁ m' parent child pages numPagData) : Inherits false m m' parent child := by
  have hother : ∀ u p, u ≠ child → ¬ SharedRegion p → m'.pagusrTable u p = m₀.pagusrTable u p := by
    intro u p hu hp
    rw [hc.keeps hr u hp, hr.other_data hu hp]
  constructor
  case inv => exact hc.inv
  case child_mapped =>
    intro p hp hz
    obtain ⟨hi, he⟩ := dataPage_index hp
    obtain ⟨f, _, _, hf, _⟩ := hr.frame _ hi
    rw [he] at hf
    rw [hc.keeps hr child (not_region_of_data hp), hf] at hz
    exact ne_zero_of_present rfl hz
  case child_content =>
    intro p hp
    obtain ⟨hi, he⟩ := dataPage_index hp
    have hdone := hc.done _ hi
    rw [he, hr.parent_data (not_region_of_data hp), hb.data parent hp] at hdone
    unfold content
    rw [hc.keeps hr child (not_region_of_data hp), hdone, hr.ram, hb.ram]
  case child_code =>
    intro p hp
    rw [hc.keeps hr child (not_region_of_code hp),
      hr.other child p hne.symm fun hcd => data_not_code hcd.2 hp]
    exact hb.code p hp
  case other_zero =>
    intro u p hu hp
    rw [hother u p hu (not_region_of_data hp), hb.data u hp]
  case other_content =>
    intro u p hu hp hz
    have hd := (h.data u p hp).resolve_left hz
    have hram := hc.ram_mapped hr (u := u) hp (by rw [hb.data u hp]; exact hd.present)
    rw [hb.data u hp, hb.ram] at hram
    unfold content
    rw [hother u p hu (not_region_of_data hp), hb.data u hp]
    exact hram
  case other_code =>
    intro u p hu hp
    rw [hother u p hu (not_region_of_code hp)]
    exact hb.other u p (.inl hu)
  case region =>
    intro u p hp
    rw [hc.region hr u hp]
    exact hb.other u p (.inr (region_disjoint hp).2)
  case sharedPages => rw [hc.sharedPages, hr.sharedPages, hb.sharedPages]

theorem leaked_of_reserved (hb : Based m m₀ parent child) (hr : Reserved m₀ m' parent child n pages) :
    Leaked m m' child := by
  refine ⟨hr.inv, ?_, ?_, ?_, ?_⟩
  · intro u p hu hp
    rw [hr.other_data hu (hp.elim not_region_of_data not_region_of_code)]
    exact hb.other u p (.inl hu)
  · intro u p hp
    rw [← hb.other u p (.inr (region_disjoint hp).2)]
    exact hr.region u hp
  · rw [hr.sharedPages, hb.sharedPages]
  · rw [hr.ram, hb.ram]

end Copied

/-- Both ways a fork without `USE_COW` can go; the free pages decide. -/
theorem eager_cases (h : FrameInv false m) (hne : parent ≠ child)
    (hfull : ∀ p, DataPage p → m.pagusrTable parent p ≠ .zero)
    (hempty : ∀ p, DataPage p → m.pagusrTable child p = .zero) :
    (numPagData ≤ (freeRegion m parent).card ∧ ∃ m',
      forkMemory false m parent child = .ok (m', true) ∧ Inherits false m m' parent child) ∨
    ((freeRegion m parent).card < numPagData ∧ ∃ m',
      forkMemory false m parent child = .ok (m', false) ∧ Leaked m m' child) := by
  obtain ⟨h₁, hb⟩ := forkBase_spec h hne
  have hmem : forkMemory false m parent child =
      eagerData (forkBase m parent child) parent child >>= fun r =>
        bif r.2 then forkShared r.1 parent child >>= fun m => pure (m, true)
        else pure (r.1, false) := by
    change eagerData (forkBase m parent child) parent child >>= _ = _
    congr 1
    funext r
    obtain ⟨m, copied⟩ := r
    cases copied <;> rfl
  rcases eagerData_spec h₁ hne (fun p hp => by rw [hb.data _ hp]; exact hfull p hp)
    (fun p hp => by rw [hb.data _ hp]; exact hempty p hp) with
    ⟨hcard, m₁, m', pages, hok, hr, hc⟩ | ⟨hcard, m', pages, k, hok, hr⟩
  · rw [freeRegion_forkBase hb] at hcard
    refine .inl ⟨hcard, m', ?_, inherits_of_copied h hne hb hr hc⟩
    rw [hmem, hok, ok_bind]
    simp only [forkShared_eq hc.inv.shared_frame, ok_bind, pure_eq_ok, cond_true]
  · rw [freeRegion_forkBase hb] at hcard
    refine .inr ⟨hcard, m', ?_, leaked_of_reserved hb hr⟩
    rw [hmem, hok, ok_bind]
    rfl

/-- A fork, whatever becomes of it, writes only into frames that it has allocated. -/
theorem forkMemory_ram {useCow : Bool} {m' : Mm} {b : Bool} (h : FrameInv useCow m) (hne : parent ≠ child)
    (hfull : ∀ p, DataPage p → m.pagusrTable parent p ≠ .zero)
    (hempty : ∀ p, DataPage p → m.pagusrTable child p = .zero)
    (hok : forkMemory useCow m parent child = .ok (m', b)) {f : Nat} (hf : f < 292) :
    m'.ram f = m.ram f := by
  obtain ⟨h₁, hb⟩ := forkBase_spec h hne
  have hfull' : ∀ p, DataPage p → (forkBase m parent child).pagusrTable parent p ≠ .zero := by
    intro p hp
    rw [hb.data parent hp]
    exact hfull p hp
  have hempty' : ∀ p, DataPage p → (forkBase m parent child).pagusrTable child p = .zero := by
    intro p hp
    rw [hb.data child hp]
    exact hempty p hp
  cases useCow with
  | true =>
    obtain ⟨h₂, hs⟩ := cowData_spec h₁ hne hfull' hempty'
    obtain ⟨m₁, hm₁, hok⟩ := bind_eq_ok.mp hok
    rw [← forkBase, forkShared_eq h₂.shared_frame] at hm₁
    cases hm₁
    cases hok
    rw [hs.ram, hb.ram]
  | false =>
    obtain ⟨r, hr, hok⟩ := bind_eq_ok.mp hok
    rw [← forkBase] at hr
    rcases eagerData_spec h₁ hne hfull' hempty' with
      ⟨_, m₁, m₂, pages, hok', hres, hc⟩ | ⟨_, m₂, pages, k, hok', hres⟩
    · rw [hok'] at hr
      cases hr
      obtain ⟨m₃, hm₃, hok⟩ := bind_eq_ok.mp hok
      rw [forkShared_eq hc.inv.shared_frame] at hm₃
      cases hm₃
      cases hok
      have hkeep : m'.ram f = m₁.ram f := by
        apply hc.ram_other
        intro i hi he
        obtain ⟨g, hg, hgu, hgc, _⟩ := hres.frame i hi
        have hpb : (ssEntry g).pbaseAddr = g := Option.some.inj (frame?_ssEntry hgu)
        rw [hgc, hpb] at he
        omega
      rw [hkeep, hres.ram, hb.ram]
    · rw [hok'] at hr
      cases hr
      cases hok
      rw [hres.ram, hb.ram]

end Eager

end Zeos
