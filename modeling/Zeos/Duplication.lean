import Zeos.ForkMemory

/-!
# A fork without `USE_COW`, in any layout of the page tables

What the reserving and the copying loop of `sys_fork` do when nothing is known of
the entries of the child, which are overwritten, or of other tables. The data pages
of the parent have to map frames that are taken, and the allocator must have enough
frames left.
-/

namespace Zeos

open Loops
set_option autoImplicit false

/-- The frames that the allocator looks at and passes over. -/
def usedFrames (m : Mm) : Finset Nat :=
  (Finset.Ico numPagKernel totalPages).filter fun f => f % 2 = 0 ∧ m.physMem f ≠ 0

/-- How many frames the allocator can hand out. -/
abbrev frameRoom : Nat := 384

section Allocator
variable {m m' : Mm} {f : Nat}

theorem mem_usedFrames :
    f ∈ usedFrames m ↔ numPagKernel ≤ f ∧ f < totalPages ∧ f % 2 = 0 ∧ m.physMem f ≠ 0 := by
  simp only [usedFrames, Finset.mem_filter, Finset.mem_Ico, and_assoc]

theorem frameRoom_card :
    ((Finset.Ico numPagKernel totalPages).filter fun f => f % 2 = 0).card = frameRoom := by
  decide +kernel

/-- The allocator finds a frame as long as there is one. -/
theorem allocFrame_room (h : (usedFrames m).card < frameRoom) :
    ∃ f, FreeFrame m f ∧ allocFrame m = ((f : Int), incFrame m f) := by
  rcases allocFrame_cases m with hok | ⟨hnone, _⟩
  · exact hok
  · exfalso
    have hsub : (Finset.Ico numPagKernel totalPages).filter (fun f => f % 2 = 0) ⊆ usedFrames m := by
      intro f hf
      rw [Finset.mem_filter, Finset.mem_Ico] at hf
      exact mem_usedFrames.mpr ⟨hf.1.1, hf.1.2, hf.2, fun h0 => hnone f ⟨hf.1.1, hf.1.2, hf.2, h0⟩⟩
    have := Finset.card_le_card hsub
    rw [frameRoom_card] at this
    omega

/-- At most `n` frames have been taken since. -/
theorem usedFrames_card_le {n : Nat} {fr : Nat → Nat}
    (h : ∀ f, (∀ i, i < n → f ≠ fr i) → m'.physMem f = m.physMem f) :
    (usedFrames m').card ≤ (usedFrames m).card + n := by
  have hsub : usedFrames m' ⊆ usedFrames m ∪ (Finset.range n).image fr := by
    intro f hf
    rw [mem_usedFrames] at hf
    by_cases hnew : ∃ i, i < n ∧ f = fr i
    · obtain ⟨i, hi, rfl⟩ := hnew
      exact Finset.mem_union_right _ (Finset.mem_image_of_mem fr (Finset.mem_range.mpr hi))
    · rw [h f fun i hi he => hnew ⟨i, hi, he⟩] at hf
      exact Finset.mem_union_left _ (mem_usedFrames.mpr hf)
  have himage : ((Finset.range n).image fr).card ≤ n := by
    simpa using Finset.card_image_le (s := Finset.range n) (f := fr)
  have := (Finset.card_le_card hsub).trans (Finset.card_union_le _ _)
  omega

theorem ssEntry_pbaseAddr (hf : f < totalPages) : (ssEntry f).pbaseAddr = f :=
  Option.some.inj (frame?_ssEntry hf)

end Allocator

/-- The first `n` rounds of the reserving loop: data page `i` of the child and page
`pages i` of the parent map the frame `fr i`, which was free before. -/
structure Reserving (m m' : Mm) (parent child : Slot) (n : Nat) (pages fr : Nat → Nat) : Prop where
  page : ∀ i, i < n → pages i ∈ freeRegion m parent
  page_inj : ∀ i j, i < n → j < n → pages i = pages j → i = j
  fresh : ∀ i, i < n → FreeFrame m (fr i)
  fresh_inj : ∀ i j, i < n → j < n → fr i = fr j → i = j
  ofChild : ∀ i, i < n → m'.pagusrTable child (pagLogInitData + i) = ssEntry (fr i)
  ofParent : ∀ i, i < n → m'.pagusrTable parent (pages i) = ssEntry (fr i)
  other : ∀ u p, (u = child → ∀ i, i < n → p ≠ pagLogInitData + i) →
    (u = parent → ∀ i, i < n → p ≠ pages i) → m'.pagusrTable u p = m.pagusrTable u p
  taken : ∀ i, i < n → m'.physMem (fr i) = 1
  count : ∀ f, (∀ i, i < n → f ≠ fr i) → m'.physMem f = m.physMem f
  sharedPages : m'.sharedPages = m.sharedPages
  ram : m'.ram = m.ram

section Reserve
variable {m m' : Mm} {parent child : Slot} {n : Nat} {pages fr : Nat → Nat}

theorem Reserving.start (m : Mm) (parent child : Slot) (pages fr : Nat → Nat) :
    Reserving m m parent child 0 pages fr where
  page i hi := absurd hi (Nat.not_lt_zero i)
  page_inj i _ hi := absurd hi (Nat.not_lt_zero i)
  fresh i hi := absurd hi (Nat.not_lt_zero i)
  fresh_inj i _ hi := absurd hi (Nat.not_lt_zero i)
  ofChild i hi := absurd hi (Nat.not_lt_zero i)
  ofParent i hi := absurd hi (Nat.not_lt_zero i)
  other _ _ _ _ := rfl
  taken i hi := absurd hi (Nat.not_lt_zero i)
  count _ _ := rfl
  sharedPages := rfl
  ram := rfl

theorem Reserving.freePage (h : Reserving m m' parent child n pages fr) (hne : parent ≠ child) {q : Nat}
    (hq : SharedRegion q) (hz : m'.pagusrTable parent q = .zero) :
    q ∈ freeRegion m parent ∧ ∀ i, i < n → q ≠ pages i := by
  have hnew : ∀ i, i < n → q ≠ pages i := by
    rintro i hi rfl
    rw [h.ofParent i hi] at hz
    exact ne_zero_of_present rfl hz
  refine ⟨mem_freeRegion.mpr ⟨hq, ?_⟩, hnew⟩
  rw [← h.other parent q (fun hc => absurd hc hne) fun _ => hnew]
  exact hz

theorem Reserving.freeFrame (h : Reserving m m' parent child n pages fr) {f : Nat}
    (hf : FreeFrame m' f) : FreeFrame m f ∧ ∀ i, i < n → f ≠ fr i := by
  have hnew : ∀ i, i < n → f ≠ fr i := by
    rintro i hi rfl
    have := hf.free
    rw [h.taken i hi] at this
    cases this
  exact ⟨⟨hf.lower, hf.upper, hf.even, by rw [← h.count f hnew]; exact hf.free⟩, hnew⟩

theorem Reserving.step (h : Reserving m m' parent child n pages fr) (hne : parent ≠ child) {q f : Nat}
    (hq : SharedRegion q) (hz : m'.pagusrTable parent q = .zero) (hf : FreeFrame m' f) :
    Reserving m (((incFrame m' f).setEntry parent q (ssEntry f)).setEntry child (pagLogInitData + n)
      (ssEntry f)) parent child (n + 1) (Function.update pages n q) (Function.update fr n f) := by
  obtain ⟨hqf, hqn⟩ := h.freePage hne hq hz
  obtain ⟨hff, hfn⟩ := h.freeFrame hf
  have htab : ∀ u p, (((incFrame m' f).setEntry parent q (ssEntry f)).setEntry child
      (pagLogInitData + n) (ssEntry f)).pagusrTable u p =
      if u = child ∧ p = pagLogInitData + n then ssEntry f
      else if u = parent ∧ p = q then ssEntry f else m'.pagusrTable u p := fun _ _ => rfl
  have hphys : (((incFrame m' f).setEntry parent q (ssEntry f)).setEntry child
      (pagLogInitData + n) (ssEntry f)).physMem = Function.update m'.physMem f 1 := by
    change Function.update m'.physMem f ((m'.physMem f + 1) % 256) = _
    rw [hf.free]
  refine ⟨forall_update h.page hqf, update_injOn h.page_inj hqn, forall_update h.fresh hff,
    update_injOn h.fresh_inj hfn, ?_, ?_, ?_, ?_, ?_, h.sharedPages, h.ram⟩
  · refine forall_update (P := fun i g => Mm.pagusrTable _ child (pagLogInitData + i) = ssEntry g) ?_ ?_
    · intro i hi
      rw [htab, if_neg (by omega), if_neg (fun hc => hne hc.1.symm)]
      exact h.ofChild i hi
    · rw [htab, if_pos ⟨rfl, rfl⟩]
  · intro i hi
    rw [htab, if_neg (fun hc => hne hc.1)]
    by_cases hin : i = n
    · rw [hin, Function.update_self, Function.update_self, if_pos ⟨rfl, rfl⟩]
    · rw [Function.update_of_ne hin, Function.update_of_ne hin,
        if_neg (fun hc => hqn i (by omega) hc.2.symm)]
      exact h.ofParent i (by omega)
  · intro u p hchild hparent
    rw [htab, if_neg (fun hc => hchild hc.1 n (by omega) hc.2),
      if_neg (fun hc => (ne_of_ne_update (hparent hc.1)).1 hc.2)]
    exact h.other u p (fun hu i hi => hchild hu i (by omega)) fun hu => (ne_of_ne_update (hparent hu)).2
  · rw [hphys]
    refine forall_update (P := fun _ g => Function.update m'.physMem f 1 g = 1) ?_ ?_
    · intro i hi
      rw [Function.update_of_ne (hfn i hi).symm]
      exact h.taken i hi
    · rw [Function.update_self]
  · intro g hg
    obtain ⟨hgf, hgn⟩ := ne_of_ne_update hg
    rw [hphys, Function.update_of_ne hgf]
    exact h.count g hgn

theorem Reserving.card_le (h : Reserving m m' parent child n pages fr) (hne : parent ≠ child)
    (hnone : ∀ p, SharedRegion p → m'.pagusrTable parent p ≠ .zero) :
    (freeRegion m parent).card ≤ n := by
  have hsurj : Set.SurjOn pages (Finset.range n) (freeRegion m parent) := by
    intro p hp
    rw [Finset.mem_coe, mem_freeRegion] at hp
    by_contra hno
    apply hnone p hp.1
    rw [h.other parent p (fun hc => absurd hc hne), hp.2]
    rintro _ i hi rfl
    exact hno ⟨i, Finset.mem_coe.mpr (Finset.mem_range.mpr hi), rfl⟩
  have := Finset.card_le_card_of_surjOn pages hsurj
  rwa [Finset.card_range] at this

theorem Reserving.round (h : Reserving m m' parent child n pages fr) (hne : parent ≠ child)
    (hn : n < numPagData) (hroom : (usedFrames m).card + numPagData ≤ frameRoom) :
    (forkReserveStep parent child n m' = .ok (m', none) ∧ (freeRegion m parent).card ≤ n) ∨
    ∃ m'' page, forkReserveStep parent child n m' = .ok (m'', some page) ∧
      ∃ fr', Reserving m m'' parent child (n + 1) (Function.update pages n page) fr' := by
  rcases getUserFreePage_cases m' parent with ⟨q, hq, hz, hget⟩ | ⟨hnone, hget⟩
  · have hused := usedFrames_card_le h.count
    obtain ⟨f, hf, halloc⟩ := allocFrame_room (show (usedFrames m').card < frameRoom by omega)
    exact .inr ⟨_, q, forkReserveStep_eq hn hq.2 hf.upper hget halloc, _, h.step hne hq hz hf⟩
  · exact .inl ⟨forkReserveStep_none hget, h.card_le hne hnone⟩

theorem forkReserve_reserves (hne : parent ≠ child)
    (hroom : (usedFrames m).card + numPagData ≤ frameRoom) :
    ∃ m' pages fr, (forkReserve parent child numPagData m = .ok (m', some pages) ∧
        Reserving m m' parent child numPagData pages fr) ∨
      ∃ k, k < numPagData ∧ forkReserve parent child numPagData m = .ok (m', none) ∧
        Reserving m m' parent child k pages fr ∧ (freeRegion m parent).card ≤ k := by
  rcases forkReserve_rounds (fun n m' pages => ∃ fr, Reserving m m' parent child n pages fr)
    (fun k => (freeRegion m parent).card ≤ k) ⟨fun _ => 0, .start m parent child _ _⟩
    (fun n m' pages hn ⟨fr, hr⟩ => hr.round hne hn hroom) numPagData (le_refl _) with
    ⟨m', pages, hok, fr, hr⟩ | ⟨m', pages, k, hok, hk, ⟨fr, hr⟩, hcard⟩
  · exact ⟨m', pages, fr, .inl ⟨hok, hr⟩⟩
  · exact ⟨m', pages, fr, .inr ⟨k, hk, hok, hr, hcard⟩⟩

end Reserve

/-- The entries that a child takes over as they are. -/
def InheritedPage (p : Nat) : Prop := p < numPagKernel ∨ CodePage p

theorem inherited_not_data {p : Nat} (hp : InheritedPage p) : ¬ DataPage p := by
  simp only [InheritedPage, CodePage, DataPage, pagLogInitCode, pagLogInitData, lUserStart, pageSize,
    numPagKernel] at hp ⊢
  omega

/-- A successful fork: the child has its own copies in the frames `fr`. -/
structure Duplicated (m m' : Mm) (parent child : Slot) (fr : Nat → Nat) : Prop where
  fresh : ∀ i, i < numPagData → FreeFrame m (fr i)
  fresh_inj : ∀ i j, i < numPagData → j < numPagData → fr i = fr j → i = j
  data : ∀ i, i < numPagData → m'.pagusrTable child (pagLogInitData + i) = ssEntry (fr i)
  inherited : ∀ p, InheritedPage p → m'.pagusrTable child p = m.pagusrTable parent p
  rest : ∀ p, ¬ InheritedPage p → ¬ DataPage p → m'.pagusrTable child p = m.pagusrTable child p
  other : ∀ u p, u ≠ child → m'.pagusrTable u p = m.pagusrTable u p
  copied : ∀ i, i < numPagData →
    m'.ram (fr i) = m.ram (m.pagusrTable parent (pagLogInitData + i)).pbaseAddr
  ram : ∀ f, (∀ i, i < numPagData → f ≠ fr i) → m'.ram f = m.ram f
  taken : ∀ i, i < numPagData → m'.physMem (fr i) = 1
  count : ∀ f, (∀ i, i < numPagData → f ≠ fr i) → m'.physMem f = m.physMem f
  sharedPages : m'.sharedPages = m.sharedPages

theorem Duplicated.data_page {m m' : Mm} {parent child : Slot} {fr : Nat → Nat}
    (h : Duplicated m m' parent child fr) {p : Nat} (hp : DataPage p) :
    m'.pagusrTable child p = ssEntry (fr (p - pagLogInitData)) := by
  obtain ⟨hi, he⟩ := dataPage_index hp
  have := h.data _ hi
  rwa [he] at this

section Fork
variable {m : Mm} {parent child : Slot}

theorem forkBase_sameFrames (m : Mm) (hne : parent ≠ child) : SameFrames m (forkBase m parent child) := by
  have h₁ := (copyEntries_copied m hne 0 numPagKernel).toSameFrames
  have h₂ := (copyEntries_copied (copyEntries m parent child 0 numPagKernel) hne pagLogInitCode
    numPagCode).toSameFrames
  exact ⟨h₂.physMem.trans h₁.physMem, h₂.sharedPages.trans h₁.sharedPages, h₂.ram.trans h₁.ram⟩

theorem forkBase_inherited (m : Mm) (hne : parent ≠ child) {p : Nat} (hp : InheritedPage p) :
    (forkBase m parent child).pagusrTable child p = m.pagusrTable parent p := by
  have h₁ := copyEntries_copied m hne 0 numPagKernel
  have h₂ := copyEntries_copied (copyEntries m parent child 0 numPagKernel) hne pagLogInitCode numPagCode
  by_cases hc : CodePage p
  · rw [forkBase, h₂.copied p hc.1 hc.2, h₁.other parent p fun hc => hne hc.1]
  · rw [forkBase, h₂.other child p fun h => hc h.2]
    have hk := hp.resolve_right hc
    exact h₁.copied p (Nat.zero_le p) (by omega)

theorem forkBase_other (m : Mm) (hne : parent ≠ child) {u : Slot} {p : Nat}
    (hup : u ≠ child ∨ ¬ InheritedPage p) :
    (forkBase m parent child).pagusrTable u p = m.pagusrTable u p := by
  have h₁ := copyEntries_copied m hne 0 numPagKernel
  have h₂ := copyEntries_copied (copyEntries m parent child 0 numPagKernel) hne pagLogInitCode numPagCode
  rw [forkBase, h₂.other u p, h₁.other u p]
  · rintro ⟨hu, _, hp⟩
    exact hup.elim (fun h => h hu) fun h => h (.inl (by omega))
  · rintro ⟨hu, hp⟩
    exact hup.elim (fun h => h hu) fun h => h (.inr hp)

theorem Reserving.copyable {m' : Mm} {pages fr : Nat → Nat}
    (h : Reserving m m' parent child numPagData pages fr) (hne : parent ≠ child)
    (hpresent : ∀ p, DataPage p → (m.pagusrTable parent p).present = true)
    (htaken : ∀ p, DataPage p → m.physMem (m.pagusrTable parent p).pbaseAddr ≠ 0) :
    Copyable m' parent pages fr := by
  have hdata : ∀ i, i < numPagData → DataPage (pagLogInitData + i) :=
    fun i hi => ⟨by omega, by omega⟩
  have hsame : ∀ i, i < numPagData →
      m'.pagusrTable parent (pagLogInitData + i) = m.pagusrTable parent (pagLogInitData + i) := by
    intro i hi
    apply h.other
    · exact fun hc => absurd hc hne
    · intro _ j hj he
      have hreg := (mem_freeRegion.mp (h.page j hj)).1
      rw [← he] at hreg
      exact (region_disjoint hreg).1 (hdata i hi)
  refine ⟨fun i hi => (mem_freeRegion.mp (h.page i hi)).1, h.page_inj, ?_, ?_, h.fresh_inj, ?_⟩
  · intro i hi
    rw [hsame i hi]
    exact hpresent _ (hdata i hi)
  · intro i hi
    refine ⟨(mem_freeRegion.mp (h.page i hi)).1.2, ?_, ?_⟩
    · rw [h.ofParent i hi]
      rfl
    · rw [h.ofParent i hi]
      exact ssEntry_pbaseAddr (h.fresh i hi).upper
  · intro i j hi hj he
    rw [hsame i hi] at he
    apply htaken _ (hdata i hi)
    rw [he]
    exact (h.fresh j hj).free

theorem Reserving.duplicated {m₁ m₂ : Mm} {pages fr : Nat → Nat}
    (h : Reserving (forkBase m parent child) m₁ parent child numPagData pages fr) (hne : parent ≠ child)
    (hc : CopiedFrames m₁ m₂ parent pages fr numPagData) : Duplicated m m₂ parent child fr := by
  have hb := forkBase_sameFrames m hne
  have hfree : ∀ i, i < numPagData → FreeFrame m (fr i) := by
    intro i hi
    have hf := h.fresh i hi
    exact ⟨hf.lower, hf.upper, hf.even, by rw [← hb.physMem]; exact hf.free⟩
  have hparent : ∀ p, m₂.pagusrTable parent p = m.pagusrTable parent p := by
    intro p
    rw [← forkBase_other m hne (.inl hne)]
    by_cases hp : ∃ i, i < numPagData ∧ p = pages i
    · obtain ⟨i, hi, rfl⟩ := hp
      rw [hc.cleared i hi]
      exact (mem_freeRegion.mp (h.page i hi)).2.symm
    · have hno : ∀ i, i < numPagData → p ≠ pages i := fun i hi he => hp ⟨i, hi, he⟩
      rw [hc.other parent p (.inr hno)]
      exact h.other parent p (fun hc => absurd hc hne) fun _ => hno
  have hchild : ∀ p, ¬ DataPage p →
      m₂.pagusrTable child p = (forkBase m parent child).pagusrTable child p := by
    intro p hp
    rw [hc.other child p (.inl hne.symm)]
    refine h.other child p (fun _ i hi he => hp ?_) fun hc => absurd hc.symm hne
    rw [he]
    exact ⟨by omega, by omega⟩
  have hsource : ∀ i, i < numPagData → m₁.pagusrTable parent (pagLogInitData + i) =
      m.pagusrTable parent (pagLogInitData + i) := by
    intro i hi
    rw [← hparent, hc.other parent _ (.inr ?_)]
    intro j hj he
    have hreg := (mem_freeRegion.mp (h.page j hj)).1
    rw [← he] at hreg
    exact (region_disjoint hreg).1 ⟨by omega, by omega⟩
  refine ⟨hfree, h.fresh_inj, ?_, ?_, ?_, ?_, ?_, ?_, ?_, ?_, ?_⟩
  · intro i hi
    rw [hc.other child _ (.inl hne.symm)]
    exact h.ofChild i hi
  · intro p hp
    rw [hchild p (inherited_not_data hp), forkBase_inherited m hne hp]
  · intro p hp hd
    rw [hchild p hd, forkBase_other m hne (.inr hp)]
  · intro u p hu
    by_cases hup : u = parent
    · rw [hup]
      exact hparent p
    · rw [hc.other u p (.inl hup), h.other u p (fun hc => absurd hc hu) (fun hc => absurd hc hup)]
      exact forkBase_other m hne (.inl hu)
  · intro i hi
    rw [hc.done i hi, hsource i hi, h.ram, hb.ram]
  · intro f hf
    rw [hc.ram_other f hf, h.ram, hb.ram]
  · intro i hi
    rw [hc.physMem]
    exact h.taken i hi
  · intro f hf
    rw [hc.physMem, h.count f hf, hb.physMem]
  · rw [hc.sharedPages, h.sharedPages, hb.sharedPages]

/-- Both ways a fork can go: the child gets its copies, or the parent has too few free
pages for the copying, and keeps the temporary pages it had got so far. -/
theorem forkMemory_eager (hs : SharedFrames m) (hne : parent ≠ child)
    (hroom : (usedFrames m).card + numPagData ≤ frameRoom)
    (hpresent : ∀ p, DataPage p → (m.pagusrTable parent p).present = true)
    (htaken : ∀ p, DataPage p → m.physMem (m.pagusrTable parent p).pbaseAddr ≠ 0) :
    (∃ m' fr, forkMemory false m parent child = .ok (m', true) ∧ Duplicated m m' parent child fr) ∨
    ∃ m' pages fr k, k < numPagData ∧ forkMemory false m parent child = .ok (m', false) ∧
      Reserving (forkBase m parent child) m' parent child k pages fr ∧
      (freeRegion m parent).card ≤ k := by
  have hb := forkBase_sameFrames m hne
  have hparent : ∀ p, (forkBase m parent child).pagusrTable parent p = m.pagusrTable parent p :=
    fun p => forkBase_other m hne (.inl hne)
  have hused : usedFrames (forkBase m parent child) = usedFrames m := by
    rw [usedFrames, usedFrames, hb.physMem]
  have hregion : freeRegion (forkBase m parent child) parent = freeRegion m parent := by
    simp only [freeRegion, hparent]
  obtain ⟨m₁, pages, fr, ⟨hok, hr⟩ | ⟨k, hk, hok, hr, hcard⟩⟩ :=
    forkReserve_reserves (m := forkBase m parent child) hne (by rw [hused]; exact hroom)
  · have hcopy := hr.copyable hne (fun p hp => by rw [hparent]; exact hpresent p hp)
      (fun p hp => by rw [hparent, hb.physMem]; exact htaken p hp)
    obtain ⟨m₂, hok₂, hc⟩ := forkCopy_copied hcopy
    have hdup := hr.duplicated hne hc
    have hshared : SharedFrames m₂ := by
      intro id hid
      rw [hdup.sharedPages]
      exact hs id hid
    refine .inl ⟨m₂, fr, ?_, hdup⟩
    change (eagerData (forkBase m parent child) parent child >>= _) = _
    unfold eagerData
    simp only [hok, ok_bind, hok₂, pure_eq_ok, forkShared_eq hshared]
  · rw [hregion] at hcard
    refine .inr ⟨m₁, pages, fr, k, hk, ?_, hr, hcard⟩
    change (eagerData (forkBase m parent child) parent child >>= _) = _
    unfold eagerData
    simp only [hok, ok_bind, pure_eq_ok]

end Fork

end Zeos
