import Zeos.Memory
import Zeos.Duplication

/-!
# Data pages in frames of their own

Without `USE_COW` every process has its data pages in frames that no other entry of
any page table maps, also when processes attach, detach and access addresses that lie
outside of their tables. One lemma covers all changes that give no frame back: it asks
of each entry where it comes from.
-/

namespace Zeos

open LinkedRings Loops
set_option autoImplicit false

/-- Frames that are taken at boot for good: of the kernel, of shared pages, of code. -/
def BaseFrame (f : Nat) : Prop := f < numPagKernel ∨ FixedFrame f

/-- An entry that maps a frame of the allocator that is no base frame. -/
structure OwnEntry (e : PageTableEntry) : Prop where
  present : e.present = true
  lower : 292 ≤ e.pbaseAddr
  upper : e.pbaseAddr < totalPages
  even : e.pbaseAddr % 2 = 0

/-- The data pages of the slots in `live` have frames of their own. -/
structure SeparateFrames (m : Mm) (live : Slot → Prop) : Prop where
  shared : SharedFrames m
  base : ∀ f, BaseFrame f → m.physMem f = 1
  taken : ∀ t p, m.physMem (m.pagusrTable t p).pbaseAddr = 1
  data : ∀ t p, live t → DataPage p → OwnEntry (m.pagusrTable t p)
  owner : ∀ t p u q, live t → DataPage p →
    (m.pagusrTable u q).pbaseAddr = (m.pagusrTable t p).pbaseAddr → u = t ∧ q = p
  readOnly : ∀ t p, m.pagusrTable t p ≠ .zero → (m.pagusrTable t p).rw = true ∨
    FixedFrame (m.pagusrTable t p).pbaseAddr

/-- Where the entry of page `q` in table `u` of `m'` comes from: it is that of a table
of `m`, it maps a frame that was free in `m`, or it maps a base frame. -/
inductive EntryFrom (m m' : Mm) (u : Slot) (q : Nat) : Prop where
  | kept (v : Slot) (he : m'.pagusrTable u q = m.pagusrTable v q) (hd : DataPage q → v = u)
  | fresh (f : Nat) (hf : FreeFrame m f) (ht : m'.physMem f = 1) (he : m'.pagusrTable u q = ssEntry f)
  | base (hf : BaseFrame (m'.pagusrTable u q).pbaseAddr)
      (hrw : m'.pagusrTable u q ≠ .zero → (m'.pagusrTable u q).rw = true)

/-- A data page of a live table keeps its frame, or maps a free one that nobody else maps. -/
inductive DataFrom (m m' : Mm) (live : Slot → Prop) (t : Slot) (p : Nat) : Prop where
  | kept (hl : live t) (he : m'.pagusrTable t p = m.pagusrTable t p)
  | fresh (f : Nat) (hf : FreeFrame m f) (he : m'.pagusrTable t p = ssEntry f)
      (ho : ∀ u q, (m'.pagusrTable u q).pbaseAddr = f → u = t ∧ q = p)

namespace SeparateFrames
variable {m m' : Mm} {live live' : Slot → Prop}

theorem mono (h : SeparateFrames m live) (hl : ∀ t, live' t → live t) : SeparateFrames m live' where
  shared := h.shared
  base := h.base
  taken := h.taken
  data t p ht := h.data t p (hl t ht)
  owner t p u q ht := h.owner t p u q (hl t ht)
  readOnly := h.readOnly

theorem base_apart (h : SeparateFrames m live) {f : Nat} (hf : BaseFrame f) {t : Slot} {p : Nat}
    (ht : live t) (hp : DataPage p) : (m.pagusrTable t p).pbaseAddr ≠ f := by
  rintro rfl
  have hl := (h.data t p ht hp).lower
  simp only [BaseFrame, FixedFrame, numPagKernel] at hf
  omega

theorem fresh_own (h : SeparateFrames m live) {f : Nat} (hf : FreeFrame m f) : OwnEntry (ssEntry f) := by
  have hpb := ssEntry_pbaseAddr hf.upper
  refine ⟨rfl, ?_, ?_, ?_⟩
  · rw [hpb]
    by_contra hlt
    have := h.base f (.inr ⟨hf.lower, by omega, hf.even⟩)
    rw [hf.free] at this
    cases this
  · rw [hpb]
    exact hf.upper
  · rw [hpb]
    exact hf.even

theorem taken_not_fresh (h : SeparateFrames m live) {f : Nat} (hf : FreeFrame m f) (t : Slot) (p : Nat) :
    (m.pagusrTable t p).pbaseAddr ≠ f := by
  rintro rfl
  have := h.taken t p
  rw [hf.free] at this
  cases this

/-- The one argument for all changes that give no frame back. -/
theorem transfer (h : SeparateFrames m live) (hs : SharedFrames m')
    (hcount : ∀ f, m.physMem f = 1 → m'.physMem f = 1) (hentry : ∀ u q, EntryFrom m m' u q)
    (hdata : ∀ t p, live' t → DataPage p → DataFrom m m' live t p) : SeparateFrames m' live' where
  shared := hs
  base f hf := hcount f (h.base f hf)
  taken := by
    intro t p
    cases hentry t p with
    | kept v he _ =>
      rw [he]
      exact hcount _ (h.taken v p)
    | fresh f hf ht he =>
      rw [he, ssEntry_pbaseAddr hf.upper]
      exact ht
    | base hf _ => exact hcount _ (h.base _ hf)
  data := by
    intro t p ht hp
    cases hdata t p ht hp with
    | kept hl he =>
      rw [he]
      exact h.data t p hl hp
    | fresh f hf he _ =>
      rw [he]
      exact h.fresh_own hf
  owner := by
    intro t p u q ht hp he
    cases hdata t p ht hp with
    | fresh f hf hsame ho =>
      rw [hsame, ssEntry_pbaseAddr hf.upper] at he
      exact ho u q he
    | kept hl hsame =>
      rw [hsame] at he
      cases hentry u q with
      | kept v hv hd =>
        rw [hv] at he
        obtain ⟨hvt, hqp⟩ := h.owner t p v q hl hp he
        exact ⟨(hd (hqp ▸ hp)).symm.trans hvt, hqp⟩
      | fresh f hf _ hnew =>
        rw [hnew, ssEntry_pbaseAddr hf.upper] at he
        exact absurd he.symm (h.taken_not_fresh hf t p)
      | base hf _ => exact absurd he.symm (h.base_apart hf hl hp)
  readOnly := by
    intro t p hz
    cases hentry t p with
    | kept v he _ =>
      rw [he] at hz ⊢
      exact h.readOnly v p hz
    | fresh f _ _ he =>
      rw [he]
      exact .inl rfl
    | base _ hrw => exact .inl (hrw hz)

theorem congr (h : SeparateFrames m live) (hp : m'.physMem = m.physMem)
    (hs : ∀ id, (m'.sharedPages id).frame = (m.sharedPages id).frame)
    (ht : m'.pagusrTable = m.pagusrTable) : SeparateFrames m' live := by
  apply h.transfer
  · intro id hid
    rw [hs]
    exact h.shared id hid
  · intro f hf
    rw [hp]
    exact hf
  · exact fun u q => .kept u (by rw [ht]) fun _ => rfl
  · exact fun t p hl _ => .kept hl (by rw [ht])

theorem sameTables (h : SeparateFrames m live) (hs : SameTables m m') : SeparateFrames m' live :=
  h.congr hs.physMem (fun id => by rw [hs.sharedPages]) hs.pagusrTable

theorem setBase (h : SeparateFrames m live) {t : Slot} {p : Nat} {e : PageTableEntry}
    (hd : live t → ¬ DataPage p) (he : BaseFrame e.pbaseAddr) (hrw : e ≠ .zero → e.rw = true) :
    SeparateFrames (m.setEntry t p e) live := by
  refine h.transfer h.shared (fun f hf => hf) ?_ ?_
  · intro u q
    by_cases hc : u = t ∧ q = p
    · obtain ⟨rfl, rfl⟩ := hc
      refine .base ?_ ?_
      · rw [Mm.setEntry_same]
        exact he
      · rw [Mm.setEntry_same]
        exact hrw
    · exact .kept u (by rw [Mm.setEntry_table, if_neg hc]) fun _ => rfl
  · intro u q hl hq
    refine .kept hl ?_
    rw [Mm.setEntry_table, if_neg]
    rintro ⟨rfl, rfl⟩
    exact hd hl hq

theorem zero_base : BaseFrame PageTableEntry.zero.pbaseAddr :=
  .inl (by decide)

theorem clear (h : SeparateFrames m live) {t : Slot} {p : Nat} (hd : live t → ¬ DataPage p) :
    SeparateFrames (m.setEntry t p .zero) live :=
  h.setBase hd zero_base fun hz => absurd rfl hz

theorem setShared (h : SeparateFrames m live) {idx : Nat} {p : SharedPage}
    (hp : p.frame = (m.sharedPages idx).frame) : SeparateFrames (setShared m idx p) live :=
  h.congr rfl (setShared_frame hp) rfl

theorem addRefs (h : SeparateFrames m live) (idx : Nat) (d : Int) : SeparateFrames (addRefs m idx d) live :=
  h.setShared (by rfl)

theorem shared_base {id : Nat} (hid : id < numSharedPages) : BaseFrame (256 + 2 * id) := by
  simp only [BaseFrame, FixedFrame, numSharedPages, numPagKernel] at hid ⊢
  omega

theorem shmat {k k' : Kernel} {id r : Int} {addr : Nat} (h : SeparateFrames k.mm live)
    (hok : sysShmat k id addr = .ok (r, k')) :
    SeparateFrames k'.mm live ∧ k'.mm.physMem = k.mm.physMem := by
  rcases sysShmat_eq_ok hok with ⟨_, rfl⟩ | ⟨pt, page, m, hid, hpos, _, hpage, hm, _, rfl⟩
  · exact ⟨h, rfl⟩
  · obtain ⟨⟨t, p⟩, hidx, hz⟩ := bind_eq_ok.mp (shmatPage_zero hpage hpos)
    rw [setSsPag, writePte, hidx] at hm
    cases hm
    have hzero : k.mm.pagusrTable t p = .zero := Except.ok.inj hz
    have hlt : id.toNat < numSharedPages := by
      simp only [numSharedPages]
      omega
    have hpb : (ssEntry (256 + 2 * id.toNat)).pbaseAddr = 256 + 2 * id.toNat := by
      apply ssEntry_pbaseAddr
      simp only [numSharedPages, totalPages] at hlt ⊢
      omega
    refine ⟨SeparateFrames.addRefs ?_ _ _, rfl⟩
    rw [h.shared.uint32 hlt]
    apply h.setBase
    · intro hl hp
      have hpr := (h.data t p hl hp).present
      rw [hzero] at hpr
      cases hpr
    · rw [hpb]
      exact shared_base hlt
    · exact fun _ => rfl

theorem shmdt {k k' : Kernel} {r : Int} {addr : Nat} (h : SeparateFrames k.mm live)
    (hok : sysShmdt k addr = .ok (r, k')) :
    SeparateFrames k'.mm live ∧ k'.mm.physMem = k.mm.physMem := by
  rcases sysShmdt_eq_ok hok with ⟨_, rfl⟩ | ⟨pt, e, m, m', _, he, _, hshared, hs, hdel, _, rfl⟩
  · exact ⟨h, rfl⟩
  · obtain ⟨⟨t, p⟩, hidx, he⟩ := bind_eq_ok.mp he
    cases he
    rw [delSsPag, writePte, hidx] at hdel
    cases hdel
    refine ⟨((h.addRefs _ _).sameTables hs.tables).clear ?_, hs.tables.physMem⟩
    intro hl hp
    apply hshared
    apply isFrameShared_unshared h.shared
    intro id hid
    exact h.base_apart (shared_base hid) hl hp

/-- Only entries of base frames lack `rw`, and their frames have one reference: the
handler never copies. -/
theorem pgfRoutine {pt : Slot} {addr : Nat} (h : SeparateFrames m live)
    (hok : pgfRoutine m pt addr = .ok m') : SeparateFrames m' live ∧ m'.physMem = m.physMem := by
  obtain ⟨t, p, _, _, hz, hno, hdone⟩ := pgfRoutine_eq_ok hok
  have hfix : FixedFrame (m.pagusrTable t p).pbaseAddr := by
    rcases h.readOnly t p hz with hrw | hfix
    · rw [hno] at hrw
      cases hrw
    · exact hfix
  rcases hdone with ⟨_, rfl⟩ | ⟨hmany, _⟩
  · refine ⟨h.setBase ?_ ?_ ?_, rfl⟩
    · exact fun hl hp => h.base_apart (.inr hfix) hl hp rfl
    · exact .inr hfix
    · exact fun _ => rfl
  · exact absurd (h.base _ (.inr hfix)) hmany

theorem userRetry {pt : Slot} {addr : Nat} {write may : Bool} (h : SeparateFrames m live)
    (hok : userRetry m pt addr write = .ok (may, m')) :
    SeparateFrames m' live ∧ m'.physMem = m.physMem := by
  rcases userRetry_eq_ok hok with ⟨_, rfl⟩ | ⟨_, hm, _⟩
  · exact ⟨h, rfl⟩
  · exact h.pgfRoutine hm

theorem duplicated {parent child : Slot} {fr : Nat → Nat} (h : SeparateFrames m live)
    (hl : ∀ t, live' t → t = child ∨ live t) (hd : Duplicated m m' parent child fr) :
    SeparateFrames m' live' := by
  -- a free frame is mapped by the page that it was taken for, and by no other
  have hold : ∀ {u q i}, i < numPagData → (u ≠ child ∨ ¬ DataPage q) →
      (m'.pagusrTable u q).pbaseAddr ≠ fr i := by
    intro u q i hi huq
    by_cases hu : u = child
    · subst hu
      have hq := huq.resolve_left (not_not.mpr rfl)
      by_cases hin : InheritedPage q
      · rw [hd.inherited q hin]
        exact h.taken_not_fresh (hd.fresh i hi) parent q
      · rw [hd.rest q hin hq]
        exact h.taken_not_fresh (hd.fresh i hi) u q
    · rw [hd.other u q hu]
      exact h.taken_not_fresh (hd.fresh i hi) u q
  apply h.transfer
  · intro id hid
    rw [hd.sharedPages]
    exact h.shared id hid
  · intro f hf
    rw [hd.count f, hf]
    rintro i hi rfl
    rw [(hd.fresh i hi).free] at hf
    cases hf
  · intro u q
    by_cases hu : u = child
    · subst hu
      by_cases hq : DataPage q
      · have hi := (dataPage_index hq).1
        exact .fresh _ (hd.fresh _ hi) (hd.taken _ hi) (hd.data_page hq)
      · by_cases hin : InheritedPage q
        · exact .kept parent (hd.inherited q hin) fun hc => absurd hc hq
        · exact .kept u (hd.rest q hin hq) fun _ => rfl
    · exact .kept u (hd.other u q hu) fun _ => rfl
  · intro t p ht hp
    by_cases htc : t = child
    · subst htc
      have hi := (dataPage_index hp).1
      refine .fresh _ (hd.fresh _ hi) (hd.data_page hp) ?_
      intro u q hf
      by_cases huq : u = t ∧ DataPage q
      · obtain ⟨rfl, hq⟩ := huq
        have hj := (dataPage_index hq).1
        rw [hd.data_page hq, ssEntry_pbaseAddr (hd.fresh _ hj).upper] at hf
        have := hd.fresh_inj _ _ hj hi hf
        have := hp.1
        have := hq.1
        exact ⟨rfl, by omega⟩
      · exact absurd hf (hold hi (not_and_or.mp huq))
    · exact .kept ((hl t ht).resolve_left htc) (hd.other t p htc)

theorem forkBase {parent child : Slot} (h : SeparateFrames m live) (hne : parent ≠ child)
    (hc : ¬ live child) : SeparateFrames (forkBase m parent child) live := by
  have hb := forkBase_sameFrames m hne
  apply h.transfer
  · intro id hid
    rw [hb.sharedPages]
    exact h.shared id hid
  · intro f hf
    rw [hb.physMem]
    exact hf
  · intro u q
    by_cases hin : u = child ∧ InheritedPage q
    · obtain ⟨rfl, hin⟩ := hin
      exact .kept parent (forkBase_inherited m hne hin) fun hq => absurd hq (inherited_not_data hin)
    · exact .kept u (forkBase_other m hne (not_and_or.mp hin)) fun _ => rfl
  · intro t p ht _
    exact .kept ht (forkBase_other m hne (.inl fun he => hc (he ▸ ht)))

/-- A fork that ran out of pages: the frames it took are lost, but not mixed up. -/
theorem reserving {parent child : Slot} {n : Nat} {pages fr : Nat → Nat} (h : SeparateFrames m live)
    (hc : ¬ live child) (hr : Reserving m m' parent child n pages fr) :
    SeparateFrames m' live := by
  apply h.transfer
  · intro id hid
    rw [hr.sharedPages]
    exact h.shared id hid
  · intro f hf
    rw [hr.count f, hf]
    rintro i hi rfl
    rw [(hr.fresh i hi).free] at hf
    cases hf
  · intro u q
    by_cases hchild : u = child ∧ ∃ i, i < n ∧ q = pagLogInitData + i
    · obtain ⟨rfl, i, hi, rfl⟩ := hchild
      exact .fresh (fr i) (hr.fresh i hi) (hr.taken i hi) (hr.ofChild i hi)
    · by_cases hparent : u = parent ∧ ∃ i, i < n ∧ q = pages i
      · obtain ⟨rfl, i, hi, rfl⟩ := hparent
        exact .fresh (fr i) (hr.fresh i hi) (hr.taken i hi) (hr.ofParent i hi)
      · refine .kept u (hr.other u q ?_ ?_) fun _ => rfl
        · exact fun hu i hi he => hchild ⟨hu, i, hi, he⟩
        · exact fun hu i hi he => hparent ⟨hu, i, hi, he⟩
  · intro t p ht hp
    refine .kept ht (hr.other t p ?_ ?_)
    · exact fun he => absurd ht (he ▸ hc)
    · intro _ i hi he
      apply (region_disjoint (mem_freeRegion.mp (hr.page i hi)).1).1
      rw [← he]
      exact hp

end SeparateFrames

/-- The first `n` data pages of `t` are released, and their frames are free. -/
structure FreedFrames (m m' : Mm) (t : Slot) (n : Nat) : Prop extends Released m m' t n where
  freed : ∀ i, i < n → m'.physMem (m.pagusrTable t (pagLogInitData + i)).pbaseAddr = 0
  count : ∀ f, (∀ i, i < n → f ≠ (m.pagusrTable t (pagLogInitData + i)).pbaseAddr) →
    m'.physMem f = m.physMem f

namespace SeparateFrames
variable {m m' : Mm} {live live' : Slot → Prop}

theorem freeUserPages_freed {t : Slot} (h : SeparateFrames m live) (ht : live t) :
    FreedFrames m (freeUserPages m t) t numPagData := by
  refine times_preserves (fun i m' => FreedFrames m m' t i) ?_
    ⟨⟨fun i hi => absurd hi (Nat.not_lt_zero i), fun _ _ _ => rfl, rfl, rfl⟩,
      fun i hi => absurd hi (Nat.not_lt_zero i), fun _ _ => rfl⟩
  intro i m' hi hm
  have hdata : ∀ j, j < numPagData → DataPage (pagLogInitData + j) :=
    fun j hj => ⟨by omega, by omega⟩
  have hsame : m'.pagusrTable t (pagLogInitData + i) = m.pagusrTable t (pagLogInitData + i) :=
    hm.other t _ (.inr fun j hj => by omega)
  have hne : ∀ j, j < i → (m.pagusrTable t (pagLogInitData + i)).pbaseAddr ≠
      (m.pagusrTable t (pagLogInitData + j)).pbaseAddr := by
    intro j hj he
    have := (h.owner t _ t _ ht (hdata j (by omega)) he).2
    omega
  have hown := h.data t _ ht (hdata i hi)
  have hphys : (freeFrame m' (m.pagusrTable t (pagLogInitData + i)).pbaseAddr).physMem =
      Function.update m'.physMem (m.pagusrTable t (pagLogInitData + i)).pbaseAddr 0 := by
    have hin : numPagKernel < (m.pagusrTable t (pagLogInitData + i)).pbaseAddr := by
      have := hown.lower
      simp only [numPagKernel]
      omega
    rw [freeFrame, if_pos ⟨hin, hown.upper⟩]
    change Function.update m'.physMem _ ((m'.physMem _ + 255) % 256) = _
    rw [hm.count _ hne, h.taken]
  rw [hsame]
  refine ⟨hm.toReleased.step _, ?_, ?_⟩
  · intro j hj
    rw [Mm.setEntry_physMem, hphys]
    by_cases hji : j = i
    · rw [hji, Function.update_self]
    · rw [Function.update_of_ne (hne j (by omega)).symm]
      exact hm.freed j (by omega)
  · intro f hf
    rw [Mm.setEntry_physMem, hphys, Function.update_of_ne (hf i (by omega))]
    exact hm.count f fun j hj => hf j (by omega)

theorem freed {t : Slot} (h : SeparateFrames m live) (ht : live t)
    (hl : ∀ u, live' u → live u ∧ u ≠ t) (hf : FreedFrames m m' t numPagData) :
    SeparateFrames m' live' := by
  have hdata : ∀ i, i < numPagData → DataPage (pagLogInitData + i) :=
    fun i hi => ⟨by omega, by omega⟩
  have hsame : ∀ u p, ¬ (u = t ∧ DataPage p) → m'.pagusrTable u p = m.pagusrTable u p := by
    intro u p hup
    exact KernelInv.Released.data_other hf.toReleased (not_and_or.mp hup)
  have hzero : ∀ p, DataPage p → m'.pagusrTable t p = .zero :=
    fun p hp => KernelInv.Released.data_zero hf.toReleased hp
  have hcount : ∀ u p, ¬ (u = t ∧ DataPage p) → m'.physMem (m.pagusrTable u p).pbaseAddr = 1 := by
    intro u p hup
    rw [hf.count, h.taken]
    intro i hi he
    obtain ⟨hu, hp⟩ := h.owner t _ u p ht (hdata i hi) he
    exact hup ⟨hu, hp ▸ hdata i hi⟩
  have hbase : ∀ f, BaseFrame f → m'.physMem f = 1 := by
    intro f hb
    rw [hf.count, h.base f hb]
    intro i hi
    exact (h.base_apart hb ht (hdata i hi)).symm
  refine ⟨?_, hbase, ?_, ?_, ?_, ?_⟩
  · intro id hid
    rw [hf.sharedPages]
    exact h.shared id hid
  · intro u p
    by_cases hup : u = t ∧ DataPage p
    · rw [hup.1, hzero p hup.2]
      exact hbase _ zero_base
    · rw [hsame u p hup]
      exact hcount u p hup
  · intro u p hu hp
    rw [hsame u p fun hc => (hl u hu).2 hc.1]
    exact h.data u p (hl u hu).1 hp
  · intro u p v q hu hp he
    rw [hsame u p fun hc => (hl u hu).2 hc.1] at he
    by_cases hvq : v = t ∧ DataPage q
    · rw [hvq.1, hzero q hvq.2] at he
      exact absurd he.symm (h.base_apart zero_base (hl u hu).1 hp)
    · rw [hsame v q hvq] at he
      exact h.owner u p v q (hl u hu).1 hp he
  · intro u p hz
    by_cases hup : u = t ∧ DataPage p
    · rw [hup.1, hzero p hup.2] at hz
      exact absurd rfl hz
    · rw [hsame u p hup] at hz ⊢
      exact h.readOnly u p hz

theorem usedFrames_freed {t : Slot} (h : SeparateFrames m live) (ht : live t)
    (hf : FreedFrames m m' t numPagData) : (usedFrames m').card + numPagData ≤ (usedFrames m).card := by
  have hdata : ∀ i, i < numPagData → DataPage (pagLogInitData + i) :=
    fun i hi => ⟨by omega, by omega⟩
  have hinj : Set.InjOn (fun i => (m.pagusrTable t (pagLogInitData + i)).pbaseAddr)
      (Finset.range numPagData : Set Nat) := by
    intro i _ j hj he
    have := (h.owner t _ t _ ht (hdata j (Finset.mem_range.mp (Finset.mem_coe.mp hj))) he).2
    omega
  have hdisj : Disjoint (usedFrames m')
      ((Finset.range numPagData).image fun i => (m.pagusrTable t (pagLogInitData + i)).pbaseAddr) := by
    rw [Finset.disjoint_left]
    intro f hused himage
    obtain ⟨i, hi, he⟩ := Finset.mem_image.mp himage
    have h0 := hf.freed i (Finset.mem_range.mp hi)
    rw [he] at h0
    exact (mem_usedFrames.mp hused).2.2.2 h0
  have hsub : usedFrames m' ∪
      ((Finset.range numPagData).image fun i => (m.pagusrTable t (pagLogInitData + i)).pbaseAddr) ⊆
      usedFrames m := by
    intro f hmem
    by_cases hi : ∃ i, i < numPagData ∧ f = (m.pagusrTable t (pagLogInitData + i)).pbaseAddr
    · obtain ⟨i, hi, rfl⟩ := hi
      have hown := h.data t _ ht (hdata i hi)
      refine mem_usedFrames.mpr ⟨?_, hown.upper, hown.even, ?_⟩
      · have := hown.lower
        simp only [numPagKernel]
        omega
      · rw [h.taken]
        decide
    · have hno : ∀ i, i < numPagData → f ≠ (m.pagusrTable t (pagLogInitData + i)).pbaseAddr :=
        fun i hlt he => hi ⟨i, hlt, he⟩
      rcases Finset.mem_union.mp hmem with hmem | hmem
      · rw [mem_usedFrames, hf.count f hno] at hmem
        exact mem_usedFrames.mpr hmem
      · obtain ⟨i, hlt, he⟩ := Finset.mem_image.mp hmem
        exact absurd he.symm (hno i (Finset.mem_range.mp hlt))
  have hcard := Finset.card_le_card hsub
  rw [Finset.card_union_of_disjoint hdisj, Finset.card_image_of_injOn hinj, Finset.card_range] at hcard
  exact hcard

theorem boot_entry {u : Slot} {p : Nat} {e : PageTableEntry}
    (he : e = if u = 8 ∧ CodePage p then codeEntry (276 + 2 * (p - pagLogInitCode)) else kernelEntry p) :
    BaseFrame e.pbaseAddr ∧ (e ≠ .zero → e.rw = true ∨ FixedFrame e.pbaseAddr) := by
  split at he
  · rename_i hc
    have hpb : e.pbaseAddr = 276 + 2 * (p - pagLogInitCode) := by
      rw [he]
      change (276 + 2 * (p - pagLogInitCode)) % 1048576 = _
      have := hc.2.2
      simp only [numPagCode] at this
      omega
    have hfix : FixedFrame e.pbaseAddr := by
      rw [hpb]
      have := hc.2.2
      simp only [numPagCode, FixedFrame, numPagKernel] at this ⊢
      omega
    exact ⟨.inr hfix, fun _ => .inr hfix⟩
  · rw [kernelEntry] at he
    split at he
    · rename_i hk
      rw [he]
      exact ⟨.inl hk.2, fun _ => .inl rfl⟩
    · rw [he]
      exact ⟨zero_base, fun hz => absurd rfl hz⟩

theorem booted (hinv : FrameInv false m) (hal : Allocated m 38)
    (hdata : ∀ p, DataPage p → m.pagusrTable 8 p ≠ .zero)
    (hrest : ∀ u p, ¬ (u = 8 ∧ DataPage p) → m.pagusrTable u p =
      if u = 8 ∧ CodePage p then codeEntry (276 + 2 * (p - pagLogInitCode)) else kernelEntry p) :
    SeparateFrames m (· = 8) := by
  have hbase : ∀ f, BaseFrame f → m.physMem f = 1 := by
    intro f hf
    rw [hal f, if_pos]
    simp only [BaseFrame, FixedFrame, numPagKernel] at hf
    omega
  have hentry : ∀ p, DataPage p → DataEntry false (m.pagusrTable 8 p) :=
    fun p hp => (hinv.data 8 p hp).resolve_left (hdata p hp)
  have hused : ∀ p, DataPage p → (m.pagusrTable 8 p).pbaseAddr % 2 = 0 ∧
      m.physMem (m.pagusrTable 8 p).pbaseAddr = 1 := by
    intro p hp
    have hd := hentry p hp
    have hl := hd.lower
    have hcount := hinv.count (m.pagusrTable 8 p).pbaseAddr (by simp only [numPagKernel]; omega)
    have hpos : 0 < dataRefs m (m.pagusrTable 8 p).pbaseAddr :=
      Holders.refs_pos (i := ((8 : Slot), p)) (mem_dataPlaces.mpr hp) (frame?_of_present hd.present)
    have hone := hal (m.pagusrTable 8 p).pbaseAddr
    split at hone
    · rename_i hc
      exact ⟨by omega, hone⟩
    · omega
  refine ⟨hinv.shared_frame, hbase, ?_, ?_, ?_, ?_⟩
  · intro t p
    by_cases htp : t = 8 ∧ DataPage p
    · rw [htp.1]
      exact (hused p htp.2).2
    · exact hbase _ (boot_entry (hrest t p htp)).1
  · rintro t p rfl hp
    have hd := hentry p hp
    exact ⟨hd.present, hd.lower, hd.upper, (hused p hp).1⟩
  · rintro t p u q rfl hp he
    have hd := hentry p hp
    by_cases huq : u = 8 ∧ DataPage q
    · obtain ⟨rfl, hq⟩ := huq
      apply hinv.owner 8 p 8 q hp hq (hd.eager_rw rfl)
      rw [frame?_of_present hd.present, frame?_of_present (hentry q hq).present, he]
    · have hl := hd.lower
      have hb := (boot_entry (hrest u q huq)).1
      rw [he] at hb
      simp only [BaseFrame, FixedFrame, numPagKernel] at hb
      omega
  · intro t p hz
    by_cases htp : t = 8 ∧ DataPage p
    · rw [htp.1]
      exact .inl ((hentry p htp.2).eager_rw rfl)
    · exact (boot_entry (hrest t p htp)).2 hz

end SeparateFrames

theorem usedFrames_allocated {m : Mm} {k : Nat} (h : Allocated m k) : (usedFrames m).card ≤ k := by
  have hsub : usedFrames m ⊆ (Finset.range k).image fun i => 256 + 2 * i := by
    intro f hf
    rw [mem_usedFrames, h f] at hf
    obtain ⟨hl, _, heven, hone⟩ := hf
    simp only [numPagKernel] at hl
    have hlt : f < 256 + 2 * k := by
      by_contra hge
      exact hone (if_neg (by omega))
    exact Finset.mem_image.mpr ⟨(f - 256) / 2, Finset.mem_range.mpr (by omega), by omega⟩
  have := (Finset.card_le_card hsub).trans Finset.card_image_le
  rwa [Finset.card_range] at this

theorem CodeMapped.separate {image : Nat → Fin pageSize → UInt8} {m : Mm}
    (h : CodeMapped image m numPagCode) :
    SeparateFrames (setDataPages m 8) (· = 8) ∧ (usedFrames (setDataPages m 8)).card ≤ 38 := by
  have hd := setDataPages_spec (fun useCow => h.frameInv useCow) fun p hp => h.data_zero 8 hp
  have hb := hd.booted h
  exact ⟨.booted (hb.inv false) h.allocated_data hb.data fun _ _ => h.table_data,
    usedFrames_allocated h.allocated_data⟩

theorem bootMm_separate (image : Nat → Fin pageSize → UInt8) :
    SeparateFrames (bootMm image) (· = 8) ∧ (usedFrames (bootMm image)).card ≤ 38 :=
  (setCodePages_spec (initMm_spec image)).separate

end Zeos
