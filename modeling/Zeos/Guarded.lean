import Zeos.FrameCounts

/-!
# Guarded frames

An invariant of memory that survives every step, also one on an address outside
the page tables or in a process table that is in disorder: shared pages keep their
frames, and the frames of a set `G` of code frames stay allocated, are mapped without
`rw` and keep their contents. With all code frames it says that code is protected, and
with none it says only that shared pages do not move.
-/

namespace Zeos

open Loops
set_option autoImplicit false

/-- The frames that boot gives to the code of process 1. -/
def CodeFrame (f : Nat) : Prop := 276 ≤ f ∧ f < 292 ∧ f % 2 = 0

/-- What may stand in the entry of page `p` when it maps a guarded frame. -/
structure CodeMapping (p : Nat) (e : PageTableEntry) : Prop where
  page : CodePage p
  present : e.present = true
  user : e.user = true
  readOnly : e.rw = false

structure Guarded (G : Nat → Prop) (image : Nat → Fin pageSize → UInt8) (m : Mm) : Prop where
  code : ∀ f, G f → CodeFrame f
  shared : SharedFrames m
  entry : ∀ t p, p < totalPages → G (m.pagusrTable t p).pbaseAddr → CodeMapping p (m.pagusrTable t p)
  taken : ∀ f, G f → m.physMem f = 1
  bytes : ∀ f, G f → m.ram f = image f

namespace Guarded
variable {G : Nat → Prop} {image : Nat → Fin pageSize → UInt8} {m m' : Mm}

theorem spares (h : Guarded G image m) (hs : Spares G m m') : Guarded G image m' where
  code := h.code
  shared := by
    intro id hid
    rw [hs.tables.sharedPages]
    exact h.shared id hid
  entry := by
    rw [hs.tables.pagusrTable]
    exact h.entry
  taken := by
    rw [hs.tables.physMem]
    exact h.taken
  bytes f hf := (hs.ram f hf).trans (h.bytes f hf)

theorem outOf (h : Guarded G image m) {pt : Slot} {addr n : Nat}
    (hp : (∃ f, G f) → ∀ k < n, ¬ CodePage ((addr + k) / pageSize)) : OutOf G m pt addr n :=
  fun k hk hlt hG => hp ⟨_, hG⟩ k hk (h.entry _ _ hlt hG).page

theorem outOf_region (h : Guarded G image m) (pt : Slot) {q : Nat} (hq : SharedRegion q) :
    OutOf G m pt (q * pageSize) pageSize := by
  apply h.outOf
  intro _ k hk
  have hpage : (q * pageSize + k) / pageSize = q := by
    simp only [pageSize] at hk ⊢
    omega
  rw [hpage]
  exact (region_disjoint hq).2

theorem setEntry (h : Guarded G image m) {t : Slot} {p : Nat} {e : PageTableEntry}
    (he : G e.pbaseAddr → CodeMapping p e) : Guarded G image (m.setEntry t p e) where
  code := h.code
  shared := h.shared
  entry := by
    intro u q hq hG
    rw [Mm.setEntry_table] at hG ⊢
    split at hG
    · rename_i hc
      rw [if_pos hc, hc.2]
      exact he hG
    · rename_i hc
      rw [if_neg hc]
      exact h.entry u q hq hG
  taken := h.taken
  bytes := h.bytes

theorem not_zero (h : Guarded G image m) : ¬ G PageTableEntry.zero.pbaseAddr := by
  intro hG
  have h₁ : 276 ≤ 0 := (h.code _ hG).1
  omega

theorem not_ssEntry {f : Nat} (hf : ¬ G f) (hlt : f < 1048576) : ¬ G (ssEntry f).pbaseAddr := by
  change ¬ G (f % 1048576)
  rwa [Nat.mod_eq_of_lt hlt]

theorem writePte (h : Guarded G image m) {pt : Slot} {page : Nat} {e : PageTableEntry}
    (he : ¬ G e.pbaseAddr) (hok : writePte m pt page e = .ok m') : Guarded G image m' := by
  obtain ⟨⟨t, p⟩, _, hok⟩ := bind_eq_ok.mp hok
  cases hok
  exact h.setEntry fun hG => absurd hG he

theorem delSsPag (h : Guarded G image m) {pt : Slot} {page : Nat} (hok : delSsPag m pt page = .ok m') :
    Guarded G image m' :=
  h.writePte h.not_zero hok

theorem setCount (h : Guarded G image m) {f : Nat} (hf : ¬ G f) (n : Nat) :
    Guarded G image { m with physMem := Function.update m.physMem f n } where
  code := h.code
  shared := h.shared
  entry := h.entry
  taken := by
    intro g hg
    have hne : g ≠ f := fun he => hf (he ▸ hg)
    rw [← h.taken g hg]
    exact Function.update_of_ne hne n m.physMem
  bytes := h.bytes

theorem incFrame (h : Guarded G image m) {f : Nat} (hf : ¬ G f) : Guarded G image (incFrame m f) :=
  h.setCount hf _

theorem decFrame (h : Guarded G image m) {f : Nat} (hf : ¬ G f) : Guarded G image (decFrame m f) :=
  h.setCount hf _

theorem setShared (h : Guarded G image m) {idx : Nat} {p : SharedPage}
    (hp : p.frame = (m.sharedPages idx).frame) : Guarded G image (setShared m idx p) where
  code := h.code
  shared id hid := (setShared_frame hp id).trans (h.shared id hid)
  entry := h.entry
  taken := h.taken
  bytes := h.bytes

theorem addRefs (h : Guarded G image m) (idx : Nat) (d : Int) : Guarded G image (addRefs m idx d) :=
  h.setShared (by rfl)

theorem alloc (h : Guarded G image m) : Guarded G image (allocFrame m).2 ∧
    ((allocFrame m).1 < 0 ∨ ∃ f, ¬ G f ∧ f < 1048576 ∧ uint32 (allocFrame m).1 = f) := by
  rcases allocFrame_cases m with ⟨f, hf, hok⟩ | ⟨_, hok⟩
  · have hG : ¬ G f := by
      intro hG
      have := h.taken f hG
      rw [hf.free] at this
      cases this
    have hlt := hf.upper
    simp only [totalPages] at hlt
    rw [hok]
    refine ⟨h.incFrame hG, .inr ⟨f, hG, by omega, ?_⟩⟩
    unfold uint32
    omega
  · rw [hok]
    exact ⟨h, .inl (Int.negSucc_lt_zero 0)⟩

theorem data_frame (h : Guarded G image m) (t : Slot) {p : Nat} (hp : DataPage p) :
    ¬ G (m.pagusrTable t p).pbaseAddr :=
  fun hG => data_not_code hp (h.entry t p (data_lt hp) hG).page

theorem freeUserPages (h : Guarded G image m) (pt : Slot) : Guarded G image (freeUserPages m pt) := by
  refine times_preserves (fun _ => Guarded G image) ?_ h
  intro i m' hi h'
  have hp : DataPage (pagLogInitData + i) := ⟨by omega, by omega⟩
  have hfree : Guarded G image (freeFrame m' (m'.pagusrTable pt (pagLogInitData + i)).pbaseAddr) := by
    unfold freeFrame
    split
    · exact h'.decFrame (h'.data_frame pt hp)
    · exact h'
  exact hfree.setEntry fun hG => absurd hG h.not_zero

theorem copyEntries (h : Guarded G image m) (parent child : Slot) {base n : Nat}
    (hn : base + n ≤ totalPages) : Guarded G image (copyEntries m parent child base n) := by
  refine times_preserves (fun _ => Guarded G image) ?_ h
  intro i m' hi h'
  exact h'.setEntry fun hG => h'.entry parent (base + i) (by omega) hG

theorem dropRw (h : Guarded G image m) (t : Slot) {p : Nat} (hp : DataPage p) :
    Guarded G image (m.setEntry t p { m.pagusrTable t p with rw := false }) :=
  h.setEntry fun hG => absurd hG (h.data_frame t hp)

theorem cowData (h : Guarded G image m) (parent child : Slot) : Guarded G image (cowData m parent child) := by
  refine times_preserves (fun _ => Guarded G image) ?_ h
  intro i m' hi h'
  have hp : DataPage (pagLogInitData + i) := ⟨by omega, by omega⟩
  have h₁ : Guarded G image (m'.setEntry child (pagLogInitData + i)
      (m'.pagusrTable parent (pagLogInitData + i))) :=
    h'.setEntry fun hG => absurd hG (h'.data_frame parent hp)
  have h₂ := h₁.incFrame (h₁.data_frame child hp)
  have h₃ := h₂.dropRw child hp
  exact h₃.dropRw parent hp

theorem freePage_region (m : Mm) (pt : Slot) (hpos : ¬ getUserFreePage m pt < 0) :
    SharedRegion (getUserFreePage m pt).toNat := by
  rcases getUserFreePage_cases m pt with ⟨p, hp, _, hget⟩ | ⟨_, hget⟩
  · rw [hget]
    exact hp
  · rw [hget] at hpos
    exact absurd (by decide) hpos

theorem forkReserveStep (h : Guarded G image m) {parent child : Slot} {pag : Nat} {r : Option Nat}
    (hok : forkReserveStep parent child pag m = .ok (m', r)) :
    Guarded G image m' ∧ ∀ page, r = some page → SharedRegion page := by
  obtain ⟨halloc, hframe⟩ := h.alloc
  unfold Zeos.forkReserveStep at hok
  split at hok
  · cases hok
    exact ⟨h, fun _ he => by cases he⟩
  · rename_i hpos
    split at hok
    · cases hok
      exact ⟨halloc.freeUserPages child, fun _ he => by cases he⟩
    · rename_i hneg
      obtain ⟨f, hf, hlt, hu32⟩ := hframe.resolve_left hneg
      rw [hu32] at hok
      obtain ⟨m₁, h₁, hok⟩ := bind_eq_ok.mp hok
      obtain ⟨m₂, h₂, hok⟩ := bind_eq_ok.mp hok
      cases hok
      refine ⟨(halloc.writePte (not_ssEntry hf hlt) h₁).writePte (not_ssEntry hf hlt) h₂, ?_⟩
      rintro _ ⟨⟩
      exact freePage_region m parent hpos

theorem forkReserve (h : Guarded G image m) {parent child : Slot} (n : Nat) {r : Option (Nat → Nat)}
    (hok : forkReserve parent child n m = .ok (m', r)) :
    Guarded G image m' ∧ ∀ pages, r = some pages → ∀ i < n, SharedRegion (pages i) := by
  induction n generalizing m' r with
  | zero =>
    cases hok
    exact ⟨h, fun _ _ i hi => absurd hi (Nat.not_lt_zero i)⟩
  | succ n ih =>
    obtain ⟨⟨m₁, r₁⟩, h₁, hok⟩ := bind_eq_ok.mp hok
    obtain ⟨hm₁, hpages⟩ := ih h₁
    cases r₁ with
    | none =>
      cases hok
      exact ⟨hm₁, fun _ he => by cases he⟩
    | some pages =>
      obtain ⟨⟨m₂, r₂⟩, h₂, hok⟩ := bind_eq_ok.mp hok
      obtain ⟨hm₂, hpage⟩ := hm₁.forkReserveStep h₂
      cases r₂ with
      | none =>
        cases hok
        exact ⟨hm₂, fun _ he => by cases he⟩
      | some page =>
        cases hok
        refine ⟨hm₂, ?_⟩
        rintro _ ⟨⟩ i hi
        by_cases hin : i = n
        · rw [hin, Function.update_self]
          exact hpage page rfl
        · rw [Function.update_of_ne hin]
          exact hpages pages rfl i (by omega)

theorem forkCopy (h : Guarded G image m) {parent : Slot} {pages : Nat → Nat}
    (hpages : ∀ i < numPagData, SharedRegion (pages i)) (hok : forkCopy parent pages m = .ok m') :
    Guarded G image m' := by
  refine loop_preserves (fun _ => Guarded G image) ?_ h hok
  intro i s s' hi hs hbody
  obtain ⟨m₁, h₁, hbody⟩ := bind_eq_ok.mp hbody
  exact (hs.spares (copyData_spares (hs.outOf_region parent (hpages i hi)) h₁)).delSsPag hbody

theorem eagerData (h : Guarded G image m) {parent child : Slot} {b : Bool}
    (hok : eagerData m parent child = .ok (m', b)) : Guarded G image m' := by
  obtain ⟨⟨m₁, r⟩, h₁, hok⟩ := bind_eq_ok.mp hok
  obtain ⟨hres, hpages⟩ := h.forkReserve _ h₁
  cases r with
  | none =>
    cases hok
    exact hres
  | some pages =>
    obtain ⟨m₂, h₂, hok⟩ := bind_eq_ok.mp hok
    cases hok
    exact hres.forkCopy (hpages pages rfl) h₂

/-- The whole memory side of a fork; no shared page is ever inherited. -/
theorem forkMemory {useCow : Bool} (h : Guarded G image m) {parent child : Slot} {b : Bool}
    (hok : forkMemory useCow m parent child = .ok (m', b)) : Guarded G image m' := by
  have hbase : Guarded G image (forkBase m parent child) :=
    (h.copyEntries parent child (by decide)).copyEntries parent child (by decide)
  cases useCow with
  | true =>
    have hcow := hbase.cowData parent child
    obtain ⟨m₁, h₁, hok⟩ := bind_eq_ok.mp hok
    have hshared : Zeos.forkShared _ parent child = .ok m₁ := h₁
    rw [← forkBase, forkShared_eq hcow.shared] at hshared
    cases hshared
    cases hok
    exact hcow
  | false =>
    obtain ⟨⟨m₁, b₁⟩, h₁, hok⟩ := bind_eq_ok.mp hok
    have heager := hbase.eagerData h₁
    cases b₁ with
    | false =>
      cases hok
      exact heager
    | true =>
      obtain ⟨m₂, h₂, hok⟩ := bind_eq_ok.mp hok
      rw [forkShared_eq heager.shared] at h₂
      cases h₂
      cases hok
      exact heager

theorem readPte_write {m₁ : Mm} {pt t : Slot} {page q : Nat} {e e' : PageTableEntry}
    (hp : ∀ e, readPte m pt page = .ok e → ¬ G e.pbaseAddr) (he : ¬ G e.pbaseAddr)
    (hok : Zeos.writePte m t q e = .ok m₁) (hread : readPte m₁ pt page = .ok e') :
    ¬ G e'.pbaseAddr := by
  obtain ⟨⟨u, r⟩, _, hok⟩ := bind_eq_ok.mp hok
  cases hok
  obtain ⟨⟨v, w⟩, hidx, hread⟩ := bind_eq_ok.mp hread
  cases hread
  rw [Mm.setEntry_table]
  split
  · exact he
  · apply hp
    rw [readPte, hidx]
    rfl

theorem cowCopy (h : Guarded G image m) {pt : Slot} {page : Nat}
    (hp : ∀ e, readPte m pt page = .ok e → ¬ G e.pbaseAddr)
    (hok : cowCopy m pt page = .ok m') : Guarded G image m' := by
  obtain ⟨halloc, hframe⟩ := h.alloc
  have htab : (allocFrame m).2.pagusrTable = m.pagusrTable := by
    rcases allocFrame_cases m with ⟨f, _, hok⟩ | ⟨_, hok⟩
    · rw [hok]
      rfl
    · rw [hok]
  unfold Zeos.cowCopy at hok
  split at hok
  · cases hok
  · rename_i hpos
    split at hok
    · cases hok
    · rename_i hneg
      obtain ⟨f, hf, hlt, hu32⟩ := hframe.resolve_left hneg
      rw [hu32] at hok
      obtain ⟨m₁, h₁, hok⟩ := bind_eq_ok.mp hok
      obtain ⟨m₂, h₂, hok⟩ := bind_eq_ok.mp hok
      obtain ⟨g, hg, hok⟩ := bind_eq_ok.mp hok
      have hs := copyData_sameTables h₂
      have hm₁ := halloc.writePte (not_ssEntry hf hlt) h₁
      have hm₂ := hm₁.spares (copyData_spares (hm₁.outOf_region pt (freePage_region m pt hpos)) h₂)
      -- the frame that is given up is that of the faulting page
      obtain ⟨e, he, hg⟩ := bind_eq_ok.mp hg
      cases hg
      have hread : readPte m₁ pt page = .ok e := by
        rw [← he]
        unfold readPte
        rw [hs.pagusrTable]
      have hold : ¬ G e.pbaseAddr := by
        refine readPte_write ?_ (not_ssEntry hf hlt) h₁ hread
        intro e' he'
        apply hp
        rw [← he']
        unfold readPte
        rw [htab]
      obtain ⟨m₃, h₃, hok⟩ := bind_eq_ok.mp hok
      exact ((hm₂.decFrame hold).writePte (not_ssEntry hf hlt) h₃).delSsPag hok

/-- The handler leaves the code alone when the entry that it looks at maps none. -/
theorem pgfRoutine_other (h : Guarded G image m) {pt : Slot} {addr : Nat}
    (hother : ∀ t p, pteIndex pt (phPage addr) = .ok (t, p) → ¬ G (m.pagusrTable t p).pbaseAddr)
    (hok : Zeos.pgfRoutine m pt addr = .ok m') : Guarded G image m' := by
  obtain ⟨t, p, hidx, _, _, _, ⟨_, rfl⟩ | ⟨_, hcopy⟩⟩ := pgfRoutine_eq_ok hok
  · exact h.setEntry fun hG => absurd hG (hother t p hidx)
  · refine h.cowCopy ?_ hcopy
    intro e he
    rw [readPte, hidx] at he
    cases he
    exact hother t p hidx

theorem pgfRoutine (h : Guarded G image m) {pt : Slot} {addr : Nat}
    (hp : (∃ f, G f) → ¬ CodePage (addr / pageSize % totalPages))
    (hok : pgfRoutine m pt addr = .ok m') : Guarded G image m' := by
  apply h.pgfRoutine_other _ hok
  intro t p hidx hG
  have hpage := (pteIndex_page hidx).trans (phPage_mod addr)
  apply hp ⟨_, hG⟩
  rw [← hpage]
  exact (h.entry t p (by rw [hpage]; exact Nat.mod_lt _ (by decide)) hG).page

theorem userRetry (h : Guarded G image m) {pt : Slot} {addr : Nat} {write may : Bool}
    (hp : (∃ f, G f) → write = true ∨ totalPages * pageSize ≤ addr →
      ¬ CodePage (addr / pageSize % totalPages))
    (hok : userRetry m pt addr write = .ok (may, m')) : Guarded G image m' := by
  rcases userRetry_eq_ok hok with ⟨_, rfl⟩ | ⟨hno, hpgf, _⟩
  · exact h
  · -- inside its own table a load faults only where no guarded frame is mapped
    by_cases hfar : write = true ∨ totalPages * pageSize ≤ addr
    · exact h.pgfRoutine (fun hG => hp hG hfar) hpgf
    · simp only [not_or, Bool.not_eq_true, Nat.not_le] at hfar
      have hlt : addr / pageSize < totalPages := (Nat.div_lt_iff_lt_mul (by decide)).mpr hfar.2
      apply h.pgfRoutine_other _ hpgf
      intro t p hidx hG
      rw [phPage_of_lt hfar.2, pteIndex_of_lt pt hlt] at hidx
      cases hidx
      have hc := h.entry _ _ hlt hG
      simp [userMay, hlt, hc.present, hc.user, hfar.1] at hno

theorem storeByte (h : Guarded G image m) {pt : Slot} {addr : Nat} {v : UInt8}
    (hp : (∃ f, G f) → ¬ CodePage (addr / pageSize)) (hok : storeByte m pt addr v = .ok m') :
    Guarded G image m' := by
  apply h.spares
  apply storeByte_spares _ hok
  apply h.outOf
  intro hG k hk
  rw [Nat.lt_one_iff.mp hk]
  exact hp hG

theorem shmat {k k' : Kernel} {id : Int} {addr : Nat} {r : Int} (h : Guarded G image k.mm)
    (hok : sysShmat k id addr = .ok (r, k')) : Guarded G image k'.mm := by
  rcases sysShmat_eq_ok hok with ⟨_, rfl⟩ | ⟨pt, page, m, hid, _, _, _, hm, _, rfl⟩
  · exact h
  · have hlt : id.toNat < numSharedPages := by
      simp only [numSharedPages]
      omega
    rw [SharedFrames.uint32 h.shared hlt] at hm
    refine Guarded.addRefs (h.writePte (not_ssEntry ?_ ?_) hm) _ 1
    · intro hG
      have hc := h.code _ hG
      simp only [CodeFrame, numSharedPages] at hc hlt
      omega
    · simp only [numSharedPages] at hlt
      omega

theorem shmdt {k k' : Kernel} {addr : Nat} {r : Int} (h : Guarded G image k.mm)
    (hok : sysShmdt k addr = .ok (r, k')) : Guarded G image k'.mm := by
  rcases sysShmdt_eq_ok hok with ⟨_, rfl⟩ | ⟨pt, e, m, m', _, _, _, hshared, hsame, hdel, _, rfl⟩
  · exact h
  · -- the page that may be cleared is no guarded one
    refine ((h.addRefs _ (-1)).spares ⟨hsame.tables, ?_⟩).delSsPag hdel
    intro f hf
    apply hsame.ram
    rintro rfl
    apply hshared
    apply isFrameShared_unshared h.shared
    intro id hid
    have hc := h.code _ hf
    simp only [CodeFrame, numSharedPages] at hc hid
    omega

theorem booted (h : BootedMm image m) : Guarded CodeFrame image m where
  code _ hf := hf
  shared := (h.inv true).shared_frame
  entry := by
    intro t p hp hc
    have hno : ¬ CodeFrame 0 := by
      simp only [CodeFrame]
      omega
    rcases page_cases hp with hk | hd | hcode | hr
    · rw [(h.inv true).kernel t p hk, kernelEntry] at hc
      simp only [numPagKernel] at hk hc
      split at hc
      · have : 276 ≤ p := hc.1
        omega
      · exact absurd hc hno
    · rcases (h.inv true).data t p hd with h0 | he
      · rw [h0] at hc
        exact absurd hc hno
      · have hl := he.lower
        have hu := hc.2.1
        omega
    · by_cases ht : t = 8
      · subst ht
        rw [h.code p hcode]
        exact ⟨hcode, rfl, rfl, rfl⟩
      · rw [h.other t p ht (user_page (.inr (.inl hcode)))] at hc
        exact absurd hc hno
    · rw [h.region t p hr] at hc
      exact absurd hc hno
  taken := by
    intro f hf
    have hfix : FixedFrame f := ⟨by have := hf.1; simp only [numPagKernel]; omega, hf.2⟩
    rw [(h.inv true).count f hfix.1, (h.inv true).dataRefs_fixed hfix, if_pos hfix]
  bytes f _ := congrFun h.ram f

end Guarded

section Steps
variable {useCow : Bool} {k k' : Kernel} {r : Int}

end Steps

section Refuted
variable {image : Nat → Fin pageSize → UInt8} {m : Mm}

end Refuted

end Zeos
