import Zeos.Mm
import Zeos.Lib.Blocks

/-!
# `utils.c`

Copying and clearing by logical address. Each routine is a loop over words while
more than four bytes remain and then a loop over single bytes. The accesses are
made in kernel mode through the page table `pt` of the running process: they
need a present entry and ignore its `rw` and `user` bits. Both routines are the block
routines of the library, run on a machine whose pointers are logical addresses.
-/

namespace Zeos

open Blocks Loops
set_option autoImplicit false

/-- The page directory has one entry, so only `totalPages` pages can be mapped. -/
def translate (m : Mm) (pt : Slot) (addr : Nat) : Except Fault (Nat × Fin pageSize) :=
  if addr / pageSize < totalPages ∧ (m.pagusrTable pt (addr / pageSize)).present then
    .ok ((m.pagusrTable pt (addr / pageSize)).pbaseAddr,
      ⟨addr % pageSize, Nat.mod_lt addr (by decide)⟩)
  else .error .pageFault

def setByte (m : Mm) (f : Nat) (o : Fin pageSize) (v : UInt8) : Mm :=
  { m with ram := Function.update m.ram f (Function.update (m.ram f) o v) }

def loadByte (m : Mm) (pt : Slot) (addr : Nat) : Except Fault UInt8 := do
  let (f, o) ← translate m pt addr
  pure (m.ram f o)

def storeByte (m : Mm) (pt : Slot) (addr : Nat) (v : UInt8) : Except Fault Mm := do
  let (f, o) ← translate m pt addr
  pure (setByte m f o v)

structure DWord where
  b0 : UInt8
  b1 : UInt8
  b2 : UInt8
  b3 : UInt8

def loadDWord (m : Mm) (pt : Slot) (addr : Nat) : Except Fault DWord := do
  let b0 ← loadByte m pt addr
  let b1 ← loadByte m pt (addr + 1)
  let b2 ← loadByte m pt (addr + 2)
  let b3 ← loadByte m pt (addr + 3)
  pure ⟨b0, b1, b2, b3⟩

def storeDWord (m : Mm) (pt : Slot) (addr : Nat) (w : DWord) : Except Fault Mm := do
  let m ← storeByte m pt addr w.b0
  let m ← storeByte m pt (addr + 1) w.b1
  let m ← storeByte m pt (addr + 2) w.b2
  storeByte m pt (addr + 3) w.b3

def copyWords (m : Mm) (pt : Slot) (p q : Nat) (size : Int) :
    Except Fault (Mm × Nat × Nat × Int) :=
  if 4 < size then do
    let w ← loadDWord m pt p
    let m ← storeDWord m pt q w
    copyWords m pt (p + 4) (q + 4) (size - 4)
  else .ok (m, p, q, size)
termination_by size.toNat

def copyBytes (m : Mm) (pt : Slot) (p q : Nat) (size : Int) : Except Fault Mm :=
  if 0 < size then do
    let b ← loadByte m pt p
    let m ← storeByte m pt q b
    copyBytes m pt (p + 1) (q + 1) (size - 1)
  else .ok m
termination_by size.toNat

def copyData (m : Mm) (pt : Slot) (start dest : Nat) (size : Int) : Except Fault Mm := do
  let (m, p, q, size) ← copyWords m pt start dest size
  copyBytes m pt p q size

def zeroWords (m : Mm) (pt : Slot) (q : Nat) (size : Int) : Except Fault (Mm × Nat × Int) :=
  if 4 < size then do
    let m ← storeDWord m pt q ⟨0, 0, 0, 0⟩
    zeroWords m pt (q + 4) (size - 4)
  else .ok (m, q, size)
termination_by size.toNat

def zeroBytes (m : Mm) (pt : Slot) (q : Nat) (size : Int) : Except Fault Mm :=
  if 0 < size then do
    let m ← storeByte m pt q 0
    zeroBytes m pt (q + 1) (size - 1)
  else .ok m
termination_by size.toNat

def zeroOut (m : Mm) (pt : Slot) (dest : Nat) (size : Int) : Except Fault Mm := do
  let (m, q, size) ← zeroWords m pt dest size
  zeroBytes m pt q size

/-- The two memories differ at most in the contents of frames. -/
structure SameTables (m m' : Mm) : Prop where
  physMem : m'.physMem = m.physMem
  sharedPages : m'.sharedPages = m.sharedPages
  pagusrTable : m'.pagusrTable = m.pagusrTable

namespace SameTables

theorem refl (m : Mm) : SameTables m m := ⟨rfl, rfl, rfl⟩

theorem trans {m m' m'' : Mm} (h : SameTables m m') (h' : SameTables m' m'') :
    SameTables m m'' :=
  ⟨h'.physMem.trans h.physMem, h'.sharedPages.trans h.sharedPages,
    h'.pagusrTable.trans h.pagusrTable⟩

end SameTables

/-- Both ends of a block are reached through the page table `pt`. -/
def paged (pt : Slot) : Machine Fault Mm Nat UInt8 where
  skip p k := p + k
  load m p := loadByte m pt p
  store m q b := storeByte m pt q b
  skip_zero := Nat.add_zero
  skip_skip := Nat.add_assoc

section Frames
variable {m m' : Mm} {pt : Slot}

theorem copyData_eq_moveBlock (m : Mm) (p q : Nat) (size : Int) :
    copyData m pt p q size = moveBlock (paged pt) m p q size := by
  apply eq_moveBlock (f := fun m p q size => copyWords m pt p q size)
    (g := fun m p q size => copyBytes m pt p q size)
  · intro m p q size
    rw [copyWords]
    simp only [loadDWord, loadWord, bind_assoc, pure_bind]
    rfl
  · intro m p q size
    rw [copyBytes]
    rfl

theorem zeroOut_eq_fillBlock (m : Mm) (q : Nat) (size : Int) :
    zeroOut m pt q size = fillBlock (paged pt) 0 m q size := by
  apply eq_fillBlock (f := fun m q size => zeroWords m pt q size)
    (g := fun m q size => zeroBytes m pt q size)
  · intro m q size
    rw [zeroWords]
    rfl
  · intro m q size
    rw [zeroBytes]
    rfl

theorem translate_eq_ok {addr f : Nat} {o : Fin pageSize} (h : translate m pt addr = .ok (f, o)) :
    addr / pageSize < totalPages ∧ (m.pagusrTable pt (addr / pageSize)).present = true ∧
      (m.pagusrTable pt (addr / pageSize)).pbaseAddr = f ∧ o.val = addr % pageSize := by
  unfold translate at h
  split at h
  · rename_i hmap
    cases h
    exact ⟨hmap.1, hmap.2, rfl, rfl⟩
  · cases h

theorem translate_sameTables (h : SameTables m m') (addr : Nat) :
    translate m' pt addr = translate m pt addr := by
  unfold translate
  rw [h.pagusrTable]

theorem storeByte_sameTables {addr : Nat} {v : UInt8} (h : storeByte m pt addr v = .ok m') :
    SameTables m m' := by
  obtain ⟨⟨f, o⟩, _, hm⟩ := bind_eq_ok.mp h
  cases hm
  exact ⟨rfl, rfl, rfl⟩

theorem kept_sameTables (m : Mm) (q n : Nat) : Kept (paged pt) (SameTables m) q n :=
  fun _ _ _ _ hs _ h => hs.trans (storeByte_sameTables h)

theorem copyData_sameTables {start dest : Nat} {size : Int}
    (h : copyData m pt start dest size = .ok m') : SameTables m m' := by
  rw [copyData_eq_moveBlock] at h
  exact moveBlock_kept (kept_sameTables m _ _) (.refl m) h

theorem zeroOut_sameTables {dest : Nat} {size : Int} (h : zeroOut m pt dest size = .ok m') :
    SameTables m m' := by
  rw [zeroOut_eq_fillBlock] at h
  exact fillBlock_kept (kept_sameTables m _ _) (.refl m) h

/-- The contents of the frames in `G` are left alone. -/
structure Spares (G : Nat → Prop) (m m' : Mm) : Prop where
  tables : SameTables m m'
  ram : ∀ f, G f → m'.ram f = m.ram f

/-- No page from `page` on that `n` bytes at `addr` touch is mapped to a frame in `G`. -/
def OutOf (G : Nat → Prop) (m : Mm) (pt : Slot) (addr n : Nat) : Prop :=
  ∀ k < n, (addr + k) / pageSize < totalPages → ¬ G (m.pagusrTable pt ((addr + k) / pageSize)).pbaseAddr

theorem Spares.refl (G : Nat → Prop) (m : Mm) : Spares G m m := ⟨.refl m, fun _ _ => rfl⟩

theorem Spares.trans {G : Nat → Prop} {m'' : Mm} (h : Spares G m m') (h' : Spares G m' m'') :
    Spares G m m'' :=
  ⟨h.tables.trans h'.tables, fun f hf => (h'.ram f hf).trans (h.ram f hf)⟩

theorem storeByte_spares {G : Nat → Prop} {addr : Nat} {v : UInt8} (hG : OutOf G m pt addr 1)
    (h : storeByte m pt addr v = .ok m') : Spares G m m' := by
  refine ⟨storeByte_sameTables h, ?_⟩
  intro f hf
  obtain ⟨⟨g, o⟩, htr, h⟩ := bind_eq_ok.mp h
  cases h
  obtain ⟨hlt, _, rfl, _⟩ := translate_eq_ok htr
  have hne : f ≠ (m.pagusrTable pt (addr / pageSize)).pbaseAddr := by
    rintro rfl
    exact hG 0 Nat.one_pos hlt hf
  exact Function.update_of_ne hne ..

theorem kept_spares {G : Nat → Prop} {q n : Nat} (hG : OutOf G m pt q n) :
    Kept (paged pt) (Spares G m) q n := by
  intro s k b t hs hk h
  refine hs.trans (storeByte_spares ?_ h)
  intro j hj
  obtain rfl := Nat.lt_one_iff.mp hj
  rw [hs.tables.pagusrTable]
  exact hG k hk

theorem copyData_spares {G : Nat → Prop} {start dest : Nat} {size : Int}
    (hG : OutOf G m pt dest size.toNat) (h : copyData m pt start dest size = .ok m') :
    Spares G m m' := by
  rw [copyData_eq_moveBlock] at h
  exact moveBlock_kept (kept_spares hG) (.refl G m) h

theorem zeroOut_spares {G : Nat → Prop} {dest : Nat} {size : Int}
    (hG : OutOf G m pt dest size.toNat) (h : zeroOut m pt dest size = .ok m') : Spares G m m' := by
  rw [zeroOut_eq_fillBlock] at h
  exact fillBlock_kept (kept_spares hG) (.refl G m) h

end Frames

section Mapped
variable {m : Mm} {pt : Slot} {p q n : Nat} {x y : Nat → Nat × Fin pageSize}

def Mm.byteAt (m : Mm) (loc : Nat × Fin pageSize) : UInt8 := m.ram loc.1 loc.2

theorem byteAt_setByte (m : Mm) (loc : Nat × Fin pageSize) (b : UInt8) :
    (setByte m loc.1 loc.2 b).byteAt = Function.update m.byteAt loc b := by
  funext z
  by_cases hz : z = loc
  · subst hz
    simp [Mm.byteAt, setByte]
  · rw [Function.update_of_ne hz]
    by_cases hf : z.1 = loc.1
    · have ho : z.2 ≠ loc.2 := fun ho => hz (Prod.ext hf ho)
      simp [Mm.byteAt, setByte, hf, ho]
    · simp [Mm.byteAt, setByte, hf]

theorem readable_paged (hx : ∀ k, k < n → translate m pt (p + k) = .ok (x k)) :
    Readable (paged pt) Mm.byteAt (SameTables m) p n x := by
  intro m' k hm hk
  show loadByte m' pt (p + k) = _
  rw [loadByte, translate_sameTables hm, hx k hk]
  rfl

theorem writable_paged (hy : ∀ k, k < n → translate m pt (q + k) = .ok (y k))
    (hinj : ∀ i j, i < n → j < n → y i = y j → i = j) :
    Writable (paged pt) Mm.byteAt (SameTables m) q n y := by
  refine ⟨?_, hinj⟩
  intro m' k b hm hk
  have hstore : storeByte m' pt (q + k) b = .ok (setByte m' (y k).1 (y k).2 b) := by
    rw [storeByte, translate_sameTables hm, hy k hk]
    rfl
  exact ⟨_, hstore, hm.trans (storeByte_sameTables hstore), byteAt_setByte m' (y k) b⟩

/-- Between mapped addresses that share no byte of a frame `copy_data` is exact. -/
theorem copyData_mapped {size : Int} (hx : ∀ k, k < size.toNat → translate m pt (p + k) = .ok (x k))
    (hy : ∀ k, k < size.toNat → translate m pt (q + k) = .ok (y k))
    (hinj : ∀ i j, i < size.toNat → j < size.toNat → y i = y j → i = j)
    (hxy : ∀ i j, i < size.toNat → j < size.toNat → x i ≠ y j) :
    ∃ m', copyData m pt p q size = .ok m' ∧
      Filled Mm.byteAt (SameTables m) y (fun k => m.byteAt (x k)) size.toNat m m' := by
  rw [copyData_eq_moveBlock]
  exact moveBlock_filled (readable_paged hx) (writable_paged hy hinj) hxy (.refl m)

theorem zeroOut_mapped {size : Int} (hy : ∀ k, k < size.toNat → translate m pt (q + k) = .ok (y k))
    (hinj : ∀ i j, i < size.toNat → j < size.toNat → y i = y j → i = j) :
    ∃ m', zeroOut m pt q size = .ok m' ∧
      Filled Mm.byteAt (SameTables m) y (fun _ => 0) size.toNat m m' := by
  rw [zeroOut_eq_fillBlock]
  exact fillBlock_filled (writable_paged hy hinj) (.refl m)

end Mapped

section Pages
variable {m : Mm} {pt : Slot} {P Q f fp fq : Nat}

/-- Page `P` of the table `pt` is mapped to frame `f`. -/
structure MappedTo (m : Mm) (pt : Slot) (P f : Nat) : Prop where
  page : P < totalPages
  present : (m.pagusrTable pt P).present = true
  frame : (m.pagusrTable pt P).pbaseAddr = f

theorem translate_page {k : Nat} (h : MappedTo m pt P f) (hk : k < pageSize) :
    translate m pt (P * pageSize + k) = .ok (f, ⟨k, hk⟩) := by
  have hd : (P * pageSize + k) / pageSize = P := by
    simp only [pageSize] at hk ⊢
    omega
  have hm : (P * pageSize + k) % pageSize = k := by
    simp only [pageSize] at hk ⊢
    omega
  unfold translate
  simp only [hd, hm, h.page, h.present, h.frame, and_self, if_true]

def frameByte (f k : Nat) : Nat × Fin pageSize := (f, ⟨k % pageSize, Nat.mod_lt k (by decide)⟩)

theorem frameByte_val (f : Nat) (o : Fin pageSize) : frameByte f o.val = (f, o) :=
  Prod.ext rfl (Fin.ext (Nat.mod_eq_of_lt o.isLt))

theorem translate_frameByte {k : Nat} (h : MappedTo m pt P f) (hk : k < pageSize) :
    translate m pt (P * pageSize + k) = .ok (frameByte f k) := by
  rw [translate_page h hk, ← frameByte_val]

theorem frameByte_inj {i j : Nat} (hi : i < pageSize) (hj : j < pageSize)
    (h : frameByte f i = frameByte f j) : i = j := by
  have hmod := congrArg (fun loc => loc.2.val) h
  simp only [frameByte, Nat.mod_eq_of_lt hi, Nat.mod_eq_of_lt hj] at hmod
  exact hmod

theorem eq_of_filled {m' : Mm} {v : Nat → UInt8} {a : Fin pageSize → UInt8}
    (h : Filled Mm.byteAt (SameTables m) (frameByte f) v pageSize m m') (ha : ∀ o : Fin pageSize, v o = a o) :
    m' = { m with ram := Function.update m.ram f a } := by
  have hram : m'.ram = Function.update m.ram f a := by
    funext g o
    by_cases hg : g = f
    · subst hg
      have hbyte := h.filled o o.isLt
      rw [frameByte_val] at hbyte
      rw [Function.update_self, ← ha]
      exact hbyte
    · rw [Function.update_of_ne hg]
      exact h.frame (g, o) fun j _ he => hg (congrArg Prod.fst he)
  exact mm_ext h.inv.physMem h.inv.sharedPages h.inv.pagusrTable hram

def pageCopied (m : Mm) (fp fq : Nat) : Mm :=
  { m with ram := Function.update m.ram fq (m.ram fp) }

theorem pageCopied_sameTables (m : Mm) (fp fq : Nat) : SameTables m (pageCopied m fp fq) :=
  ⟨rfl, rfl, rfl⟩

/-- Copying one page onto another overwrites its frame and changes nothing else. -/
theorem copyData_page (hP : MappedTo m pt P fp) (hQ : MappedTo m pt Q fq) (hne : fp ≠ fq) :
    copyData m pt (P * pageSize) (Q * pageSize) pageSize = .ok (pageCopied m fp fq) := by
  have hmoved : ∃ m', copyData m pt (P * pageSize) (Q * pageSize) pageSize = .ok m' ∧
      Filled Mm.byteAt (SameTables m) (frameByte fq) (fun k => m.byteAt (frameByte fp k)) pageSize m m' :=
    copyData_mapped (fun k hk => translate_frameByte hP hk) (fun k hk => translate_frameByte hQ hk)
      (fun i j hi hj => frameByte_inj hi hj) (fun i j _ _ he => hne (congrArg Prod.fst he))
  obtain ⟨m', hok, hfilled⟩ := hmoved
  have hbytes : ∀ o : Fin pageSize, m.byteAt (frameByte fp o) = m.ram fp o := by
    intro o
    rw [frameByte_val]
    rfl
  rw [hok, eq_of_filled hfilled hbytes, pageCopied]

def pageCleared (m : Mm) (f : Nat) : Mm :=
  { m with ram := Function.update m.ram f (fun _ => 0) }

theorem zeroOut_page (hQ : MappedTo m pt Q f) :
    zeroOut m pt (Q * pageSize) pageSize = .ok (pageCleared m f) := by
  have hfill : ∃ m', zeroOut m pt (Q * pageSize) pageSize = .ok m' ∧
      Filled Mm.byteAt (SameTables m) (frameByte f) (fun _ => 0) pageSize m m' :=
    zeroOut_mapped (fun k hk => translate_frameByte hQ hk) (fun i j hi hj => frameByte_inj hi hj)
  obtain ⟨m', hok, hfilled⟩ := hfill
  rw [hok, eq_of_filled hfilled fun _ => rfl, pageCleared]

end Pages

end Zeos
