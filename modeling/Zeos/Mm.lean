import Zeos.Types
import Zeos.Lib.Loops

/-!
# `mm.c`

Frames, page tables and shared pages. `physMem` holds the reference count of
each frame, `pagusrTable t` is the page table of slot `t`, and `ram f` is the
contents of frame `f`. The ten tables are one array in memory: a page number of
1024 or more, used as an index into one table, reaches the entries of the next.
-/

namespace Zeos

open Loops
set_option autoImplicit false

structure Mm where
  physMem : Nat → Nat
  sharedPages : Nat → SharedPage
  pagusrTable : Slot → Nat → PageTableEntry
  ram : Nat → Fin pageSize → UInt8

namespace Mm

def setEntry (m : Mm) (t : Slot) (p : Nat) (e : PageTableEntry) : Mm :=
  { m with pagusrTable := fun u q => if u = t ∧ q = p then e else m.pagusrTable u q }

section SetEntry
variable (m : Mm) (t : Slot) (p : Nat) (e : PageTableEntry)

@[simp] theorem setEntry_physMem : (m.setEntry t p e).physMem = m.physMem := rfl
@[simp] theorem setEntry_sharedPages : (m.setEntry t p e).sharedPages = m.sharedPages := rfl
@[simp] theorem setEntry_ram : (m.setEntry t p e).ram = m.ram := rfl
theorem setEntry_table (u : Slot) (q : Nat) :
    (m.setEntry t p e).pagusrTable u q = if u = t ∧ q = p then e else m.pagusrTable u q := rfl
@[simp] theorem setEntry_same : (m.setEntry t p e).pagusrTable t p = e := by simp [setEntry]

theorem setEntry_comm (m : Mm) {t u : Slot} (htu : t ≠ u) (p q : Nat) (d e : PageTableEntry) :
    (m.setEntry t p d).setEntry u q e = (m.setEntry u q e).setEntry t p d := by
  unfold setEntry
  congr 1
  funext v r
  by_cases hv : v = u ∧ r = q
  · simp [hv, htu.symm]
  · simp [hv]

end SetEntry

end Mm

theorem mm_ext {m m' : Mm} (hp : m'.physMem = m.physMem) (hs : m'.sharedPages = m.sharedPages)
    (ht : m'.pagusrTable = m.pagusrTable) (hr : m'.ram = m.ram) : m' = m := by
  cases m
  cases m'
  simp_all

/-- Where `PT[page]` lies when `PT` is the table of slot `pt`. An entry has four bytes,
so that an index counts modulo `2 ^ 30`. -/
def pteIndex (pt : Slot) (page : Nat) : Except Fault (Slot × Nat) :=
  let i := (pt.val * totalPages + page) % 1073741824
  if h : i / totalPages < nrTasks then .ok (⟨i / totalPages, h⟩, i % totalPages)
  else .error .outOfBounds

theorem pteIndex_of_lt (pt : Slot) {page : Nat} (h : page < totalPages) :
    pteIndex pt page = .ok (pt, page) := by
  have hpt := pt.isLt
  have hi : (pt.val * totalPages + page) % 1073741824 = pt.val * totalPages + page := by
    simp only [totalPages, nrTasks] at *
    omega
  have hd : (pt.val * totalPages + page) / totalPages = pt.val := by
    simp only [totalPages] at *
    omega
  have hm : (pt.val * totalPages + page) % totalPages = page := by
    simp only [totalPages] at *
    omega
  simp only [pteIndex, hi, hd, hm, hpt, dite_true]

theorem pteIndex_page {pt t : Slot} {page p : Nat} (h : pteIndex pt page = .ok (t, p)) :
    p = page % totalPages := by
  unfold pteIndex at h
  dsimp only at h
  split at h
  · cases h
    simp only [totalPages]
    omega
  · cases h

def readPte (m : Mm) (pt : Slot) (page : Nat) : Except Fault PageTableEntry := do
  let (t, p) ← pteIndex pt page
  pure (m.pagusrTable t p)

def writePte (m : Mm) (pt : Slot) (page : Nat) (e : PageTableEntry) : Except Fault Mm := do
  let (t, p) ← pteIndex pt page
  pure (m.setEntry t p e)

theorem readPte_of_lt (m : Mm) (pt : Slot) {page : Nat} (h : page < totalPages) :
    readPte m pt page = .ok (m.pagusrTable pt page) := by
  simp [readPte, pteIndex_of_lt pt h]

theorem writePte_of_lt (m : Mm) (pt : Slot) {page : Nat} (e : PageTableEntry)
    (h : page < totalPages) : writePte m pt page e = .ok (m.setEntry pt page e) := by
  simp [writePte, pteIndex_of_lt pt h]

def isLogicPageFree (m : Mm) (pt : Slot) (page : Nat) : Except Fault Bool := do
  let e ← readPte m pt page
  pure (e == .zero)

/-- The entry that `set_ss_pag` writes; `pbase_addr` has 20 bits. -/
def ssEntry (frame : Nat) : PageTableEntry := ⟨true, true, true, frame % 1048576⟩

def setSsPag (m : Mm) (pt : Slot) (page frame : Nat) : Except Fault Mm :=
  writePte m pt page (ssEntry frame)

def delSsPag (m : Mm) (pt : Slot) (page : Nat) : Except Fault Mm := writePte m pt page .zero

def getFrame (m : Mm) (pt : Slot) (page : Nat) : Except Fault Nat := do
  let e ← readPte m pt page
  pure e.pbaseAddr

def isCowPage (m : Mm) (pt : Slot) (page : Nat) : Except Fault Bool := do
  let e ← readPte m pt page
  pure (e != .zero && !e.rw)

/-- The frames `alloc_frame` looks at: every second one. -/
def frameCandidates : List Nat := List.range' numPagKernel ((totalPages - numPagKernel) / 2) 2

def incFrame (m : Mm) (f : Nat) : Mm :=
  { m with physMem := Function.update m.physMem f ((m.physMem f + 1) % 256) }

def decFrame (m : Mm) (f : Nat) : Mm :=
  { m with physMem := Function.update m.physMem f ((m.physMem f + 255) % 256) }

def allocFrame (m : Mm) : Int × Mm :=
  match frameCandidates.find? (fun i => m.physMem i = freeFrameMark) with
  | some i => (i, incFrame m i)
  | none => (-1, m)

/-- Frame 256 itself is never freed: the test is strict. -/
def freeFrame (m : Mm) (frame : Nat) : Mm :=
  if numPagKernel < frame ∧ frame < totalPages then decFrame m frame else m

def freeUserPages (m : Mm) (pt : Slot) : Mm :=
  times numPagData (fun pag m =>
    (freeFrame m (m.pagusrTable pt (pagLogInitData + pag)).pbaseAddr).setEntry pt
      (pagLogInitData + pag) .zero) m

def isFrameShared (m : Mm) (frame : Nat) : Nat :=
  ((List.range numSharedPages).find? fun idx => uint32 (m.sharedPages idx).frame = frame).getD 0

def getUserFreePage (m : Mm) (pt : Slot) : Int :=
  match (List.range' userLastPage (totalPages - userLastPage)).find?
      (fun pag => m.pagusrTable pt pag = .zero) with
  | some pag => pag
  | none => -1

/-- Logical page 0 stays inaccessible, the other kernel pages map to themselves. -/
def kernelEntry (i : Nat) : PageTableEntry :=
  if 1 ≤ i ∧ i < numPagKernel then ⟨true, true, false, i⟩ else .zero

def initTablePages (m : Mm) : Mm := { m with pagusrTable := fun _ i => kernelEntry i }

def initFrames (m : Mm) : Mm :=
  { m with physMem := fun i => if i < numPagKernel then freeFrameMark + 1 else freeFrameMark }

def initSharedPages (m : Mm) : Mm :=
  times numSharedPages (fun idx m =>
    let (frame, m) := allocFrame m
    { m with sharedPages := Function.update m.sharedPages idx ⟨frame, 0, 0⟩ }) m

def initMm (m : Mm) : Mm := initSharedPages (initFrames (initTablePages m))

def codeEntry (frame : Nat) : PageTableEntry := ⟨true, false, true, frame % 1048576⟩

/-- The first loop of `set_user_pages`: code pages come without `rw`. -/
def setCodePages (m : Mm) (pt : Slot) : Mm :=
  times numPagCode (fun pag m =>
    let (newPhPag, m) := allocFrame m
    m.setEntry pt (pagLogInitCode + pag) (codeEntry (uint32 newPhPag))) m

/-- The second loop: data pages come with it. -/
def setDataPages (m : Mm) (pt : Slot) : Mm :=
  times numPagData (fun pag m =>
    let (newPhPag, m) := allocFrame m
    m.setEntry pt (pagLogInitData + pag) (ssEntry (uint32 newPhPag))) m

def setUserPages (m : Mm) (pt : Slot) : Mm := setDataPages (setCodePages m pt) pt

section Specs
variable {m : Mm}

theorem mem_frameCandidates (f : Nat) :
    f ∈ frameCandidates ↔ numPagKernel ≤ f ∧ f < totalPages ∧ f % 2 = 0 := by
  simp only [frameCandidates, List.mem_range', numPagKernel, totalPages]
  constructor
  · rintro ⟨i, hi, rfl⟩
    omega
  · intro h
    exact ⟨(f - 256) / 2, by omega, by omega⟩

structure FreeFrame (m : Mm) (f : Nat) : Prop where
  lower : numPagKernel ≤ f
  upper : f < totalPages
  even : f % 2 = 0
  free : m.physMem f = 0

theorem allocFrame_cases (m : Mm) :
    (∃ f, FreeFrame m f ∧ allocFrame m = ((f : Int), incFrame m f)) ∨
    ((∀ f, ¬ FreeFrame m f) ∧ allocFrame m = (-1, m)) := by
  cases hf : frameCandidates.find? (fun i => m.physMem i = freeFrameMark) with
  | some f =>
    have hm := (mem_frameCandidates f).mp (List.mem_of_find?_eq_some hf)
    have hp := List.find?_some hf
    refine .inl ⟨f, ⟨hm.1, hm.2.1, hm.2.2, by simpa using hp⟩, ?_⟩
    simp [allocFrame, hf]
  | none =>
    refine .inr ⟨?_, by simp [allocFrame, hf]⟩
    intro f h
    have hn := List.find?_eq_none.mp hf f ((mem_frameCandidates f).mpr ⟨h.lower, h.upper, h.even⟩)
    simp [h.free] at hn

/-- The user region above code and data, where shared pages are attached. -/
def SharedRegion (p : Nat) : Prop := userLastPage ≤ p ∧ p < totalPages

theorem getUserFreePage_cases (m : Mm) (pt : Slot) :
    (∃ p, SharedRegion p ∧ m.pagusrTable pt p = .zero ∧ getUserFreePage m pt = (p : Int)) ∨
    ((∀ p, SharedRegion p → m.pagusrTable pt p ≠ .zero) ∧ getUserFreePage m pt = -1) := by
  cases hf : (List.range' userLastPage (totalPages - userLastPage)).find?
      (fun pag => m.pagusrTable pt pag = .zero) with
  | some p =>
    have hm := List.mem_range'_1.mp (List.mem_of_find?_eq_some hf)
    have hp := List.find?_some hf
    exact .inl ⟨p, ⟨hm.1, by omega⟩, by simpa using hp, by simp [getUserFreePage, hf]⟩
  | none =>
    refine .inr ⟨?_, by simp [getUserFreePage, hf]⟩
    intro p hp hz
    have hn := List.find?_eq_none.mp hf p
      (List.mem_range'_1.mpr ⟨hp.1, by have := hp.2; simp only [totalPages, userLastPage] at *; omega⟩)
    simp [hz] at hn

end Specs

end Zeos
