import Zeos.Sys

/-!
# `interrupt.c`

The clock interrupt and the page fault, and the user accesses that raise it.
-/

namespace Zeos

open Loops
set_option autoImplicit false

def clkRoutine (s : Sched) : Except Fault Sched :=
  schedule { s with
    zeosTicks := int32 (s.zeosTicks + 1)
    ticksSinceLastSwitch := (s.ticksSinceLastSwitch + 1) % 4294967296 }

/-- The branch for a frame with more than one reference. The page is shifted back to
an address of 32 bits. -/
def cowCopy (m : Mm) (pt : Slot) (page : Nat) : Except Fault Mm :=
  if getUserFreePage m pt < 0 then .error .pageFault
  else if (allocFrame m).1 < 0 then .error .pageFault
  else do
    let freePage := (getUserFreePage m pt).toNat
    let frame := uint32 (allocFrame m).1
    let m ← setSsPag (allocFrame m).2 pt freePage frame
    let m ← copyData m pt (page * pageSize % 4294967296) (freePage * pageSize) pageSize
    let f ← getFrame m pt page
    let m ← setSsPag (decFrame m f) pt page frame
    delSsPag m pt freePage

/-- `PH_PAGE` of an `int`, as an unsigned number: the shift keeps the sign. -/
def phPage (address : Nat) : Nat :=
  if address < 2147483648 then address / pageSize else address / pageSize + 4293918720

theorem phPage_of_lt {address : Nat} (h : address < totalPages * pageSize) :
    phPage address = address / pageSize := by
  simp only [totalPages, pageSize] at h
  exact if_pos (by omega)

/-- An index behind a table reaches the same page of another one. -/
theorem phPage_mod (address : Nat) : phPage address % totalPages = address / pageSize % totalPages := by
  unfold phPage
  simp only [totalPages]
  split <;> omega

def pgfRoutine (m : Mm) (pt : Slot) (faultyAddress : Nat) : Except Fault Mm := do
  let page := phPage faultyAddress
  let cow ← isCowPage m pt page
  if cow then do
    let e ← readPte m pt page
    if m.physMem e.pbaseAddr = 1 then writePte m pt page { e with rw := true }
    else cowCopy m pt page
  else .error .pageFault

theorem pgfRoutine_eq_ok {m m' : Mm} {pt : Slot} {addr : Nat} (h : pgfRoutine m pt addr = .ok m') :
    ∃ t p, pteIndex pt (phPage addr) = .ok (t, p) ∧ p = addr / pageSize % totalPages ∧
      m.pagusrTable t p ≠ .zero ∧ (m.pagusrTable t p).rw = false ∧
      ((m.physMem (m.pagusrTable t p).pbaseAddr = 1 ∧
          m' = m.setEntry t p { m.pagusrTable t p with rw := true }) ∨
        (m.physMem (m.pagusrTable t p).pbaseAddr ≠ 1 ∧ cowCopy m pt (phPage addr) = .ok m')) := by
  unfold pgfRoutine at h
  cases hidx : pteIndex pt (phPage addr) with
  | error e =>
    simp only [isCowPage, readPte, hidx, error_bind] at h
    cases h
  | ok tp =>
    obtain ⟨t, p⟩ := tp
    simp only [isCowPage, readPte, writePte, hidx, ok_bind, pure_eq_ok] at h
    refine ⟨t, p, rfl, (pteIndex_page hidx).trans (phPage_mod addr), ?_⟩
    split at h
    · rename_i hcow
      rw [Bool.and_eq_true, bne_iff_ne, Bool.not_eq_true'] at hcow
      refine ⟨hcow.1, hcow.2, ?_⟩
      split at h
      · rename_i hone
        cases h
        exact .inl ⟨hone, rfl⟩
      · rename_i hmany
        exact .inr ⟨hmany, h⟩
    · cases h

/-- Whether the hardware lets user code touch the address. -/
def userMay (m : Mm) (pt : Slot) (addr : Nat) (write : Bool) : Bool :=
  let e := m.pagusrTable pt (addr / pageSize)
  decide (addr / pageSize < totalPages) && e.present && e.user && (!write || e.rw)

/-- An access that faults runs `pgf_routine` and is tried again. The flag tells whether
it goes through then; what the handler has done stays done in either case. -/
def userRetry (m : Mm) (pt : Slot) (addr : Nat) (write : Bool) : Except Fault (Bool × Mm) :=
  if userMay m pt addr write then .ok (true, m)
  else do
    let m ← pgfRoutine m pt addr
    pure (userMay m pt addr write, m)

theorem userRetry_eq_ok {m m' : Mm} {pt : Slot} {addr : Nat} {write may : Bool}
    (h : userRetry m pt addr write = .ok (may, m')) :
    (may = true ∧ m' = m) ∨ (userMay m pt addr write = false ∧ pgfRoutine m pt addr = .ok m' ∧
      may = userMay m' pt addr write) := by
  unfold userRetry at h
  split at h
  · cases h
    exact .inl ⟨rfl, rfl⟩
  · rename_i hno
    obtain ⟨m₁, hm, h⟩ := bind_eq_ok.mp h
    cases h
    exact .inr ⟨Bool.eq_false_iff.mpr hno, hm, rfl⟩

/-- The byte, unless the access has yet to be tried again. -/
def userLoad (m : Mm) (pt : Slot) (addr : Nat) : Except Fault (Option UInt8 × Mm) := do
  let (may, m) ← userRetry m pt addr false
  if may then do
    let v ← loadByte m pt addr
    pure (some v, m)
  else pure (none, m)

/-- Whether the store is done, and the memory after it. -/
def userStore (m : Mm) (pt : Slot) (addr : Nat) (v : UInt8) : Except Fault (Bool × Mm) := do
  let (may, m) ← userRetry m pt addr true
  if may then do
    let m ← storeByte m pt addr v
    pure (true, m)
  else pure (false, m)

end Zeos
