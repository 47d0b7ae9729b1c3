import Zeos.Devices
import Zeos.Keyboard
import Zeos.Pointers

/-!
# What is written is what is printed

`sys_write` sends the user's bytes through a buffer of 512, the last piece being
the one that the loop leaves over. Whatever the buffer held before, the screen gets
the bytes of the user in their order, and nothing when the call is refused.
-/

namespace Zeos

open Blocks Loops
set_option autoImplicit false

namespace Screen

@[simp] theorem newline_port (s : Screen) : s.newline.port = s.port := rfl

theorem printc_port (s : Screen) (c : UInt8) : (s.printc c).port = s.port ++ [c] := by
  unfold printc
  dsimp only
  split
  · rfl
  · split <;> rfl

theorem foldl_printc_port (s : Screen) (bytes : List UInt8) :
    (bytes.foldl printc s).port = s.port ++ bytes := by
  induction bytes generalizing s with
  | nil => exact (List.append_nil _).symm
  | cons c bytes ih =>
    rw [List.foldl_cons, ih, printc_port, List.append_assoc]
    rfl

end Screen

/-- From address `p` on the user's memory holds these bytes. -/
def UserHolds (m : Mm) (pt : Slot) (p : Nat) (bytes : List UInt8) : Prop :=
  ∀ k v, bytes[k]? = some v → loadByte m pt (p + k) = .ok v

section User
variable {m : Mm} {pt : Slot} {p : Nat}

theorem UserHolds.drop (first : List UInt8) {bytes : List UInt8} (h : UserHolds m pt p (first ++ bytes)) :
    UserHolds m pt (p + first.length) bytes := by
  intro k v hk
  rw [Nat.add_assoc]
  apply h
  rw [List.getElem?_append_right (Nat.le_add_right _ _), Nat.add_sub_cancel_left]
  exact hk

theorem UserHolds.take {first bytes : List UInt8} (h : UserHolds m pt p (first ++ bytes)) :
    UserHolds m pt p first := by
  intro k v hk
  apply h
  rw [List.getElem?_append_left (List.getElem?_eq_some_iff.mp hk).1]
  exact hk

theorem exists_userHolds {size : Nat} (h : ∀ k < size, ∃ v, loadByte m pt (p + k) = .ok v) :
    ∃ bytes : List UInt8, bytes.length = size ∧ UserHolds m pt p bytes := by
  induction size with
  | zero =>
    refine ⟨[], rfl, fun k v hk => ?_⟩
    cases hk
  | succ size ih =>
    obtain ⟨bytes, rfl, hbytes⟩ := ih fun k hk => h k (by omega)
    obtain ⟨w, hw⟩ := h bytes.length (Nat.lt_succ_self _)
    refine ⟨bytes ++ [w], by rw [List.length_append, List.length_singleton], ?_⟩
    intro k v hk
    rcases Nat.lt_trichotomy k bytes.length with hlt | rfl | hgt
    · rw [List.getElem?_append_left hlt] at hk
      exact hbytes k v hk
    · rw [List.getElem?_append_right le_rfl, Nat.sub_self] at hk
      cases hk
      exact hw
    · rw [List.getElem?_eq_none (by rw [List.length_append, List.length_singleton]; omega)] at hk
      cases hk

variable {kern : Staging} {done : List UInt8}

/-- From a page to `kern_buff`. -/
def toStaging (m : Mm) (pt : Slot) : Machine Fault Staging Nat UInt8 where
  skip p k := p + k
  load _ p := loadByte m pt p
  store kern q b := storeStaging kern q b
  skip_zero := Nat.add_zero
  skip_skip := Nat.add_assoc

theorem copyFromUser_eq_moveBlock (kern : Staging) (p q : Nat) (size : Int) :
    copyFromUser m pt kern p q size = moveBlock (toStaging m pt) kern p q size := by
  apply eq_moveBlock (f := fun kern p q size => copyFromUserWords m pt kern p q size)
    (g := fun kern p q size => copyFromUserBytes m pt kern p q size)
  · intro kern p q size
    rw [copyFromUserWords]
    simp only [loadDWord, loadWord, bind_assoc, pure_bind]
    rfl
  · intro kern p q size
    rw [copyFromUserBytes]
    rfl

theorem storeAll_staged (bytes : List UInt8) (hdone : Staged kern 0 done)
    (hroom : done.length + bytes.length ≤ maxBufferSize) :
    ∃ kern', storeAll (toStaging m pt) kern done.length bytes = .ok kern' ∧
      Staged kern' 0 (done ++ bytes) := by
  induction bytes generalizing kern done with
  | nil =>
    rw [List.append_nil]
    exact ⟨kern, rfl, hdone⟩
  | cons v bytes ih =>
    rw [List.length_cons] at hroom
    obtain ⟨k₁, hstore, hstaged⟩ := hdone.push (by omega) v
    obtain ⟨kern', hall, hdone'⟩ := ih hstaged (by
      rw [List.length_append, List.length_singleton]
      omega)
    rw [List.length_append, List.length_singleton] at hall
    rw [List.append_assoc] at hdone'
    refine ⟨kern', ?_, hdone'⟩
    exact bind_eq_ok.mpr ⟨k₁, hstore, hall⟩

theorem copyFromUser_staged {bytes : List UInt8} (h : UserHolds m pt p bytes)
    (hroom : bytes.length ≤ maxBufferSize) :
    ∃ kern', copyFromUser m pt kern p 0 bytes.length = .ok kern' ∧ Staged kern' 0 bytes := by
  have hholds : Holds (toStaging m pt) p bytes := fun _ k v hk => h k v hk
  have hnone : Staged kern 0 [] := by
    intro k v hk
    cases hk
  rw [copyFromUser_eq_moveBlock, moveBlock_eq_storeAll hholds]
  exact storeAll_staged bytes hnone (by simpa using hroom)

end User

section Writes
variable {m : Mm} {pt : Slot}

theorem writeConsoleFrom_staged {kern : Staging} {p : Nat} {bytes : List UInt8}
    (h : Staged kern p bytes) (s : Screen) :
    writeConsoleFrom kern p bytes.length s = .ok (bytes.foldl Screen.printc s) := by
  induction bytes generalizing p s with
  | nil => rfl
  | cons c bytes ih =>
    rw [List.length_cons, writeConsoleFrom, h.head, ok_bind, ih h.tail]
    rfl

theorem writeChunk_prints {s : WriteState} {bytes : List UInt8} (h : UserHolds m pt s.buffer bytes)
    (hroom : bytes.length ≤ maxBufferSize) :
    ∃ kern, writeChunk m pt s bytes.length = .ok
      (⟨s.buffer, s.remainingBytes - bytes.length, kern, bytes.foldl Screen.printc s.screen⟩,
        (bytes.length : Nat)) := by
  obtain ⟨kern, hcopy, hstaged⟩ := copyFromUser_staged h hroom
  refine ⟨kern, ?_⟩
  rw [writeChunk, hcopy, ok_bind, sysWriteConsole, Int.toNat_natCast, writeConsoleFrom_staged hstaged]
  rfl

theorem writeLoop_more {s s' : WriteState} {ret : Int} (hmore : maxBufferSize < s.remainingBytes)
    (h : writeChunk m pt s maxBufferSize = .ok (s', ret)) :
    writeLoop m pt s = writeLoop m pt { s' with buffer := s'.buffer + ret.toNat } := by
  conv => lhs; rw [writeLoop]
  rw [dif_pos hmore]
  split
  · rename_i e he
    rw [h] at he
    cases he
  · rename_i s₁ ret' he
    rw [h] at he
    cases he
    rfl

/-- So far everything before `rest` has been printed. -/
structure Printed (m : Mm) (pt : Slot) (screen : Screen) (bytes : List UInt8) (s : WriteState)
    (rest : List UInt8) : Prop where
  holds : UserHolds m pt s.buffer rest
  remaining : s.remainingBytes = rest.length
  screen : rest.foldl Screen.printc s.screen = bytes.foldl Screen.printc screen

/-- The loop ends with at most one buffer left over. -/
theorem writeLoop_prints {screen : Screen} {bytes rest : List UInt8} {s : WriteState}
    (h : Printed m pt screen bytes s rest) :
    ∃ s' rest', writeLoop m pt s = .ok s' ∧ Printed m pt screen bytes s' rest' ∧
      rest'.length ≤ maxBufferSize := by
  induction hn : rest.length using Nat.strongRecOn generalizing rest s with
  | ind n ih =>
    subst hn
    by_cases hmore : maxBufferSize < rest.length
    · -- split off the first 512 bytes
      have hfirst : (rest.take maxBufferSize).length = maxBufferSize := by
        rw [List.length_take]
        omega
      have hsplit : rest.take maxBufferSize ++ rest.drop maxBufferSize = rest :=
        List.take_append_drop ..
      have hholds := h.holds
      rw [← hsplit] at hholds
      obtain ⟨kern, hchunk⟩ := writeChunk_prints hholds.take (Nat.le_of_eq hfirst)
      rw [hfirst] at hchunk
      have hdrop := hholds.drop
      rw [hfirst] at hdrop
      have hlen : (rest.drop maxBufferSize).length = rest.length - maxBufferSize := List.length_drop
      obtain ⟨s', rest', hloop, hprinted, hleft⟩ := ih (rest.drop maxBufferSize).length
        (by simp only [maxBufferSize] at hmore hlen ⊢; omega)
        (s := ⟨s.buffer + maxBufferSize, s.remainingBytes - maxBufferSize, kern,
          (rest.take maxBufferSize).foldl Screen.printc s.screen⟩)
        ⟨hdrop, by rw [h.remaining, hlen]; simp only [maxBufferSize] at hmore ⊢; omega, by
          rw [← List.foldl_append, hsplit]
          exact h.screen⟩ rfl
      refine ⟨s', rest', ?_, hprinted, hleft⟩
      rw [writeLoop_more (by rw [h.remaining]; exact_mod_cast hmore) hchunk]
      exact hloop
    · refine ⟨s, rest, ?_, h, Nat.le_of_not_lt hmore⟩
      rw [writeLoop, dif_neg]
      rw [h.remaining]
      exact_mod_cast hmore

theorem writeRest_prints {screen : Screen} {bytes rest : List UInt8} {s : WriteState}
    (h : Printed m pt screen bytes s rest) (hleft : rest.length ≤ maxBufferSize) :
    ∃ s', writeRest m pt s = .ok s' ∧ s'.remainingBytes = 0 ∧
      s'.screen = bytes.foldl Screen.printc screen := by
  by_cases hsome : 0 < rest.length
  · obtain ⟨kern, hchunk⟩ := writeChunk_prints h.holds hleft
    refine ⟨⟨s.buffer, s.remainingBytes - rest.length, kern, rest.foldl Screen.printc s.screen⟩, ?_, ?_, h.screen⟩
    · rw [writeRest, if_pos (by rw [h.remaining]; omega)]
      conv => lhs; rw [h.remaining]
      rw [hchunk]
      rfl
    · rw [h.remaining, Int.sub_self]
  · have hnil : rest = [] := List.length_eq_zero_iff.mp (by omega)
    subst hnil
    refine ⟨s, ?_, h.remaining, h.screen⟩
    rw [writeRest, if_neg]
    rw [h.remaining]
    exact Int.lt_irrefl 0

theorem checkAllocatedFrom_total (m : Mm) (pt : Slot) {i left : Nat} (h : i + left ≤ totalPages) :
    ∃ b, checkAllocatedFrom m pt i left = .ok b := by
  induction left generalizing i with
  | zero => exact ⟨true, rfl⟩
  | succ left ih =>
    have hread : isLogicPageFree m pt i = .ok (m.pagusrTable pt i == .zero) := by
      simp [isLogicPageFree, readPte_of_lt m pt (show i < totalPages by omega)]
    rw [checkAllocatedFrom, hread, ok_bind]
    split
    · exact ⟨false, rfl⟩
    · apply ih
      omega

theorem accessOk_total (m : Mm) (pt : Slot) (type : AccessType) (addr size : Nat) :
    ∃ b, accessOk m pt type addr size = .ok b := by
  unfold accessOk
  dsimp only
  have hcheck : uint32 (addr + size) / pageSize < totalPages →
      addr / pageSize ≤ uint32 (addr + size) / pageSize →
      ∃ b, checkAllocated m pt (addr / pageSize) (uint32 (addr + size) / pageSize) = .ok b := by
    intro hu hle
    apply checkAllocatedFrom_total
    omega
  split
  · exact ⟨false, rfl⟩
  rename_i hle
  split
  · exact ⟨true, rfl⟩
  split
  · rename_i hregion
    exact hcheck hregion.2.2 (Nat.le_of_not_lt hle)
  split
  · exact ⟨true, rfl⟩
  split
  · rename_i hregion
    exact hcheck hregion.2 (Nat.le_of_not_lt hle)
  · exact ⟨false, rfl⟩

/-- A buffer that is accepted and can be read is printed completely, and its size is
the result. Every other call returns a negative error and prints nothing. -/
theorem write_prints (m : Mm) (pt : Slot) (kern : Staging) (screen : Screen) (fd : Int) (buffer : Nat)
    (size : Int) :
    (fd = 1 → accessOk m pt .verifyRead buffer (uint32 size) = .ok true → 0 ≤ size →
      (∀ k < size.toNat, ∃ v, loadByte m pt (buffer + k) = .ok v) →
      ∃ bytes kern', loadBytes m pt buffer size.toNat = .ok bytes ∧
        sysWrite m pt kern screen fd buffer size = .ok (kern', bytes.foldl Screen.printc screen, size) ∧
        (bytes.foldl Screen.printc screen).port = screen.port ++ bytes) ∧
    (fd ≠ 1 ∨ accessOk m pt .verifyRead buffer (uint32 size) ≠ .ok true ∨ size < 0 →
      ∃ e < 0, sysWrite m pt kern screen fd buffer size = .ok (kern, screen, e)) := by
  constructor
  · rintro rfl hok hsize hread
    obtain ⟨bytes, hlen, hholds⟩ := exists_userHolds hread
    have hstart : Printed m pt screen bytes ⟨buffer, size, kern, screen⟩ bytes :=
      ⟨hholds, by dsimp only; omega, rfl⟩
    obtain ⟨s, rest, hloop, hprinted, hleft⟩ := writeLoop_prints hstart
    obtain ⟨s', hrest, hzero, hscreen⟩ := writeRest_prints hprinted hleft
    refine ⟨bytes, s'.kern, ?_, ?_, Screen.foldl_printc_port ..⟩
    · rw [← hlen]
      exact loadBytes_eq hholds
    · have hneg : ¬ size < 0 := Int.not_lt.mpr hsize
      rw [sysWrite, if_neg (by decide), hok, ok_bind, if_neg (by decide), if_neg hneg, hloop, ok_bind,
        hrest, ok_bind, hzero, hscreen, Int.sub_zero]
      rfl
  · intro hbad
    by_cases hfd : fd = 1
    · subst hfd
      obtain ⟨ok, hok⟩ := accessOk_total m pt .verifyRead buffer (uint32 size)
      rw [sysWrite, if_neg (by decide), hok, ok_bind]
      cases ok with
      | false => exact ⟨-efault, by decide, rfl⟩
      | true =>
        have hneg : size < 0 := (hbad.resolve_left (by simp)).resolve_left (fun h => h hok)
        exact ⟨-einval, by decide, if_pos hneg⟩
    · have hret : checkFd fd .escriptura = -ebadf := if_pos hfd
      refine ⟨-ebadf, by decide, ?_⟩
      rw [sysWrite, hret, if_pos (by decide)]

/-- Process 1 writes the first three bytes of its data, all of which hold 7. -/
theorem write_prints_three : ∃ kern' screen',
    sysWrite (bootMm fun _ _ => 7) 8 (fun _ => 0) (.initial fun _ => 0) 1 1048576 3 =
      .ok (kern', screen', 3) ∧ screen'.port = [7, 7, 7] := by
  have hboot := bootMm_spec fun _ _ => 7
  have hload : ∀ k < 3, loadByte (bootMm fun _ _ => 7) 8 (1048576 + k) = .ok 7 := by
    intro k hk
    obtain ⟨loc, hloc⟩ := hboot.data_mapped (x := 1048576 + k)
      (by simp only [DataPage, pagLogInitData, lUserStart, pageSize, numPagData]; omega)
    rw [loadByte, hloc, ok_bind, hboot.ram]
    rfl
  have hacc : accessOk (bootMm fun _ _ => 7) 8 .verifyRead 1048576 (uint32 3) = .ok true := by
    rw [accessOk_iff]
    exact ⟨by decide, .inl (by decide)⟩
  obtain ⟨bytes, kern', hbytes, hwrite, hport⟩ := (write_prints (bootMm fun _ _ => 7) 8 (fun _ => 0)
    (.initial fun _ => 0) 1 1048576 3).1 rfl hacc (by decide) fun k hk => ⟨7, hload k hk⟩
  have hseven : loadBytes (bootMm fun _ _ => 7) 8 1048576 3 = .ok [7, 7, 7] := by
    have h0 := hload 0 (by decide)
    have h1 := hload 1 (by decide)
    have h2 := hload 2 (by decide)
    simp only [Nat.add_zero] at h0
    simp only [loadBytes, h0, h1, h2, ok_bind, pure_eq_ok]
  rw [show (3 : Int).toNat = 3 from rfl, hseven] at hbytes
  cases hbytes
  exact ⟨kern', _, hwrite, hport⟩

end Writes

end Zeos
