import Zeos.Faults
import Zeos.Steps

/-!
# Memory after boot

Boot allocates the even frames from 256 on, in order. This gives the invariant of
the frames its first state, and the shared pages and the code their fixed frames.
-/

namespace Zeos

open Loops Holders
set_option autoImplicit false

def Allocated (m : Mm) (k : Nat) : Prop :=
  ∀ f, m.physMem f = if f < 256 ∨ (f < 256 + 2 * k ∧ f % 2 = 0) then 1 else 0

section Allocation
variable {m : Mm} {k : Nat}

theorem frameCandidates_find (h : Allocated m k) (hk : k < 384) :
    frameCandidates.find? (fun i => m.physMem i = freeFrameMark) = some (256 + 2 * k) := by
  have hsplit : frameCandidates = List.range' 256 k 2 ++
      (256 + 2 * k) :: List.range' (256 + 2 * k + 2) (384 - k - 1) 2 := by
    rw [← List.range'_succ, List.range'_append]
    rw [show k + (384 - k - 1 + 1) = 384 by omega]
    rfl
  rw [hsplit, List.find?_append]
  have hnone : (List.range' 256 k 2).find? (fun i => m.physMem i = freeFrameMark) = none := by
    apply List.find?_eq_none.mpr
    intro f hf
    obtain ⟨i, hi, rfl⟩ := List.mem_range'.mp hf
    rw [decide_eq_true_eq, h, if_pos (by omega)]
    decide
  have hfree : m.physMem (256 + 2 * k) = freeFrameMark := by
    rw [h, if_neg (by omega)]
  rw [hnone, Option.none_or, List.find?_cons_of_pos (by simpa using hfree)]

theorem allocFrame_allocated (h : Allocated m k) (hk : k < 384) :
    allocFrame m = (((256 + 2 * k : Nat) : Int), incFrame m (256 + 2 * k)) ∧
      Allocated (incFrame m (256 + 2 * k)) (k + 1) := by
  constructor
  · rw [allocFrame, frameCandidates_find h hk]
  · intro f
    change Function.update m.physMem (256 + 2 * k) _ f = _
    by_cases hf : f = 256 + 2 * k
    · subst hf
      rw [Function.update_self, h, if_neg (by omega), if_pos (by omega)]
    · rw [Function.update_of_ne hf, h]
      congr 1
      rw [eq_iff_iff]
      omega

end Allocation

/-- The tables that `init_mm` leaves to `set_user_pages`. -/
structure InitialMm (image : Nat → Fin pageSize → UInt8) (m : Mm) (i : Nat) : Prop where
  allocated : Allocated m i
  shared : ∀ id, id < i → m.sharedPages id = ⟨((256 + 2 * id : Nat) : Int), 0, 0⟩
  table : ∀ u q, m.pagusrTable u q = kernelEntry q
  ram : m.ram = image

/-- Memory once the shared pages and the first `i` code pages exist. -/
structure CodeMapped (image : Nat → Fin pageSize → UInt8) (m : Mm) (i : Nat) : Prop where
  allocated : Allocated m (numSharedPages + i)
  shared : ∀ id, id < numSharedPages → m.sharedPages id = ⟨((256 + 2 * id : Nat) : Int), 0, 0⟩
  table : ∀ u q, m.pagusrTable u q =
    if u = 8 ∧ pagLogInitCode ≤ q ∧ q < pagLogInitCode + i then
      codeEntry (276 + 2 * (q - pagLogInitCode)) else kernelEntry q
  ram : m.ram = image

theorem initMm_spec (image : Nat → Fin pageSize → UInt8) :
    InitialMm image (initMm ⟨fun _ => 0, fun _ => ⟨0, 0, 0⟩, fun _ _ => .zero, image⟩) numSharedPages := by
  refine times_preserves (fun i m => InitialMm image m i) ?_ ⟨?_, ?_, fun _ _ => rfl, rfl⟩
  · intro i m hi h
    obtain ⟨hal, hal'⟩ := allocFrame_allocated h.allocated (by simp only [numSharedPages] at hi; omega)
    dsimp only
    rw [hal]
    refine ⟨hal', ?_, h.table, h.ram⟩
    intro id hid
    change Function.update m.sharedPages i _ id = _
    by_cases hidi : id = i
    · rw [hidi, Function.update_self]
    · rw [Function.update_of_ne hidi]
      exact h.shared id (by omega)
  · intro f
    change (if f < 256 then 1 else 0) = _
    congr 1
    rw [eq_iff_iff]
    omega
  · intro id hid
    omega

theorem setCodePages_spec {image : Nat → Fin pageSize → UInt8} {m : Mm}
    (h : InitialMm image m numSharedPages) :
    CodeMapped image (setCodePages m 8) numPagCode := by
  refine times_preserves (fun i m => CodeMapped image m i) ?_ ⟨h.allocated, h.shared, ?_, h.ram⟩
  · intro i m hi h
    obtain ⟨hal, hal'⟩ := allocFrame_allocated h.allocated (by
      simp only [numSharedPages, numPagCode] at hi ⊢
      omega)
    dsimp only
    rw [hal]
    have hu32 : uint32 ((256 + 2 * (numSharedPages + i) : Nat) : Int) = 276 + 2 * i := by
      unfold uint32
      simp only [numSharedPages, numPagCode] at hi ⊢
      omega
    refine ⟨hal', h.shared, ?_, h.ram⟩
    intro u q
    rw [Mm.setEntry_table, hu32]
    change (if u = 8 ∧ q = pagLogInitCode + i then _ else m.pagusrTable u q) = _
    rw [h.table]
    by_cases hu : u = 8
    · simp only [hu, true_and]
      by_cases hq : q = pagLogInitCode + i
      · rw [if_pos hq, if_pos (by omega), hq, Nat.add_sub_cancel_left]
      · rw [if_neg hq]
        congr 1
        rw [eq_iff_iff]
        omega
    · simp [hu]
  · intro u q
    rw [if_neg (by omega)]
    exact h.table u q

theorem kernelEntry_zero {q : Nat} (hq : numPagKernel ≤ q) : kernelEntry q = .zero := by
  rw [kernelEntry, if_neg (by omega)]

theorem CodeMapped.data_zero {image : Nat → Fin pageSize → UInt8} {m : Mm}
    (h : CodeMapped image m numPagCode) (u : Slot) {p : Nat} (hp : DataPage p) :
    m.pagusrTable u p = .zero := by
  rw [h.table, if_neg (fun hc => data_not_code hp hc.2), kernelEntry_zero (user_page (.inl hp))]

theorem CodeMapped.frameInv {image : Nat → Fin pageSize → UInt8} {m : Mm}
    (h : CodeMapped image m numPagCode) (useCow : Bool) : FrameInv useCow m := by
  have hdata : ∀ u p, DataPage p → m.pagusrTable u p = .zero := fun u p hp => h.data_zero u hp
  refine ⟨?_, ?_, fun u p hp => .inl (hdata u p hp), ?_, ?_, ?_, ?_⟩
  · intro id hid
    rw [h.shared id hid]
  · intro f hf
    have h0 : dataRefs m f = 0 := by
      apply refs_eq_zero.mpr
      rintro ⟨u, p⟩ hx
      unfold heldFrame
      rw [hdata u p (mem_dataPlaces.mp hx)]
      simp
    rw [h.allocated, h0, Nat.zero_add]
    congr 1
    rw [eq_iff_iff]
    simp only [FixedFrame, numSharedPages, numPagCode, numPagKernel] at hf ⊢
    omega
  · intro u p v q hp _ hrw
    rw [hdata u p hp] at hrw
    cases hrw
  · intro u p hp
    rw [h.table]
    by_cases hu : u = 8
    · rw [if_pos ⟨hu, hp.1, hp.2⟩]
      refine .inr ⟨rfl, rfl, ?_⟩
      change (276 + 2 * (p - pagLogInitCode)) % 1048576 = _
      simp only [CodePage, numPagCode] at hp
      omega
    · rw [if_neg (fun hc => hu hc.1)]
      exact .inl (kernelEntry_zero (user_page (.inr (.inl hp))))
  · intro u p hp
    rw [h.table, if_neg]
    simp only [pagLogInitCode, pagLogInitData, lUserStart, pageSize, numPagKernel] at hp ⊢
    omega
  · intro u p hp
    refine .inl ?_
    rw [h.table, if_neg (fun hc => (region_disjoint hp).2 hc.2),
      kernelEntry_zero (user_page (.inr (.inr hp)))]

/-- Memory as `main` leaves it. -/
structure BootedMm (image : Nat → Fin pageSize → UInt8) (m : Mm) : Prop where
  inv : ∀ useCow, FrameInv useCow m
  data : ∀ p, DataPage p → m.pagusrTable 8 p ≠ .zero
  code : ∀ p, CodePage p → m.pagusrTable 8 p = codeEntry (276 + 2 * (p - pagLogInitCode))
  other : ∀ u p, u ≠ 8 → numPagKernel ≤ p → m.pagusrTable u p = .zero
  region : ∀ u p, SharedRegion p → m.pagusrTable u p = .zero
  shared : ∀ id, id < numSharedPages → m.sharedPages id = ⟨((256 + 2 * id : Nat) : Int), 0, 0⟩
  ram : m.ram = image

structure DataMapped (m m' : Mm) (n : Nat) : Prop where
  inv : ∀ useCow, FrameInv useCow m'
  done : ∀ i, i < n → m'.pagusrTable 8 (pagLogInitData + i) ≠ .zero
  todo : ∀ i, n ≤ i → i < numPagData → m'.pagusrTable 8 (pagLogInitData + i) = .zero
  other : ∀ u p, ¬ (u = 8 ∧ DataPage p) → m'.pagusrTable u p = m.pagusrTable u p
  sharedPages : m'.sharedPages = m.sharedPages
  ram : m'.ram = m.ram

theorem setDataPages_spec {m : Mm} (h : ∀ useCow, FrameInv useCow m)
    (hz : ∀ p, DataPage p → m.pagusrTable 8 p = .zero) :
    DataMapped m (setDataPages m 8) numPagData := by
  refine times_preserves (fun i m' => DataMapped m m' i) ?_
    ⟨h, fun i hi => absurd hi (Nat.not_lt_zero i), fun i _ hi => hz _ ⟨by omega, by omega⟩,
      fun _ _ _ => rfl, rfl, rfl⟩
  intro i m' hi hm
  have hp : DataPage (pagLogInitData + i) := ⟨by omega, by omega⟩
  obtain ⟨f, hf, halloc, hl, h0⟩ := (hm.inv false).alloc
  have hflt : f < totalPages := hf.upper
  have hu32 : uint32 ((f : Nat) : Int) = f := uint32_natCast (hflt.trans (by decide))
  dsimp only
  rw [halloc, hu32]
  refine ⟨fun useCow => (hm.inv useCow).allocData hp (hm.todo i (le_refl i) hi) hf hl h0, ?_, ?_, ?_,
    hm.sharedPages, hm.ram⟩
  · intro j hj
    rw [Mm.setEntry_table]
    split
    · exact ne_zero_of_present rfl
    · rename_i hne
      have hji : j ≠ i := fun he => hne ⟨rfl, by rw [he]⟩
      exact hm.done j (by omega)
  · intro j hj hj'
    rw [Mm.setEntry_table, if_neg (by omega)]
    exact hm.todo j (by omega) hj'
  · intro u p hup
    have hno : ¬ (u = 8 ∧ p = pagLogInitData + i) := by
      rintro ⟨hu, rfl⟩
      exact hup ⟨hu, hp⟩
    rw [Mm.setEntry_table, if_neg hno]
    exact hm.other u p hup

theorem DataMapped.booted {image : Nat → Fin pageSize → UInt8} {m m' : Mm}
    (hc : CodeMapped image m numPagCode) (hd : DataMapped m m' numPagData) : BootedMm image m' := by
  refine ⟨hd.inv, ?_, ?_, ?_, ?_, ?_, hd.ram.trans hc.ram⟩
  · intro p hp
    obtain ⟨hi, he⟩ := dataPage_index hp
    have := hd.done _ hi
    rwa [he] at this
  · intro p hp
    rw [hd.other 8 p (fun hcd => data_not_code hcd.2 hp), hc.table, if_pos ⟨rfl, hp.1, hp.2⟩]
  · intro u p hu hp
    rw [hd.other u p (fun hcd => hu hcd.1), hc.table, if_neg (fun hcode => hu hcode.1),
      kernelEntry_zero hp]
  · intro u p hp
    rw [hd.other u p (fun hcd => (region_disjoint hp).1 hcd.2), hc.table,
      if_neg (fun hcode => (region_disjoint hp).2 hcode.2), kernelEntry_zero (user_page (.inr (.inr hp)))]
  · intro id hid
    rw [hd.sharedPages]
    exact hc.shared id hid

theorem bootMm_spec (image : Nat → Fin pageSize → UInt8) : BootedMm image (bootMm image) := by
  have hc := setCodePages_spec (initMm_spec image)
  exact (setDataPages_spec (fun useCow => hc.frameInv useCow) fun p hp => hc.data_zero 8 hp).booted hc

theorem setDataPages_allocated {m : Mm} {k : Nat} (pt : Slot) (h : Allocated m k)
    (hk : k + numPagData ≤ 384) : Allocated (setDataPages m pt) (k + numPagData) := by
  refine times_preserves (fun i m => Allocated m (k + i)) ?_ h
  intro i m hi h
  obtain ⟨hal, hal'⟩ := allocFrame_allocated h (by omega)
  dsimp only
  rw [hal]
  exact hal'

theorem CodeMapped.allocated_data {image : Nat → Fin pageSize → UInt8} {m : Mm}
    (h : CodeMapped image m numPagCode) : Allocated (setDataPages m 8) 38 :=
  setDataPages_allocated 8 h.allocated (by decide)

theorem CodeMapped.table_data {image : Nat → Fin pageSize → UInt8} {m : Mm}
    (h : CodeMapped image m numPagCode) {u : Slot} {p : Nat} (hup : ¬ (u = 8 ∧ DataPage p)) :
    (setDataPages m 8).pagusrTable u p =
      if u = 8 ∧ CodePage p then codeEntry (276 + 2 * (p - pagLogInitCode)) else kernelEntry p := by
  have hd := setDataPages_spec (fun useCow => h.frameInv useCow) fun p hp => h.data_zero 8 hp
  rw [hd.other u p hup, h.table]
  rfl

end Zeos
