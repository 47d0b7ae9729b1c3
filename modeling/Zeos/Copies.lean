import Zeos.Writing
import Zeos.Lib.Blocks

/-!
# The block routines of `utils.c` on a linear memory

`copy_data`, `copy_from_user` and `copy_to_user` have the same body and `zero_out` is
its half without loads. Here they run on all bytes of a 32-bit address space at once,
with pointers that wrap. The routines of the kernel that go through a page table or the
buffer of a system call are the same program on other machines.
-/

namespace Zeos

open Blocks Loops
set_option autoImplicit false

abbrev Memory := UInt32 → UInt8

namespace Memory

def machine : Machine Fault Memory UInt32 UInt8 where
  skip p k := p + UInt32.ofNat k
  load mem p := .ok (mem p)
  store mem q b := .ok (Function.update mem q b)
  skip_zero p := UInt32.add_zero p
  skip_skip p i j := by
    rw [UInt32.ofNat_add, UInt32.add_assoc]

def copyData (mem : Memory) (start dest : UInt32) (size : Int) : Except Fault Memory :=
  moveBlock machine mem start dest size

def zeroOut (mem : Memory) (dest : UInt32) (size : Int) : Except Fault Memory :=
  fillBlock machine 0 mem dest size

def copyFromUser (mem : Memory) (start dest : UInt32) (size : Int) : Except Fault (Memory × Int) := do
  let mem ← moveBlock machine mem start dest size
  pure (mem, 0)

def copyToUser (mem : Memory) (start dest : UInt32) (size : Int) : Except Fault (Memory × Int) := do
  let mem ← moveBlock machine mem start dest size
  pure (mem, 0)

/-- `mem'` is `mem` with the bytes `v` in the `n` places from `dest` on. -/
structure Overwritten (mem mem' : Memory) (dest : UInt32) (n : Nat) (v : Nat → UInt8) : Prop where
  block : ∀ k, k < n → mem' (dest + UInt32.ofNat k) = v k
  frame : ∀ a, (∀ k, k < n → a ≠ dest + UInt32.ofNat k) → mem' a = mem a

section Ranges
variable {start dest : UInt32} {size : Int}

/-- A range shorter than the address space does not meet itself, even where it wraps. -/
theorem range_inj {n i j : Nat} (hn : n ≤ 4294967296) (hi : i < n) (hj : j < n)
    (he : dest + UInt32.ofNat i = dest + UInt32.ofNat j) : i = j := by
  have he' := congrArg UInt32.toNat he
  rw [UInt32.toNat_add, UInt32.toNat_add, UInt32.toNat_ofNat', UInt32.toNat_ofNat'] at he'
  omega

theorem readable (start : UInt32) (n : Nat) :
    Readable machine id (fun _ => True) start n (fun k => start + UInt32.ofNat k) := by
  intro mem k _ _
  rfl

theorem writable {n : Nat} (dest : UInt32) (hn : n ≤ 4294967296) :
    Writable machine id (fun _ => True) dest n (fun k => dest + UInt32.ofNat k) where
  store _ _ _ _ _ := ⟨_, rfl, trivial, rfl⟩
  inj _ _ hi hj he := range_inj hn hi hj he

theorem overwritten_of_filled {mem mem' : Memory} {n : Nat} {v : Nat → UInt8}
    (h : Filled id (fun _ => True) (fun k => dest + UInt32.ofNat k) v n mem mem') :
    Overwritten mem mem' dest n v :=
  ⟨h.filled, h.frame⟩

end Ranges

/-- Every `int` is below `2^31`, and a negative size is an empty range. -/
theorem blockRoutines_exact (mem : Memory) (start dest : UInt32) (size : Int)
    (hsize : size < 2147483648) :
    ((∀ i, i < size.toNat → ∀ j, j < size.toNat → start + UInt32.ofNat i ≠ dest + UInt32.ofNat j) →
      ∃ mem', copyData mem start dest size = .ok mem' ∧
        copyFromUser mem start dest size = .ok (mem', 0) ∧
        copyToUser mem start dest size = .ok (mem', 0) ∧
        Overwritten mem mem' dest size.toNat fun k => mem (start + UInt32.ofNat k)) ∧
    ∃ mem', zeroOut mem dest size = .ok mem' ∧ Overwritten mem mem' dest size.toNat fun _ => 0 := by
  have hw := writable (n := size.toNat) dest (by omega)
  constructor
  · intro hdisjoint
    obtain ⟨mem', hmove, hfilled⟩ := moveBlock_filled (s := mem) (readable start size.toNat) hw
      (fun i j hi hj => hdisjoint i hi j hj) trivial
    refine ⟨mem', hmove, ?_, ?_, overwritten_of_filled hfilled⟩
    · rw [copyFromUser, hmove]
      rfl
    · rw [copyToUser, hmove]
      rfl
  · obtain ⟨mem', hfill, hfilled⟩ := fillBlock_filled (b := 0) (s := mem) hw trivial
    exact ⟨mem', hfill, overwritten_of_filled hfilled⟩

/-- Seven bytes, with a destination that begins just below the top of the address space
and ends after it has wrapped to address `4`. -/
theorem blockRoutines_exact_at_top :
    ∃ mem', copyData (fun a => a.toUInt8) 0x10 0xfffffffe 7 = .ok mem' ∧ mem' 0xfffffffe = 0x10 ∧
      mem' 4 = 0x16 ∧ mem' 5 = 5 := by
  have hdisjoint : ∀ i, i < (7 : Int).toNat → ∀ j, j < (7 : Int).toNat →
      (0x10 : UInt32) + UInt32.ofNat i ≠ 0xfffffffe + UInt32.ofNat j := by decide
  obtain ⟨mem', hcopy, _, _, hover⟩ :=
    (blockRoutines_exact (fun a => a.toUInt8) 0x10 0xfffffffe 7 (by decide)).1 hdisjoint
  refine ⟨mem', hcopy, hover.block 0 (by decide), hover.block 6 (by decide), ?_⟩
  exact hover.frame 5 (by decide)

end Memory

end Zeos
