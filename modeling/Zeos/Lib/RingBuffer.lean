import Mathlib.Data.Fin.Basic
import Mathlib.Data.List.Basic
import Mathlib.Tactic.Common

/-!
# Ring buffers with two indices

An array of `n` cells with a reading and a writing index. The buffer is empty when
the two are equal, so that one cell is always left unused. `contents` is the queue
that such a buffer stands for.
-/

namespace Zeos.RingBuffer

set_option autoImplicit false

universe u
variable {n : Nat} {α : Type u}

/-- The index after `i`, around the end of the array. -/
def next (i : Fin n) : Fin n := ⟨(i.val + 1) % n, Nat.mod_lt _ (Nat.lt_of_le_of_lt (Nat.zero_le _) i.isLt)⟩

theorem next_val (i : Fin n) : (next i).val = if i.val + 1 = n then 0 else i.val + 1 := by
  have hi := i.isLt
  unfold next
  split
  · rename_i he
    simp [he]
  · exact Nat.mod_eq_of_lt (by omega)

def used (r w : Fin n) : Nat := if r.val ≤ w.val then w.val - r.val else w.val + n - r.val

theorem used_lt (r w : Fin n) : used r w < n := by
  have hr := r.isLt
  have hw := w.isLt
  unfold used
  split <;> omega

theorem used_eq_zero {r w : Fin n} : used r w = 0 ↔ r = w := by
  have hr := r.isLt
  have hw := w.isLt
  rw [Fin.ext_iff]
  unfold used
  split <;> omega

theorem used_eq_emod (r w : Fin n) : (used r w : Int) = ((w.val : Int) - r.val) % n := by
  have hr := r.isLt
  have hw := w.isLt
  unfold used
  split
  · rw [Int.emod_eq_of_lt (by omega) (by omega)]
    omega
  · rw [← Int.add_emod_right, Int.emod_eq_of_lt (by omega) (by omega)]
    omega

theorem next_eq_iff {r w : Fin n} : next w = r ↔ used r w = n - 1 := by
  have hr := r.isLt
  have hw := w.isLt
  rw [Fin.ext_iff, next_val]
  unfold used
  split <;> split <;> omega

theorem used_next_right {r w : Fin n} (h : next w ≠ r) : used r (next w) = used r w + 1 := by
  have hr := r.isLt
  have hw := w.isLt
  rw [ne_eq, Fin.ext_iff, next_val] at h
  unfold used
  rw [next_val]
  split_ifs at h ⊢ <;> omega

theorem used_next_left {r w : Fin n} (h : r ≠ w) : used r w = used (next r) w + 1 := by
  have hr := r.isLt
  have hw := w.isLt
  rw [ne_eq, Fin.ext_iff] at h
  unfold used
  rw [next_val]
  split_ifs <;> omega

/-- The cells in use, from the reading index on. -/
def contentsFrom (keys : Fin n → α) (r : Fin n) : Nat → List α
  | 0 => []
  | k + 1 => keys r :: contentsFrom keys (next r) k

def contents (keys : Fin n → α) (r w : Fin n) : List α := contentsFrom keys r (used r w)

theorem length_contentsFrom (keys : Fin n → α) (r : Fin n) (k : Nat) :
    (contentsFrom keys r k).length = k := by
  induction k generalizing r with
  | zero => rfl
  | succ k ih => rw [contentsFrom, List.length_cons, ih]

theorem length_contents (keys : Fin n → α) (r w : Fin n) :
    (contents keys r w).length = used r w := length_contentsFrom keys r _

theorem length_contents_lt (keys : Fin n → α) (r w : Fin n) : (contents keys r w).length < n := by
  rw [length_contents]
  exact used_lt r w

theorem contents_eq_nil {keys : Fin n → α} {r w : Fin n} : contents keys r w = [] ↔ r = w := by
  rw [← List.length_eq_zero_iff, length_contents, used_eq_zero]

theorem contents_pop (keys : Fin n → α) {r w : Fin n} (h : r ≠ w) :
    contents keys r w = keys r :: contents keys (next r) w := by
  unfold contents
  rw [used_next_left h]
  rfl

theorem contentsFrom_push (keys : Fin n → α) {r w : Fin n} {k : Nat} (hk : used r w = k) (x : α) :
    contentsFrom (Function.update keys w x) r (k + 1) = contentsFrom keys r k ++ [x] := by
  induction k generalizing r with
  | zero =>
    cases used_eq_zero.mp hk
    simp [contentsFrom]
  | succ k ih =>
    have hne : r ≠ w := by
      intro he
      rw [used_eq_zero.mpr he] at hk
      cases hk
    have hrest : used (next r) w = k := by
      have := used_next_left hne
      omega
    rw [contentsFrom, ih hrest, Function.update_of_ne hne]
    rfl

theorem contents_push (keys : Fin n → α) {r w : Fin n} (h : next w ≠ r) (x : α) :
    contents (Function.update keys w x) r (next w) = contents keys r w ++ [x] := by
  unfold contents
  rw [used_next_right h]
  exact contentsFrom_push keys rfl x

end Zeos.RingBuffer
