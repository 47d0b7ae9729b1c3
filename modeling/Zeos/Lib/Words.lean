import Mathlib.Data.BitVec
import Mathlib.Data.List.Basic
import Mathlib.Logic.Function.Basic

/-!
# Words in memory

A memory of 32-bit words behind 32-bit addresses. A word takes four addresses, and
the words that lie upwards of an address are compared with a list, the lowest
first, as a stack that grows downwards is read. Addresses wrap, so that the lists
are shorter than the memory.
-/

namespace Zeos.Words

set_option autoImplicit false

abbrev Word := BitVec 32

abbrev Memory := Word → Word

/-- The address `k` words above `a`. -/
def above (a : Word) (k : Nat) : Word := a + BitVec.ofNat 32 (4 * k)

@[simp] theorem above_zero (a : Word) : above a 0 = a := by simp [above]

theorem above_add (a : Word) (j k : Nat) : above (above a j) k = above a (j + k) := by
  rw [above, above, above, BitVec.add_assoc, ← BitVec.ofNat_add, ← Nat.mul_add]

theorem above_one (a : Word) : above a 1 = a + 4 := rfl

theorem above_three (a : Word) : above a 3 = a + 12 := rfl

theorem above_succ (a : Word) (k : Nat) : above a (k + 1) = above (a + 4) k := by
  rw [← above_one, above_add, Nat.add_comm]

/-- Different words below the size of the memory have different addresses. -/
theorem above_inj {a : Word} {j k : Nat} (hj : j < 1073741824) (hk : k < 1073741824)
    (h : above a j = above a k) : j = k := by
  have h' := congrArg BitVec.toNat h
  have hj' : 4 * j < 2 ^ 32 := by omega
  have hk' : 4 * k < 2 ^ 32 := by omega
  have := a.isLt
  rw [above, above, BitVec.toNat_add, BitVec.toNat_add, BitVec.toNat_ofNat, BitVec.toNat_ofNat,
    Nat.mod_eq_of_lt hj', Nat.mod_eq_of_lt hk'] at h'
  omega

theorem above_sub (a : Word) (k : Nat) : above a (k + 1) - 4 = above a k := by
  rw [← above_add, above_one, BitVec.add_sub_cancel]

/-- The words from `a` upwards begin with those of the list. -/
def Holds (m : Memory) : Word → List Word → Prop
  | _, [] => True
  | a, w :: ws => m a = w ∧ Holds m (a + 4) ws

def writeWords (m : Memory) (a : Word) : List Word → Memory
  | [] => m
  | w :: ws => Function.update (writeWords m (a + 4) ws) a w

def readWords (m : Memory) (a : Word) : Nat → List Word
  | 0 => []
  | n + 1 => m a :: readWords m (a + 4) n

section Lists
variable {m m' : Memory} {a : Word} {us ws : List Word}

@[simp] theorem holds_cons {w : Word} : Holds m a (w :: ws) ↔ m a = w ∧ Holds m (a + 4) ws := .rfl

@[simp] theorem length_readWords (m : Memory) (a : Word) (n : Nat) :
    (readWords m a n).length = n := by
  induction n generalizing a with
  | zero => rfl
  | succ n ih => rw [readWords, List.length_cons, ih]

theorem Holds.get (h : Holds m a ws) {k : Nat} {w : Word} (hk : ws[k]? = some w) :
    m (above a k) = w := by
  induction ws generalizing a k with
  | nil => cases hk
  | cons v ws ih =>
    cases k with
    | zero =>
      rw [above_zero, h.1]
      exact Option.some.inj hk
    | succ k =>
      rw [above_succ]
      exact ih h.2 hk

theorem Holds.copy (h : Holds m a ws) {b : Word}
    (hm : ∀ k, k < ws.length → m' (above b k) = m (above a k)) : Holds m' b ws := by
  induction ws generalizing a b with
  | nil => trivial
  | cons w ws ih =>
    constructor
    · have h0 := hm 0 (Nat.succ_pos _)
      rw [above_zero, above_zero] at h0
      exact h0.trans h.1
    · apply ih h.2
      intro k hk
      rw [← above_succ, ← above_succ]
      exact hm (k + 1) (Nat.succ_lt_succ hk)

theorem Holds.congr (h : Holds m a ws) (hm : ∀ k, k < ws.length → m' (above a k) = m (above a k)) :
    Holds m' a ws := h.copy hm

theorem Holds.drop (h : Holds m a (us ++ ws)) : Holds m (above a us.length) ws := by
  induction us generalizing a with
  | nil => rwa [List.length_nil, above_zero]
  | cons u us ih =>
    rw [List.length_cons, above_succ]
    exact ih h.2

theorem Holds.take (h : Holds m a (us ++ ws)) : Holds m a us := by
  induction us generalizing a with
  | nil => trivial
  | cons u us ih => exact ⟨h.1, ih h.2⟩

theorem Holds.update (h : Holds m a ws) {b v : Word} (hb : ∀ k, k < ws.length → above a k ≠ b) :
    Holds (Function.update m b v) a ws :=
  h.congr fun k hk => Function.update_of_ne (hb k hk) _ _

theorem Holds.set (h : Holds m a ws) (hlen : ws.length ≤ 1073741824) {k : Nat} (hk : k < ws.length)
    (v : Word) : Holds (Function.update m (above a k) v) a (ws.set k v) := by
  induction ws generalizing a k with
  | nil => exact absurd hk (Nat.not_lt_zero k)
  | cons w ws ih =>
    rw [List.length_cons] at hlen hk
    cases k with
    | zero =>
      rw [above_zero]
      refine ⟨Function.update_self _ _ _, h.2.update ?_⟩
      intro j hj he
      rw [← above_succ] at he
      have := above_inj (by omega) (by omega) (he.trans (above_zero a).symm)
      omega
    | succ k =>
      refine ⟨(Function.update_of_ne ?_ _ _).trans h.1, ?_⟩
      · intro he
        have := above_inj (by omega) (by omega) ((above_zero a).trans he)
        omega
      · rw [above_succ]
        exact ih h.2 (by omega) (by omega)

end Lists

/-- The two memories differ at most in the words `lo` to `hi` above `a`. -/
def SameOutside (a : Word) (lo hi : Nat) (m m' : Memory) : Prop :=
  ∀ b, (∀ k, lo ≤ k → k < hi → b ≠ above a k) → m' b = m b

namespace SameOutside
variable {a : Word} {lo hi : Nat} {m m' m'' : Memory}

theorem refl (a : Word) (lo hi : Nat) (m : Memory) : SameOutside a lo hi m m := fun _ _ => rfl

theorem trans (h : SameOutside a lo hi m m') (h' : SameOutside a lo hi m' m'') :
    SameOutside a lo hi m m'' := fun b hb => (h' b hb).trans (h b hb)

theorem mono {lo' hi' : Nat} (h : SameOutside a lo hi m m') (hlo : lo' ≤ lo) (hhi : hi ≤ hi') :
    SameOutside a lo' hi' m m' :=
  fun b hb => h b fun k hk hk' => hb k (hlo.trans hk) (hk'.trans_le hhi)

theorem update {n : Nat} (v : Word) (hlo : lo ≤ n) (hhi : n < hi) :
    SameOutside a lo hi m (Function.update m (above a n) v) :=
  fun _ hb => Function.update_of_ne (hb n hlo hhi) _ _

theorem at_index (h : SameOutside a lo hi m m') (hmax : hi ≤ 1073741824) {k : Nat}
    (hk : k < 1073741824) (hout : k < lo ∨ hi ≤ k) : m' (above a k) = m (above a k) := by
  apply h
  intro j hlo hhi he
  have := above_inj hk (by omega) he
  omega

theorem holds (h : SameOutside a lo hi m m') (hmax : hi ≤ 1073741824) {n : Nat} {ws : List Word}
    (hw : Holds m (above a n) ws) (hlen : n + ws.length ≤ 1073741824)
    (hout : n + ws.length ≤ lo ∨ hi ≤ n) : Holds m' (above a n) ws := by
  apply hw.congr
  intro k hk
  rw [above_add]
  exact h.at_index hmax (by omega) (by omega)

end SameOutside

theorem Holds.push {m : Memory} {a v : Word} {n : Nat} {ws : List Word}
    (h : Holds m (above a (n + 1)) ws) (hlen : n + 1 + ws.length ≤ 1073741824) :
    Holds (Function.update m (above a n) v) (above a n) (v :: ws) := by
  refine ⟨Function.update_self _ _ _, ?_⟩
  rw [← above_one, above_add]
  exact SameOutside.holds (.update v le_rfl (Nat.lt_succ_self n)) (by omega) h hlen (.inr le_rfl)

theorem holds_writeWords (m : Memory) (a : Word) (ws : List Word) {n : Nat}
    (hlen : n + ws.length ≤ 1073741824) : Holds (writeWords m (above a n) ws) (above a n) ws := by
  induction ws generalizing n with
  | nil => trivial
  | cons w ws ih =>
    rw [List.length_cons] at hlen
    have := ih (n := n + 1) (by omega)
    rw [writeWords, ← above_one, above_add]
    exact this.push (by omega)

theorem same_writeWords (m : Memory) (a : Word) (ws : List Word) {lo hi n : Nat} (hlo : lo ≤ n)
    (hhi : n + ws.length ≤ hi) : SameOutside a lo hi m (writeWords m (above a n) ws) := by
  induction ws generalizing n with
  | nil => exact .refl a lo hi m
  | cons w ws ih =>
    rw [List.length_cons] at hhi
    have := ih (n := n + 1) (by omega) (by omega)
    rw [writeWords, ← above_one, above_add]
    exact this.trans (.update w hlo (by omega))

end Zeos.Words
