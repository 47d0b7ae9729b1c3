import Zeos.Lib.Loops
import Mathlib.Logic.Function.Basic

/-!
# Blocks written by words and by bytes

A block routine moves four cells at a time while more than four are left and single
cells after that. The cells are reached through pointers, and what a pointer means is
left to a `Machine`. The rules see a state through `view`, the contents of all places,
and restrict it by an invariant `I` under which a pointer always reaches the same place.
They ask only that the cells of the block can be reached and that those written differ
from each other and from those read.
-/

namespace Zeos.Blocks

open Loops
set_option autoImplicit false

universe u
variable {ε : Type u} {σ α β π : Type}

/-- Cells with contents in `β`, behind pointers in `α`. `skip p k` points `k` cells
after `p`. -/
structure Machine (ε : Type u) (σ α β : Type) where
  skip : α → Nat → α
  load : σ → α → Except ε β
  store : σ → α → β → Except ε σ
  skip_zero : ∀ p, skip p 0 = p
  skip_skip : ∀ p i j, skip (skip p i) j = skip p (i + j)

structure Word (β : Type) where
  b0 : β
  b1 : β
  b2 : β
  b3 : β

def loadWord (M : Machine ε σ α β) (s : σ) (p : α) : Except ε (Word β) := do
  let b0 ← M.load s p
  let b1 ← M.load s (M.skip p 1)
  let b2 ← M.load s (M.skip p 2)
  let b3 ← M.load s (M.skip p 3)
  pure ⟨b0, b1, b2, b3⟩

def storeWord (M : Machine ε σ α β) (s : σ) (q : α) (w : Word β) : Except ε σ := do
  let s ← M.store s q w.b0
  let s ← M.store s (M.skip q 1) w.b1
  let s ← M.store s (M.skip q 2) w.b2
  M.store s (M.skip q 3) w.b3

def moveWords (M : Machine ε σ α β) (s : σ) (p q : α) (size : Int) :
    Except ε (σ × α × α × Int) :=
  if 4 < size then do
    let w ← loadWord M s p
    let s ← storeWord M s q w
    moveWords M s (M.skip p 4) (M.skip q 4) (size - 4)
  else .ok (s, p, q, size)
termination_by size.toNat

def moveBytes (M : Machine ε σ α β) (s : σ) (p q : α) (size : Int) : Except ε σ :=
  if 0 < size then do
    let b ← M.load s p
    let s ← M.store s q b
    moveBytes M s (M.skip p 1) (M.skip q 1) (size - 1)
  else .ok s
termination_by size.toNat

def moveBlock (M : Machine ε σ α β) (s : σ) (p q : α) (size : Int) : Except ε σ := do
  let (s, p, q, size) ← moveWords M s p q size
  moveBytes M s p q size

def fillWords (M : Machine ε σ α β) (b : β) (s : σ) (q : α) (size : Int) : Except ε (σ × α × Int) :=
  if 4 < size then do
    let s ← storeWord M s q ⟨b, b, b, b⟩
    fillWords M b s (M.skip q 4) (size - 4)
  else .ok (s, q, size)
termination_by size.toNat

def fillBytes (M : Machine ε σ α β) (b : β) (s : σ) (q : α) (size : Int) : Except ε σ :=
  if 0 < size then do
    let s ← M.store s q b
    fillBytes M b s (M.skip q 1) (size - 1)
  else .ok s
termination_by size.toNat

def fillBlock (M : Machine ε σ α β) (b : β) (s : σ) (q : α) (size : Int) : Except ε σ := do
  let (s, q, size) ← fillWords M b s q size
  fillBytes M b s q size

-- each loop is the only function that satisfies its own equation
section Equations
variable {M : Machine ε σ α β}

theorem eq_moveWords {f : σ → α → α → Int → Except ε (σ × α × α × Int)}
    (hf : ∀ s p q size, f s p q size =
      if 4 < size then
        loadWord M s p >>= fun w => storeWord M s q w >>= fun s' =>
          f s' (M.skip p 4) (M.skip q 4) (size - 4)
      else .ok (s, p, q, size)) (s : σ) (p q : α) (size : Int) :
    f s p q size = moveWords M s p q size := by
  induction s, p, q, size using moveWords.induct M with
  | case1 s p q size hs ih =>
    rw [hf, moveWords, if_pos hs, if_pos hs]
    congr 1
    funext w
    congr 1
    funext s'
    exact ih s'
  | case2 s p q size hs => rw [hf, moveWords, if_neg hs, if_neg hs]

theorem eq_moveBytes {f : σ → α → α → Int → Except ε σ}
    (hf : ∀ s p q size, f s p q size =
      if 0 < size then
        M.load s p >>= fun b => M.store s q b >>= fun s' =>
          f s' (M.skip p 1) (M.skip q 1) (size - 1)
      else .ok s) (s : σ) (p q : α) (size : Int) :
    f s p q size = moveBytes M s p q size := by
  induction s, p, q, size using moveBytes.induct M with
  | case1 s p q size hs ih =>
    rw [hf, moveBytes, if_pos hs, if_pos hs]
    congr 1
    funext b
    congr 1
    funext s'
    exact ih s'
  | case2 s p q size hs => rw [hf, moveBytes, if_neg hs, if_neg hs]

theorem eq_fillWords {b : β} {f : σ → α → Int → Except ε (σ × α × Int)}
    (hf : ∀ s q size, f s q size =
      if 4 < size then
        storeWord M s q ⟨b, b, b, b⟩ >>= fun s' => f s' (M.skip q 4) (size - 4)
      else .ok (s, q, size)) (s : σ) (q : α) (size : Int) :
    f s q size = fillWords M b s q size := by
  induction s, q, size using fillWords.induct M with
  | case1 s q size hs ih =>
    rw [hf, fillWords, if_pos hs, if_pos hs]
    congr 1
    funext s'
    exact ih s'
  | case2 s q size hs => rw [hf, fillWords, if_neg hs, if_neg hs]

theorem eq_fillBytes {b : β} {f : σ → α → Int → Except ε σ}
    (hf : ∀ s q size, f s q size =
      if 0 < size then M.store s q b >>= fun s' => f s' (M.skip q 1) (size - 1) else .ok s)
    (s : σ) (q : α) (size : Int) : f s q size = fillBytes M b s q size := by
  induction s, q, size using fillBytes.induct M with
  | case1 s q size hs ih =>
    rw [hf, fillBytes, if_pos hs, if_pos hs]
    congr 1
    funext s'
    exact ih s'
  | case2 s q size hs => rw [hf, fillBytes, if_neg hs, if_neg hs]

theorem eq_moveBlock {f : σ → α → α → Int → Except ε (σ × α × α × Int)}
    {g : σ → α → α → Int → Except ε σ}
    (hf : ∀ s p q size, f s p q size =
      if 4 < size then
        loadWord M s p >>= fun w => storeWord M s q w >>= fun s' =>
          f s' (M.skip p 4) (M.skip q 4) (size - 4)
      else .ok (s, p, q, size))
    (hg : ∀ s p q size, g s p q size =
      if 0 < size then
        M.load s p >>= fun b => M.store s q b >>= fun s' =>
          g s' (M.skip p 1) (M.skip q 1) (size - 1)
      else .ok s) (s : σ) (p q : α) (size : Int) :
    (f s p q size >>= fun r => g r.1 r.2.1 r.2.2.1 r.2.2.2) = moveBlock M s p q size := by
  rw [moveBlock, eq_moveWords hf]
  congr 1
  funext r
  exact eq_moveBytes hg r.1 r.2.1 r.2.2.1 r.2.2.2

theorem eq_fillBlock {b : β} {f : σ → α → Int → Except ε (σ × α × Int)} {g : σ → α → Int → Except ε σ}
    (hf : ∀ s q size, f s q size =
      if 4 < size then
        storeWord M s q ⟨b, b, b, b⟩ >>= fun s' => f s' (M.skip q 4) (size - 4)
      else .ok (s, q, size))
    (hg : ∀ s q size, g s q size =
      if 0 < size then M.store s q b >>= fun s' => g s' (M.skip q 1) (size - 1) else .ok s)
    (s : σ) (q : α) (size : Int) :
    (f s q size >>= fun r => g r.1 r.2.1 r.2.2) = fillBlock M b s q size := by
  rw [fillBlock, eq_fillWords hf]
  congr 1
  funext r
  exact eq_fillBytes hg r.1 r.2.1 r.2.2

end Equations

section Rules
variable {M : Machine ε σ α β} {view : σ → π → β} {I : σ → Prop}
variable {p q : α} {n k : Nat} {x y : Nat → π} {v : Nat → β} {s t : σ}

/-- The `n` cells from `p` on are the places `x 0`, `x 1` and so on. -/
def Readable (M : Machine ε σ α β) (view : σ → π → β) (I : σ → Prop) (p : α) (n : Nat)
    (x : Nat → π) : Prop :=
  ∀ s k, I s → k < n → M.load s (M.skip p k) = .ok (view s (x k))

/-- The `n` cells from `q` on are the places `y 0`, `y 1` and so on, all different. -/
structure Writable [DecidableEq π] (M : Machine ε σ α β) (view : σ → π → β) (I : σ → Prop) (q : α)
    (n : Nat) (y : Nat → π) : Prop where
  store : ∀ s k b, I s → k < n → ∃ s', M.store s (M.skip q k) b = .ok s' ∧ I s' ∧
    view s' = Function.update (view s) (y k) b
  inj : ∀ i j, i < n → j < n → y i = y j → i = j

/-- `t` is `s` with the values `v` in the first `k` places of `y`. -/
structure Filled (view : σ → π → β) (I : σ → Prop) (y : Nat → π) (v : Nat → β) (k : Nat)
    (s t : σ) : Prop where
  inv : I t
  filled : ∀ j, j < k → view t (y j) = v j
  frame : ∀ z, (∀ j, j < k → z ≠ y j) → view t z = view s z

namespace Filled

theorem start (hs : I s) : Filled view I y v 0 s s :=
  ⟨hs, fun _ hj => absurd hj (Nat.not_lt_zero _), fun _ _ => rfl⟩

theorem load (hf : Filled view I y v k s t) (hr : Readable M view I p n x)
    (hxy : ∀ i j, i < n → j < n → x i ≠ y j) (hk : k ≤ n) {i : Nat} (hi : i < n) :
    M.load t (M.skip p i) = .ok (view s (x i)) := by
  rw [hr t i hf.inv hi, hf.frame (x i)]
  intro j hj
  exact hxy i j hi (Nat.lt_of_lt_of_le hj hk)

theorem loadWord (hf : Filled view I y v k s t) (hr : Readable M view I p n x)
    (hxy : ∀ i j, i < n → j < n → x i ≠ y j) (hk : k + 4 ≤ n) :
    loadWord M t (M.skip p k) =
      .ok ⟨view s (x k), view s (x (k + 1)), view s (x (k + 2)), view s (x (k + 3))⟩ := by
  have hle : k ≤ n := by omega
  simp only [Blocks.loadWord, M.skip_skip]
  rw [hf.load hr hxy hle (by omega), ok_bind, hf.load hr hxy hle (by omega), ok_bind,
    hf.load hr hxy hle (by omega), ok_bind, hf.load hr hxy hle (by omega), ok_bind]
  rfl

variable [DecidableEq π]

theorem store (hf : Filled view I y v k s t) (hw : Writable M view I q n y) (hk : k < n) :
    ∃ t', M.store t (M.skip q k) (v k) = .ok t' ∧ Filled view I y v (k + 1) s t' := by
  obtain ⟨t', hok, hinv, hview⟩ := hw.store t k (v k) hf.inv hk
  refine ⟨t', hok, hinv, ?_, ?_⟩
  · intro j hj
    rw [hview]
    rcases Nat.lt_succ_iff_lt_or_eq.mp hj with hj | rfl
    · have hne : y j ≠ y k := fun he => Nat.ne_of_lt hj (hw.inj j k (Nat.lt_trans hj hk) hk he)
      rw [Function.update_of_ne hne]
      exact hf.filled j hj
    · rw [Function.update_self]
  · intro z hz
    rw [hview, Function.update_of_ne (hz k (Nat.lt_succ_self k))]
    exact hf.frame z fun j hj => hz j (Nat.lt_succ_of_lt hj)

theorem storeWord (hf : Filled view I y v k s t) (hw : Writable M view I q n y) (hk : k + 4 ≤ n) :
    ∃ t', storeWord M t (M.skip q k) ⟨v k, v (k + 1), v (k + 2), v (k + 3)⟩ = .ok t' ∧
      Filled view I y v (k + 4) s t' := by
  obtain ⟨t₁, h₁, hf₁⟩ := hf.store hw (by omega)
  obtain ⟨t₂, h₂, hf₂⟩ := hf₁.store hw (by omega)
  obtain ⟨t₃, h₃, hf₃⟩ := hf₂.store hw (by omega)
  obtain ⟨t₄, h₄, hf₄⟩ := hf₃.store hw (by omega)
  refine ⟨t₄, ?_, hf₄⟩
  simp only [Blocks.storeWord, M.skip_skip]
  rw [h₁, ok_bind, h₂, ok_bind, h₃, ok_bind, h₄]

end Filled

variable [DecidableEq π]

/-- The loop over words stops with at most four cells left, all before them done. -/
theorem moveWords_filled (hr : Readable M view I p n x) (hw : Writable M view I q n y)
    (hxy : ∀ i j, i < n → j < n → x i ≠ y j) :
    ∀ m k t (size : Int), size.toNat = m → k + m = n →
      Filled view I y (fun j => view s (x j)) k s t →
      ∃ k' t' size', moveWords M t (M.skip p k) (M.skip q k) size =
          .ok (t', M.skip p k', M.skip q k', size') ∧
        k' + size'.toNat = n ∧ Filled view I y (fun j => view s (x j)) k' s t' := by
  intro m
  induction m using Nat.strongRecOn with
  | ind m ih =>
    intro k t size hm hk hf
    rw [moveWords]
    by_cases hs : 4 < size
    · obtain ⟨t₁, hstore, hf₁⟩ := hf.storeWord hw (by omega)
      rw [if_pos hs, hf.loadWord hr hxy (by omega), ok_bind, hstore, ok_bind, M.skip_skip,
        M.skip_skip]
      exact ih (size - 4).toNat (by omega) (k + 4) t₁ (size - 4) rfl (by omega) hf₁
    · rw [if_neg hs]
      exact ⟨k, t, size, rfl, by omega, hf⟩

theorem moveBytes_filled (hr : Readable M view I p n x) (hw : Writable M view I q n y)
    (hxy : ∀ i j, i < n → j < n → x i ≠ y j) :
    ∀ m k t (size : Int), size.toNat = m → k + m = n →
      Filled view I y (fun j => view s (x j)) k s t →
      ∃ t', moveBytes M t (M.skip p k) (M.skip q k) size = .ok t' ∧
        Filled view I y (fun j => view s (x j)) n s t' := by
  intro m
  induction m with
  | zero =>
    intro k t size hm hk hf
    rw [moveBytes, if_neg (by omega)]
    obtain rfl : k = n := by omega
    exact ⟨t, rfl, hf⟩
  | succ m ih =>
    intro k t size hm hk hf
    obtain ⟨t₁, hstore, hf₁⟩ := hf.store hw (by omega)
    rw [moveBytes, if_pos (by omega), hf.load hr hxy (by omega) (by omega), ok_bind, hstore, ok_bind,
      M.skip_skip, M.skip_skip]
    exact ih (k + 1) t₁ (size - 1) (by omega) (by omega) hf₁

/-- A block moves when its cells can be reached and the two ranges have no place in
common. -/
theorem moveBlock_filled {size : Int} (hr : Readable M view I p size.toNat x)
    (hw : Writable M view I q size.toNat y)
    (hxy : ∀ i j, i < size.toNat → j < size.toNat → x i ≠ y j) (hs : I s) :
    ∃ t, moveBlock M s p q size = .ok t ∧
      Filled view I y (fun j => view s (x j)) size.toNat s t := by
  obtain ⟨k, t, size', hwords, hk, hf⟩ :=
    moveWords_filled hr hw hxy size.toNat 0 s size rfl (Nat.zero_add _) (Filled.start hs)
  obtain ⟨t', hbytes, hf'⟩ := moveBytes_filled hr hw hxy size'.toNat k t size' rfl hk hf
  rw [M.skip_zero, M.skip_zero] at hwords
  refine ⟨t', ?_, hf'⟩
  rw [moveBlock, hwords, ok_bind]
  exact hbytes

theorem fillWords_filled {b : β} (hw : Writable M view I q n y) :
    ∀ m k t (size : Int), size.toNat = m → k + m = n → Filled view I y (fun _ => b) k s t →
      ∃ k' t' size', fillWords M b t (M.skip q k) size = .ok (t', M.skip q k', size') ∧
        k' + size'.toNat = n ∧ Filled view I y (fun _ => b) k' s t' := by
  intro m
  induction m using Nat.strongRecOn with
  | ind m ih =>
    intro k t size hm hk hf
    rw [fillWords]
    by_cases hs : 4 < size
    · obtain ⟨t₁, hstore, hf₁⟩ := hf.storeWord hw (by omega)
      rw [if_pos hs, hstore, ok_bind, M.skip_skip]
      exact ih (size - 4).toNat (by omega) (k + 4) t₁ (size - 4) rfl (by omega) hf₁
    · rw [if_neg hs]
      exact ⟨k, t, size, rfl, by omega, hf⟩

theorem fillBytes_filled {b : β} (hw : Writable M view I q n y) :
    ∀ m k t (size : Int), size.toNat = m → k + m = n → Filled view I y (fun _ => b) k s t →
      ∃ t', fillBytes M b t (M.skip q k) size = .ok t' ∧ Filled view I y (fun _ => b) n s t' := by
  intro m
  induction m with
  | zero =>
    intro k t size hm hk hf
    rw [fillBytes, if_neg (by omega)]
    obtain rfl : k = n := by omega
    exact ⟨t, rfl, hf⟩
  | succ m ih =>
    intro k t size hm hk hf
    obtain ⟨t₁, hstore, hf₁⟩ := hf.store hw (by omega)
    rw [fillBytes, if_pos (by omega), hstore, ok_bind, M.skip_skip]
    exact ih (k + 1) t₁ (size - 1) (by omega) (by omega) hf₁

theorem fillBlock_filled {b : β} {size : Int} (hw : Writable M view I q size.toNat y) (hs : I s) :
    ∃ t, fillBlock M b s q size = .ok t ∧ Filled view I y (fun _ => b) size.toNat s t := by
  obtain ⟨k, t, size', hwords, hk, hf⟩ :=
    fillWords_filled (b := b) hw size.toNat 0 s size rfl (Nat.zero_add _) (Filled.start hs)
  obtain ⟨t', hbytes, hf'⟩ := fillBytes_filled hw size'.toNat k t size' rfl hk hf
  rw [M.skip_zero] at hwords
  refine ⟨t', ?_, hf'⟩
  rw [fillBlock, hwords, ok_bind]
  exact hbytes

end Rules

section Preserved
variable {M : Machine ε σ α β} {I : σ → Prop} {p q : α} {n k : Nat} {s t : σ}

/-- What no store into the `n` cells from `q` on destroys. -/
def Kept (M : Machine ε σ α β) (I : σ → Prop) (q : α) (n : Nat) : Prop :=
  ∀ s k b t, I s → k < n → M.store s (M.skip q k) b = .ok t → I t

theorem storeWord_kept (hI : Kept M I q n) {w : Word β} (hk : k + 4 ≤ n) (hs : I s)
    (h : storeWord M s (M.skip q k) w = .ok t) : I t := by
  simp only [storeWord, M.skip_skip] at h
  obtain ⟨s₁, h₁, h⟩ := bind_eq_ok.mp h
  obtain ⟨s₂, h₂, h⟩ := bind_eq_ok.mp h
  obtain ⟨s₃, h₃, h⟩ := bind_eq_ok.mp h
  have hs₁ := hI s k w.b0 s₁ hs (by omega) h₁
  have hs₂ := hI s₁ (k + 1) w.b1 s₂ hs₁ (by omega) h₂
  have hs₃ := hI s₂ (k + 2) w.b2 s₃ hs₂ (by omega) h₃
  exact hI s₃ (k + 3) w.b3 t hs₃ (by omega) h

theorem moveWords_kept (hI : Kept M I q n) {size size' : Int} {p' q' : α} (hk : k + size.toNat = n)
    (hs : I s) (h : moveWords M s p (M.skip q k) size = .ok (t, p', q', size')) :
    I t ∧ ∃ k', q' = M.skip q k' ∧ k' + size'.toNat = n := by
  induction hm : size.toNat using Nat.strongRecOn generalizing s p k size with
  | ind m ih =>
    rw [moveWords] at h
    split at h
    · obtain ⟨w, _, h⟩ := bind_eq_ok.mp h
      obtain ⟨s₁, hstore, h⟩ := bind_eq_ok.mp h
      rw [M.skip_skip] at h
      exact ih (size - 4).toNat (by omega) (by omega) (storeWord_kept hI (by omega) hs hstore) h rfl
    · cases h
      exact ⟨hs, k, rfl, hk⟩

theorem moveBytes_kept (hI : Kept M I q n) {size : Int} (hk : k + size.toNat = n) (hs : I s)
    (h : moveBytes M s p (M.skip q k) size = .ok t) : I t := by
  induction hm : size.toNat generalizing s p k size with
  | zero =>
    rw [moveBytes, if_neg (by omega)] at h
    cases h
    exact hs
  | succ m ih =>
    rw [moveBytes, if_pos (by omega), M.skip_skip] at h
    obtain ⟨b, _, h⟩ := bind_eq_ok.mp h
    obtain ⟨s₁, hstore, h⟩ := bind_eq_ok.mp h
    have hrest : k + 1 + (size - 1).toNat = n := by omega
    exact ih hrest (hI s k b s₁ hs (by omega) hstore) h (by omega)

theorem moveBlock_kept {size : Int} (hI : Kept M I q size.toNat) (hs : I s)
    (h : moveBlock M s p q size = .ok t) : I t := by
  obtain ⟨⟨s₁, p', q', size'⟩, hwords, hbytes⟩ := bind_eq_ok.mp h
  rw [← M.skip_zero q] at hwords
  obtain ⟨hs₁, k', rfl, hk'⟩ := moveWords_kept hI (Nat.zero_add _) hs hwords
  exact moveBytes_kept hI hk' hs₁ hbytes

theorem fillWords_kept (hI : Kept M I q n) {b : β} {size size' : Int} {q' : α}
    (hk : k + size.toNat = n) (hs : I s)
    (h : fillWords M b s (M.skip q k) size = .ok (t, q', size')) :
    I t ∧ ∃ k', q' = M.skip q k' ∧ k' + size'.toNat = n := by
  induction hm : size.toNat using Nat.strongRecOn generalizing s k size with
  | ind m ih =>
    rw [fillWords] at h
    split at h
    · obtain ⟨s₁, hstore, h⟩ := bind_eq_ok.mp h
      rw [M.skip_skip] at h
      exact ih (size - 4).toNat (by omega) (by omega) (storeWord_kept hI (by omega) hs hstore) h rfl
    · cases h
      exact ⟨hs, k, rfl, hk⟩

theorem fillBytes_kept (hI : Kept M I q n) {b : β} {size : Int} (hk : k + size.toNat = n) (hs : I s)
    (h : fillBytes M b s (M.skip q k) size = .ok t) : I t := by
  induction hm : size.toNat generalizing s k size with
  | zero =>
    rw [fillBytes, if_neg (by omega)] at h
    cases h
    exact hs
  | succ m ih =>
    rw [fillBytes, if_pos (by omega), M.skip_skip] at h
    obtain ⟨s₁, hstore, h⟩ := bind_eq_ok.mp h
    have hrest : k + 1 + (size - 1).toNat = n := by omega
    exact ih hrest (hI s k b s₁ hs (by omega) hstore) h (by omega)

theorem fillBlock_kept {b : β} {size : Int} (hI : Kept M I q size.toNat) (hs : I s)
    (h : fillBlock M b s q size = .ok t) : I t := by
  obtain ⟨⟨s₁, q', size'⟩, hwords, hbytes⟩ := bind_eq_ok.mp h
  rw [← M.skip_zero q] at hwords
  obtain ⟨hs₁, k', rfl, hk'⟩ := fillWords_kept hI (Nat.zero_add _) hs hwords
  exact fillBytes_kept hI hk' hs₁ hbytes

end Preserved

section Streams
variable {M : Machine ε σ α β} {p : α}

/-- One store after the other. -/
def storeAll (M : Machine ε σ α β) (s : σ) : α → List β → Except ε σ
  | _, [] => .ok s
  | q, b :: bs => do
    let s ← M.store s q b
    storeAll M s (M.skip q 1) bs

/-- Where the loads do not depend on the state. -/
def Holds (M : Machine ε σ α β) (p : α) (bs : List β) : Prop :=
  ∀ s k b, bs[k]? = some b → M.load s (M.skip p k) = .ok b

theorem Holds.head {b : β} {bs : List β} (h : Holds M p (b :: bs)) (s : σ) : M.load s p = .ok b := by
  have h₀ := h s 0 b rfl
  rwa [M.skip_zero] at h₀

theorem Holds.drop (first : List β) {bs : List β} (h : Holds M p (first ++ bs)) :
    Holds M (M.skip p first.length) bs := by
  intro s k b hb
  rw [M.skip_skip]
  apply h
  rw [List.getElem?_append_right (Nat.le_add_right _ _), Nat.add_sub_cancel_left]
  exact hb

theorem storeAll_word (s : σ) (q : α) (w : Word β) (bs : List β) :
    storeAll M s q (w.b0 :: w.b1 :: w.b2 :: w.b3 :: bs) =
      storeWord M s q w >>= fun t => storeAll M t (M.skip q 4) bs := by
  simp only [storeAll, storeWord, bind_assoc, M.skip_skip]

theorem moveBytes_eq_storeAll {bs : List β} (h : Holds M p bs) (s : σ) (q : α) :
    moveBytes M s p q bs.length = storeAll M s q bs := by
  induction bs generalizing s p q with
  | nil =>
    rw [moveBytes, if_neg (by simp)]
    rfl
  | cons b bs ih =>
    have hsize : (((b :: bs).length : Nat) : Int) - 1 = (bs.length : Nat) := by
      rw [List.length_cons]
      omega
    rw [moveBytes, if_pos (by simp), h.head, ok_bind, storeAll, hsize]
    congr 1
    funext t
    exact ih (Holds.drop [b] h) t _

/-- Words first, then bytes: the order of the stores is the same. -/
theorem moveBlock_eq_storeAll {bs : List β} (h : Holds M p bs) (s : σ) (q : α) :
    moveBlock M s p q bs.length = storeAll M s q bs := by
  induction hn : bs.length using Nat.strongRecOn generalizing bs s p q with
  | ind n ih =>
    subst hn
    by_cases hlong : 4 < bs.length
    · obtain ⟨b0, b1, b2, b3, rest, rfl⟩ : ∃ b0 b1 b2 b3 rest, bs = b0 :: b1 :: b2 :: b3 :: rest := by
        match bs, hlong with
        | b0 :: b1 :: b2 :: b3 :: rest, _ => exact ⟨b0, b1, b2, b3, rest, rfl⟩
      have hload : loadWord M s p = .ok ⟨b0, b1, b2, b3⟩ := by
        rw [loadWord, h.head, ok_bind, h s 1 b1 rfl, ok_bind, h s 2 b2 rfl, ok_bind, h s 3 b3 rfl]
        rfl
      simp only [List.length_cons] at ih hlong ⊢
      have hsize : ((rest.length + 1 + 1 + 1 + 1 : Nat) : Int) - 4 = (rest.length : Nat) := by omega
      rw [storeAll_word s q ⟨b0, b1, b2, b3⟩, moveBlock, moveWords, if_pos (by omega), hload, ok_bind,
        hsize, bind_assoc]
      congr 1
      funext t
      have hrest := ih rest.length (by omega) (Holds.drop [b0, b1, b2, b3] h) t (M.skip q 4) rfl
      rw [moveBlock] at hrest
      exact hrest
    · rw [moveBlock, moveWords, if_neg (by omega), ok_bind]
      exact moveBytes_eq_storeAll h s q

end Streams

end Zeos.Blocks
