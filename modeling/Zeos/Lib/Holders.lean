import Mathlib.Algebra.BigOperators.Group.Finset.Piecewise
import Mathlib.Algebra.Order.BigOperators.Group.Finset

/-!
# Holders of resources

A finite set of places, each of which may hold one resource. `refs` counts the
places that hold a given resource, which is what a reference counter should say.
-/

namespace Zeos.Holders

set_option autoImplicit false

universe u v
variable {ι : Type u} {α : Type v} [DecidableEq α]
variable {S : Finset ι} {h g : ι → Option α} {a : α}

def refs (S : Finset ι) (h : ι → Option α) (a : α) : Nat := (S.filter fun i => h i = some a).card

theorem refs_congr_at (he : ∀ i ∈ S, g i = some a ↔ h i = some a) : refs S g a = refs S h a := by
  unfold refs
  rw [Finset.filter_congr he]

theorem refs_congr (he : ∀ i ∈ S, g i = h i) (a : α) : refs S g a = refs S h a :=
  refs_congr_at fun i hi => by rw [he i hi]

theorem refs_update [DecidableEq ι] {i : ι} (hi : i ∈ S) (he : ∀ j ∈ S, j ≠ i → g j = h j) (a : α) :
    refs S g a + (if h i = some a then 1 else 0) =
      refs S h a + (if g i = some a then 1 else 0) := by
  unfold refs
  rw [Finset.card_filter, Finset.card_filter, ← Finset.add_sum_erase S _ hi,
    ← Finset.add_sum_erase S _ hi]
  have hrest : (∑ j ∈ S.erase i, if g j = some a then 1 else 0) =
      ∑ j ∈ S.erase i, if h j = some a then 1 else 0 := by
    apply Finset.sum_congr rfl
    intro j hj
    rw [he j (Finset.mem_of_mem_erase hj) (Finset.ne_of_mem_erase hj)]
  rw [hrest]
  omega

theorem refs_update_two [DecidableEq ι] {i j : ι} (hi : i ∈ S) (hj : j ∈ S) (hij : i ≠ j)
    (he : ∀ k ∈ S, k ≠ i → k ≠ j → g k = h k) (a : α) :
    refs S g a + (if h i = some a then 1 else 0) + (if h j = some a then 1 else 0) =
      refs S h a + (if g i = some a then 1 else 0) + (if g j = some a then 1 else 0) := by
  have hfirst := refs_update (h := h) (g := Function.update h i (g i)) hi
    (fun k _ hk => Function.update_of_ne hk _ _) a
  have hsecond := refs_update (h := Function.update h i (g i)) (g := g) hj (by
    intro k hk hkj
    by_cases hki : k = i
    · subst hki
      rw [Function.update_self]
    · rw [Function.update_of_ne hki]
      exact he k hk hki hkj) a
  rw [Function.update_self] at hfirst
  rw [Function.update_of_ne hij.symm] at hsecond
  omega

theorem refs_eq_zero : refs S h a = 0 ↔ ∀ i ∈ S, h i ≠ some a := by
  unfold refs
  rw [Finset.card_eq_zero, Finset.filter_eq_empty_iff]

theorem refs_le_card (S : Finset ι) (h : ι → Option α) (a : α) : refs S h a ≤ S.card :=
  Finset.card_filter_le S _

theorem refs_pos {i : ι} (hi : i ∈ S) (hh : h i = some a) : 0 < refs S h a := by
  rw [Nat.pos_iff_ne_zero]
  intro h0
  exact refs_eq_zero.mp h0 i hi hh

theorem unique_of_refs_le_one (h1 : refs S h a ≤ 1) {i j : ι} (hi : i ∈ S) (hj : j ∈ S)
    (hhi : h i = some a) (hhj : h j = some a) : i = j := by
  have := Finset.card_le_one.mp h1
  exact this i (by simp [hi, hhi]) j (by simp [hj, hhj])

theorem refs_le_one (hu : ∀ i ∈ S, ∀ j ∈ S, h i = some a → h j = some a → i = j) :
    refs S h a ≤ 1 := by
  apply Finset.card_le_one.mpr
  intro i hi j hj
  rw [Finset.mem_filter] at hi hj
  exact hu i hi.1 j hj.1 hi.2 hj.2

/-- More resources than places: one of them is held nowhere. -/
theorem exists_unheld {C : Finset α} (hc : S.card < C.card) : ∃ a ∈ C, refs S h a = 0 := by
  by_contra hne
  have hall : ∀ a ∈ C, 1 ≤ refs S h a := by
    intro a ha
    rw [Nat.one_le_iff_ne_zero]
    exact fun h0 => hne ⟨a, ha, h0⟩
  have hsum : C.card ≤ ∑ a ∈ C, refs S h a := by
    simpa using Finset.sum_le_sum hall
  have hle : ∑ a ∈ C, refs S h a ≤ S.card := by
    unfold refs
    simp only [Finset.card_filter]
    rw [Finset.sum_comm, Finset.card_eq_sum_ones]
    apply Finset.sum_le_sum
    intro i _
    cases hi : h i with
    | none => simp
    | some b => simp [Option.some.injEq, Finset.sum_ite_eq]; split <;> omega
  omega

end Zeos.Holders
