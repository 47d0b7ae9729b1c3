import Zeos.BreadthSearch
import Mathlib.Data.List.Intervals
import Mathlib.Data.Multiset.AddSub

/-!
# `dijkstra`

All steps cost the same, so that the queue of `dijkstra` stays sorted and the search
is a breadth-first one, until `dequeue` meets a queue of three or more entries: the
entries move up over the one that has been taken and `front` passes over the next one,
which is lost. As long as no more than two cells wait nothing is lost, and the result
is a step on a shortest path.
-/

namespace Zeos.Game

open Loops BreadthFirst
set_option autoImplicit false

section Dequeue
variable {q : PriorityQueue}

/-- The entry at `m` is the first of the smallest priority between `front` and `k`. -/
structure EarliestMin (q : PriorityQueue) (k m : Nat) : Prop where
  front_le : q.front ≤ m
  lt_rear : m < k
  least : ∀ i, q.front ≤ i → i < k → (q.queue m).priority ≤ (q.queue i).priority
  earliest : ∀ i, q.front ≤ i → i < m → (q.queue m).priority < (q.queue i).priority

theorem EarliestMin.scan {k m : Nat} (h : EarliestMin q k m) :
    EarliestMin q (k + 1) (if (q.queue k).priority < (q.queue m).priority then k else m) := by
  have hle : q.front ≤ k := h.front_le.trans h.lt_rear.le
  split
  · rename_i hlt
    refine ⟨hle, Nat.lt_succ_self k, ?_, ?_⟩
    · intro i hi hik
      rcases Nat.lt_succ_iff_lt_or_eq.mp hik with hik | rfl
      · exact hlt.le.trans (h.least i hi hik)
      · exact le_rfl
    · intro i hi hik
      exact hlt.trans_le (h.least i hi hik)
  · rename_i hge
    refine ⟨h.front_le, Nat.lt_succ_of_lt h.lt_rear, ?_, h.earliest⟩
    intro i hi hik
    rcases Nat.lt_succ_iff_lt_or_eq.mp hik with hik | rfl
    · exact h.least i hi hik
    · exact Int.not_lt.mp hge

theorem earliestMin_minIndex (h : q.front < q.rear) : EarliestMin q q.rear (minIndex q) := by
  have hscan : ∀ n, EarliestMin q (q.front + 1 + n)
      ((List.range' (q.front + 1) n).foldl
        (fun m i => if (q.queue i).priority < (q.queue m).priority then i else m) q.front) := by
    intro n
    induction n with
    | zero =>
      refine ⟨le_rfl, Nat.lt_succ_self _, ?_, ?_⟩
      · intro i hi hik
        obtain rfl : i = q.front := by omega
        exact le_rfl
      · intro i hi hik
        exact absurd hik (Nat.not_lt.mpr hi)
    | succ n ih =>
      rw [List.range'_1_concat, List.foldl_append]
      exact ih.scan
  have hall := hscan (q.rear - (q.front + 1))
  rw [Nat.add_sub_cancel' h] at hall
  exact hall

theorem EarliestMin.unique {k m m' : Nat} (h : EarliestMin q k m) (h' : EarliestMin q k m') : m = m' := by
  rcases Nat.lt_trichotomy m m' with hlt | he | hlt
  · have hle := h.least m' h'.front_le h'.lt_rear
    have hless := h'.earliest m h.front_le hlt
    omega
  · exact he
  · have hle := h'.least m h.front_le h.lt_rear
    have hless := h.earliest m' h'.front_le hlt
    omega

theorem minIndex_eq (h : ∀ i, q.front < i → i < q.rear → (q.queue q.front).priority ≤ (q.queue i).priority) :
    minIndex q = q.front := by
  by_cases hlt : q.front < q.rear
  · have hfirst : EarliestMin q q.rear q.front := by
      refine ⟨le_rfl, hlt, ?_, fun i hi hif => absurd hif (Nat.not_lt.mpr hi)⟩
      intro i hi hir
      rcases Nat.eq_or_lt_of_le hi with rfl | hi
      · exact le_rfl
      · exact h i hi hir
    exact (earliestMin_minIndex hlt).unique hfirst
  · have hnone : q.rear - (q.front + 1) = 0 := by omega
    rw [minIndex, hnone]
    rfl

/-- The entries of `a` from `i` up to `j`, in no order. -/
def slice (a : Nat → PriorityNode) (i j : Nat) : Multiset PriorityNode := ↑((List.Ico i j).map a)

section Slices
variable {a b : Nat → PriorityNode} {i j k : Nat}

theorem slice_self (a : Nat → PriorityNode) (i : Nat) : slice a i i = 0 := by
  simp [slice]

theorem slice_append (hij : i ≤ j) (hjk : j ≤ k) : slice a i k = slice a i j + slice a j k := by
  rw [slice, ← List.Ico.append_consecutive hij hjk, List.map_append, ← Multiset.coe_add]
  rfl

theorem slice_cons (hij : i < j) : slice a i j = a i ::ₘ slice a (i + 1) j := by
  rw [slice, List.Ico.eq_cons hij, List.map_cons, ← Multiset.cons_coe]
  rfl

theorem slice_congr (h : ∀ n, i ≤ n → n < j → a n = b n) : slice a i j = slice b i j := by
  unfold slice
  congr 1
  apply List.map_congr_left
  intro n hn
  rw [List.Ico.mem] at hn
  exact h n hn.1 hn.2

theorem slice_succ (a : Nat → PriorityNode) (i j : Nat) :
    slice (fun n => a (n + 1)) i j = slice a (i + 1) (j + 1) := by
  rw [slice, slice, ← List.Ico.map_add i j 1, List.map_map]
  congr 2
  funext n
  exact congrArg a (Nat.add_comm n 1)

def shift (a : Nat → PriorityNode) (m n : Nat) : Nat → PriorityNode :=
  (List.range' m n).foldl (fun a i => Function.update a i (a (i + 1))) a

theorem shift_apply (a : Nat → PriorityNode) (m n i : Nat) :
    shift a m n i = if m ≤ i ∧ i < m + n then a (i + 1) else a i := by
  induction n generalizing i with
  | zero =>
    rw [if_neg (by omega)]
    rfl
  | succ n ih =>
    have hstep : shift a m (n + 1) = Function.update (shift a m n) (m + n) (shift a m n (m + n + 1)) := by
      rw [shift, List.range'_1_concat, List.foldl_append]
      rfl
    rw [hstep]
    by_cases hi : i = m + n
    · subst hi
      rw [Function.update_self, ih, if_neg (by omega), if_pos (by omega)]
    · rw [Function.update_of_ne hi, ih]
      by_cases hin : m ≤ i ∧ i < m + n
      · rw [if_pos hin, if_pos (by omega)]
      · rw [if_neg hin, if_neg (by omega)]

/-- What a shift from `m` on up to the last entry leaves from `i` on: the entry at `j` is
gone and the last one is there twice. -/
theorem slice_shift {m r : Nat} (hij : i ≤ j) (hmj : m ≤ j) (hjr : j < r)
    (hkeep : ∀ n, i ≤ n → n < j → n < m) :
    slice (shift a m (r - 1 - m)) i r = a (r - 1) ::ₘ (slice a i j + slice a (j + 1) r) := by
  obtain ⟨r, rfl⟩ := Nat.exists_eq_add_one.mpr (Nat.zero_lt_of_lt hjr)
  rw [Nat.add_sub_cancel]
  have hfirst : slice (shift a m (r - m)) i j = slice a i j := by
    apply slice_congr
    intro n hi hj
    rw [shift_apply, if_neg]
    have := hkeep n hi hj
    omega
  have hmiddle : slice (shift a m (r - m)) j r = slice a (j + 1) (r + 1) := by
    rw [← slice_succ]
    apply slice_congr
    intro n hj hr
    rw [shift_apply, if_pos (by omega)]
  have hlast : slice (shift a m (r - m)) r (r + 1) = {a r} := by
    rw [slice_cons (Nat.lt_succ_self r), slice_self, shift_apply, if_neg (by omega)]
    rfl
  have hjr' : j ≤ r := Nat.lt_succ_iff.mp hjr
  rw [slice_append (hij.trans hjr') (Nat.le_succ r), slice_append hij hjr', hfirst, hmiddle, hlast,
    Multiset.add_comm, Multiset.singleton_add]

end Slices

theorem dequeue_fst (h : ∀ i, q.front < i → i < q.rear → (q.queue q.front).priority ≤ (q.queue i).priority) :
    (dequeue q).1 = q.queue q.front := by
  unfold dequeue
  rw [minIndex_eq h]

theorem dequeue_snd (h : ∀ i, q.front < i → i < q.rear → (q.queue q.front).priority ≤ (q.queue i).priority)
    (htwo : q.rear ≤ q.front + 2) : (dequeue q).2.front = q.front + 1 ∧ (dequeue q).2.rear = q.rear ∧
      ∀ j, q.front < j → (dequeue q).2.queue j = q.queue j := by
  refine ⟨rfl, rfl, ?_⟩
  intro j hj
  change shift q.queue (minIndex q) (q.rear - 1 - minIndex q) j = q.queue j
  rw [minIndex_eq h, shift_apply, if_neg (by omega)]

def PriorityQueue.elements (q : PriorityQueue) : Multiset PriorityNode := slice q.queue q.front q.rear

theorem dequeue_elements (q : PriorityQueue) : (dequeue q).2.elements =
    slice (shift q.queue (minIndex q) (q.rear - 1 - minIndex q)) (q.front + 1) q.rear := rfl

/-- `dequeue` returns the first entry of the smallest priority and takes exactly this one
out of the queue. -/
def DequeuesOne (q : PriorityQueue) : Prop :=
  (∃ m, EarliestMin q q.rear m ∧ (dequeue q).1 = q.queue m) ∧
    (dequeue q).2.elements = q.elements.erase (dequeue q).1

/-- The entry that `front` passes over is the last one, which the shift has doubled. -/
def LosesTheLast (q : PriorityQueue) : Prop :=
  ((∀ i, q.front < i → i < q.rear → (q.queue q.front).priority ≤ (q.queue i).priority) ∧
      q.queue (q.front + 1) = q.queue (q.rear - 1)) ∨
    ((∃ i, q.front < i ∧ i < q.rear ∧ (q.queue i).priority < (q.queue q.front).priority) ∧
      q.queue q.front = q.queue (q.rear - 1))

/-- With the smallest entry in front, the second one makes room for the last. -/
theorem dequeue_elements_front (hlt : q.front + 1 < q.rear) (hm : minIndex q = q.front) :
    (dequeue q).2.elements = q.elements.erase (dequeue q).1 ↔
      q.queue (q.front + 1) = q.queue (q.rear - 1) := by
  have hbefore : q.elements =
      q.queue q.front ::ₘ q.queue (q.front + 1) ::ₘ slice q.queue (q.front + 1 + 1) q.rear := by
    rw [PriorityQueue.elements, slice_cons (Nat.lt_of_succ_lt hlt), slice_cons hlt]
  have hnode : (dequeue q).1 = q.queue q.front := congrArg q.queue hm
  have hafter := slice_shift (a := q.queue) (i := q.front + 1) (j := q.front + 1) (m := q.front) le_rfl
    (Nat.le_succ _) hlt (fun n hi hj => absurd hj (Nat.not_lt.mpr hi))
  rw [slice_self, Multiset.zero_add] at hafter
  rw [dequeue_elements, hnode, hm, hafter, hbefore, Multiset.erase_cons_head, Multiset.cons_inj_left]
  exact eq_comm

/-- With the smallest entry further back, the first one makes room for the last. -/
theorem dequeue_elements_behind (hmin : EarliestMin q q.rear (minIndex q)) (hm : q.front < minIndex q) :
    (dequeue q).2.elements = q.elements.erase (dequeue q).1 ↔ q.queue q.front = q.queue (q.rear - 1) := by
  have hbefore : q.elements = q.queue (minIndex q) ::ₘ q.queue q.front ::ₘ
      (slice q.queue (q.front + 1) (minIndex q) + slice q.queue (minIndex q + 1) q.rear) := by
    rw [PriorityQueue.elements, slice_cons (hm.trans hmin.lt_rear), slice_append hm hmin.lt_rear.le,
      slice_cons hmin.lt_rear, Multiset.add_cons, Multiset.cons_swap]
  have hnode : (dequeue q).1 = q.queue (minIndex q) := rfl
  have hafter := slice_shift (a := q.queue) (i := q.front + 1) (j := minIndex q) (m := minIndex q) hm le_rfl
    hmin.lt_rear (fun n _ hj => hj)
  rw [dequeue_elements, hnode, hafter, hbefore, Multiset.erase_cons_head, Multiset.cons_inj_left]
  exact eq_comm

theorem dequeuesOne_iff (q : PriorityQueue) (h : q.front < q.rear) :
    DequeuesOne q ↔ q.rear = q.front + 1 ∨ LosesTheLast q := by
  have hmin := earliestMin_minIndex h
  have htakes : ∃ m, EarliestMin q q.rear m ∧ (dequeue q).1 = q.queue m := ⟨minIndex q, hmin, rfl⟩
  have hfront : minIndex q = q.front ↔
      ∀ i, q.front < i → i < q.rear → (q.queue q.front).priority ≤ (q.queue i).priority := by
    refine ⟨?_, minIndex_eq⟩
    intro hm i hi hir
    rw [← hm] at hi ⊢
    exact hmin.least i (hm ▸ hi.le) hir
  rw [DequeuesOne, and_iff_right htakes]
  rcases Nat.eq_or_lt_of_le h with hone | hlt
  · -- the only entry goes and nothing is left
    have hm : minIndex q = q.front := by
      have := hmin.front_le
      have := hmin.lt_rear
      omega
    have hnode : (dequeue q).1 = q.queue q.front := congrArg q.queue hm
    refine iff_of_true ?_ (.inl hone.symm)
    rw [dequeue_elements, hnode, PriorityQueue.elements, slice_cons h, Multiset.erase_cons_head, ← hone,
      slice_self, slice_self]
  · have hmore : q.rear ≠ q.front + 1 := by omega
    rw [or_iff_right hmore]
    rcases Nat.eq_or_lt_of_le hmin.front_le with hm | hm
    · have hall := hfront.mp hm.symm
      have hnone : ¬ ∃ i, q.front < i ∧ i < q.rear ∧ (q.queue i).priority < (q.queue q.front).priority := by
        rintro ⟨i, hi, hir, hless⟩
        have := hall i hi hir
        omega
      rw [dequeue_elements_front hlt hm.symm, LosesTheLast, and_iff_right hall]
      simp [hnone]
    · have hsome : ∃ i, q.front < i ∧ i < q.rear ∧ (q.queue i).priority < (q.queue q.front).priority :=
        ⟨minIndex q, hm, hmin.lt_rear, hmin.earliest q.front le_rfl hm⟩
      have hnot : ¬ ∀ i, q.front < i → i < q.rear → (q.queue q.front).priority ≤ (q.queue i).priority := by
        intro hall
        exact hm.ne' (hfront.mpr hall)
      rw [dequeue_elements_behind hmin hm, LosesTheLast, and_iff_right hsome]
      simp [hnot]

/-- The queue of `dijkstra` after the start `(2, 2)`, when all cells around it but the
one below are free. -/
def threeNeighbours : PriorityQueue where
  queue
    | 0 => ⟨⟨2, 2⟩, 0⟩
    | 1 => ⟨⟨1, 2⟩, 1⟩
    | 2 => ⟨⟨3, 2⟩, 1⟩
    | _ => ⟨⟨2, 1⟩, 1⟩
  front := 1
  rear := 4

theorem dequeue_drops_second : threeNeighbours.front < threeNeighbours.rear ∧ ¬ DequeuesOne threeNeighbours := by
  refine ⟨by decide, ?_⟩
  intro h
  have hlost : (dequeue threeNeighbours).2.elements ≠
      threeNeighbours.elements.erase (dequeue threeNeighbours).1 := by decide
  exact hlost h.2

theorem dequeuesOne_two : DequeuesOne { threeNeighbours with rear := 3 } := by
  apply (dequeuesOne_iff _ (by decide)).mpr
  refine .inr (.inl ⟨?_, rfl⟩)
  intro i hi hir
  obtain rfl : i = 2 := Nat.le_antisymm (Nat.lt_succ_iff.mp hir) hi
  exact le_rfl

end Dequeue

/-- `dep` gives the depth of the cell at each place. -/
structure Tracks (s : Dijkstra) (f : Frontier Point) (dep : ℕ → ℕ) : Prop where
  nodup : f.order.Nodup
  inBounds : ∀ p ∈ f.order, InBounds p
  front : s.queue.front = f.front
  rear : s.queue.rear = f.order.length
  waiting : ∀ j c, f.front ≤ j → f.order[j]? = some c → s.queue.queue j = ⟨c, dep j⟩
  known : ∀ j c, f.order[j]? = some c → s.distances c = dep j
  unknown : ∀ c, c ∉ f.order → s.distances c = infinity
  previous : ∀ c b, f.parent c = some b → s.previous c = b

section Visits
variable {game : GameState} {s : Dijkstra} {f : Frontier Point} {dep : ℕ → ℕ} {u : Point} {d : Nat}

theorem Tracks.discover (h : Tracks s f dep) {v : Point} (hv : InBounds v) (hnew : v ∉ f.order)
    (hdep : dep f.order.length = d + 1) :
    Tracks ⟨⟨Function.update s.queue.queue s.queue.rear ⟨v, ((d + 1 : Nat) : Int)⟩, s.queue.front,
        s.queue.rear + 1⟩, Function.update s.distances v ((d + 1 : Nat) : Int),
        Function.update s.previous v u⟩
      { f with order := f.order ++ [v], parent := Function.update f.parent v (some u) } dep := by
  have hcases : ∀ {j : Nat} {c : Point}, (f.order ++ [v])[j]? = some c →
      (j < f.order.length ∧ f.order[j]? = some c ∧ c ≠ v) ∨ (j = f.order.length ∧ c = v) := by
    intro j c hj
    rcases Nat.lt_or_ge j f.order.length with hlt | hge
    · rw [List.getElem?_append_left hlt] at hj
      exact .inl ⟨hlt, hj, fun he => hnew (he ▸ List.mem_of_getElem? hj)⟩
    · rw [List.getElem?_append_right hge] at hj
      obtain ⟨hidx, hval⟩ := List.getElem?_eq_some_iff.mp hj
      rw [List.length_singleton] at hidx
      have hzero : j - f.order.length = 0 := by omega
      refine .inr ⟨by omega, ?_⟩
      simp only [hzero] at hval
      exact hval.symm
  constructor
  case nodup => exact nodup_snoc h.nodup hnew
  case inBounds => exact inBounds_snoc h.inBounds hv
  case front => exact h.front
  case rear =>
    change s.queue.rear + 1 = (f.order ++ [v]).length
    rw [h.rear, List.length_append, List.length_singleton]
  case waiting =>
    intro j c hj hc
    change Function.update s.queue.queue s.queue.rear _ j = _
    rw [h.rear]
    rcases hcases hc with ⟨hlt, hc, _⟩ | ⟨rfl, rfl⟩
    · rw [Function.update_of_ne (Nat.ne_of_lt hlt)]
      exact h.waiting j c hj hc
    · rw [Function.update_self, hdep]
  case known =>
    intro j c hc
    change Function.update s.distances v _ c = _
    rcases hcases hc with ⟨_, hc, hne⟩ | ⟨rfl, rfl⟩
    · rw [Function.update_of_ne hne]
      exact h.known j c hc
    · rw [Function.update_self, hdep]
  case unknown =>
    intro c hc
    rw [List.mem_append, not_or, List.mem_singleton] at hc
    exact (Function.update_of_ne hc.2 _ _).trans (h.unknown c hc.1)
  case previous =>
    intro c b hb
    change Function.update f.parent v (some u) c = some b at hb
    change Function.update s.previous v u c = b
    by_cases hcv : c = v
    · rw [hcv, Function.update_self] at hb ⊢
      exact Option.some.inj hb
    · rw [Function.update_of_ne hcv] at hb ⊢
      exact h.previous c b hb

/-- The test of the distances lets pass exactly the cells that are new. -/
theorem dijkstraVisit_spec (game : GameState) (h : Tracks s f dep) (v : Point) (hu : InBounds u) (hd : s.distances u = d)
    (hle : ∀ j, dep j ≤ d + 1) (hdep : dep f.order.length = d + 1) (hsmall : d < numCells) :
    ∃ s' f', dijkstraVisit game u s v = .ok s' ∧
      f' = (if Free game v then f.discover u v else f) ∧ Tracks s' f' dep := by
  unfold dijkstraVisit
  rw [canMove_eq, ok_bind]
  by_cases hv : Free game v
  · simp only [hv, decide_true, if_true, readCell, if_pos hv.1, if_pos hu, ok_bind, hd]
    have hnum : int32 ((d : Int) + 1) = ((d + 1 : Nat) : Int) := by
      rw [int32_of_range (by omega) (by simp only [numCells, mapHeight, mapWidth] at hsmall; omega)]
      rfl
    rw [hnum]
    by_cases hmem : v ∈ f.order
    · obtain ⟨j, hj⟩ := List.getElem?_of_mem hmem
      have hnot : ¬ ((d + 1 : Nat) : Int) < s.distances v := by
        rw [h.known j v hj]
        have := hle j
        omega
      rw [if_neg hnot]
      exact ⟨s, f, rfl, (if_pos hmem).symm, h⟩
    · have hlt : ((d + 1 : Nat) : Int) < s.distances v := by
        rw [h.unknown v hmem]
        simp only [numCells, mapHeight, mapWidth, infinity] at hsmall ⊢
        omega
      have hroom : s.queue.rear < numCells := by
        rw [h.rear]
        exact length_lt_numCells h.nodup h.inBounds hv.1 hmem
      rw [if_pos hlt]
      simp only [writeCell, if_pos hv.1, ok_bind, enqueue, if_pos hroom, pure_eq_ok]
      exact ⟨_, _, rfl, (if_neg hmem).symm, h.discover hv.1 hmem hdep⟩
  · simp only [hv, decide_false, Bool.false_eq_true, if_false, pure_eq_ok]
    exact ⟨s, f, rfl, rfl, h⟩

theorem dijkstraVisits_spec (h : Tracks s f dep) (l : List Point) {i : Nat} (hi : f.order[i]? = some u)
    (hle : ∀ j, dep j ≤ dep i + 1) (hdep : ∀ j, f.order.length ≤ j → dep j = dep i + 1)
    (hsmall : dep i < numCells) :
    ∃ s', l.foldlM (dijkstraVisit game u) s = .ok s' ∧
      Tracks s' ((l.filter (Free game)).foldl (Frontier.discover u) f) dep := by
  induction l generalizing s f with
  | nil => exact ⟨s, rfl, h⟩
  | cons v l ih =>
    obtain ⟨s₁, f₁, hok, hf₁, h₁⟩ := dijkstraVisit_spec game h v
      (h.inBounds u (List.mem_of_getElem? hi)) (h.known i u hi) hle (hdep _ (Nat.le_refl _)) hsmall
    -- whatever happens to `v`, the old places stay
    have hgrow : f.order <+: f₁.order := by
      rw [hf₁]
      split
      · exact Frontier.prefix_discover u f v
      · exact List.prefix_rfl
    have hi₁ : f₁.order[i]? = some u := by
      obtain ⟨rest, hrest⟩ := hgrow
      rw [← hrest]
      exact getElem?_order_append hi rest
    obtain ⟨s', hok', h'⟩ := ih h₁ hi₁ fun j hj => hdep j (Nat.le_trans hgrow.length_le hj)
    refine ⟨s', ?_, ?_⟩
    · rw [List.foldlM_cons, hok, ok_bind]
      exact hok'
    · rw [List.filter_cons]
      by_cases hv : Free game v
      · rw [hf₁, if_pos hv] at h'
        simpa only [hv, decide_true, if_true, List.foldl_cons] using h'
      · rw [hf₁, if_neg hv] at h'
        simpa only [hv, decide_false, Bool.false_eq_true, if_false] using h'

end Visits

/-- The breadth-first search of the maze after `k` cells. -/
def frontierAfter (game : GameState) (start : Point) (k : Nat) : Frontier Point :=
  (Frontier.advance (openMoves game))^[k] (.initial start)

/-- Until the search comes to the target, no more than two cells wait when one is taken. -/
def Narrow (game : GameState) (start target : Point) : Prop :=
  ∀ k, target ∉ (frontierAfter game start k).order.take ((frontierAfter game start k).front + 1) →
    (frontierAfter game start k).order.length ≤ (frontierAfter game start k).front + 2

section Loop
variable {game : GameState} {start target : Point} {s : Dijkstra} {f : Frontier Point} {par : ℕ → ℕ}

theorem Tracks.sorted (h : Tracks s f (depth par)) (hl : Layered (openMoves game) start f par) {c : Point}
    (hc : f.order[f.front]? = some c) : ∀ i, s.queue.front < i → i < s.queue.rear →
      (s.queue.queue s.queue.front).priority ≤ (s.queue.queue i).priority := by
  intro i hi hlt
  rw [h.front] at hi
  rw [h.rear] at hlt
  obtain ⟨b, hb⟩ := Layered.exists_place hlt
  rw [h.front, h.waiting _ _ (Nat.le_refl _) hc, h.waiting i b (Nat.le_of_lt hi) hb]
  exact Int.ofNat_le.mpr (hl.depth_mono (Nat.le_of_lt hi) hlt)

theorem Tracks.expand (h : Tracks s f (depth par)) (hl : Layered (openMoves game) start f par) {c : Point}
    (hc : f.order[f.front]? = some c) (htwo : f.order.length ≤ f.front + 2) :
    ∃ s', (moves c).foldlM (dijkstraVisit game c) { s with queue := (dequeue s.queue).2 } = .ok s' ∧
      Tracks s' (f.expand (openMoves game) c) (depth (nextPar f par)) := by
  have hlt := Layered.lt_length hc
  have hold : ∀ {j : Nat} {b : Point}, f.order[j]? = some b → depth (nextPar f par) j = depth par j :=
    fun hj => depth_nextPar_of_lt (Layered.lt_length hj)
  have hdep : depth (nextPar f par) f.front = depth par f.front := hold hc
  obtain ⟨hfront, hrear, hqueue⟩ := dequeue_snd (h.sorted hl hc) (by rw [h.front, h.rear]; exact htwo)
  have htaken : Tracks { s with queue := (dequeue s.queue).2 } { f with front := f.front + 1 }
      (depth (nextPar f par)) := by
    refine ⟨h.nodup, h.inBounds, ?_, hrear.trans h.rear, ?_, ?_, h.unknown, h.previous⟩
    · rw [← h.front]
      exact hfront
    · intro j b hj hb
      change (dequeue s.queue).2.queue j = _
      rw [hqueue j (by rw [h.front]; exact hj), h.waiting j b (Nat.le_of_succ_le hj) hb,
        hold hb]
    · intro j b hb
      rw [hold hb]
      exact h.known j b hb
  apply dijkstraVisits_spec htaken (moves c) hc
  · intro j
    rw [hdep]
    rcases Nat.lt_or_ge j f.order.length with hj | hj
    · rw [depth_nextPar_of_lt hj]
      exact hl.depth_le hj (Nat.le_refl _) hlt
    · exact Nat.le_of_eq (depth_nextPar_of_le hlt hj)
  · intro j hj
    rw [hdep]
    exact depth_nextPar_of_le hlt hj
  · rw [hdep]
    have hself := depth_le_self par f.front
    have hcells := length_le_numCells h.nodup h.inBounds
    omega

theorem dijkstraBacktrack_spec (h : Tracks s f (depth par)) (hl : Layered (openMoves game) start f par)
    {j : Nat} {c : Point} (hj : f.order[j]? = some c) (hpos : 0 < j) {fuel : Nat} (hfuel : j ≤ fuel) :
    ∃ p, dijkstraBacktrack s.previous start fuel c = .ok p ∧ f.order[first par j]? = some p := by
  induction fuel generalizing j c with
  | zero => omega
  | succ fuel ih =>
    obtain ⟨b, hparent, hcases⟩ := hl.parent_cases hj hpos
    rw [dijkstraBacktrack, readCell, if_pos (h.inBounds c (List.mem_of_getElem? hj)), ok_bind,
      h.previous c b hparent]
    rcases hcases with ⟨rfl, hfirst⟩ | ⟨hne, hparpos, hpar, hb, hfirst⟩
    · rw [if_pos ((equalPoints_iff _ _).mpr rfl), hfirst]
      exact ⟨c, rfl, hj⟩
    · rw [if_neg (fun he => hne ((equalPoints_iff _ _).mp he)), hfirst]
      exact ih hb hparpos (by omega)

/-- What is expected of `dijkstra`. -/
def DijkstraLeadsCloser (game : GameState) (start target : Point) : Prop :=
  ∃ d, dijkstra game start target = .ok d ∧
    (d = .none ↔ ¬ Reaches (openMoves game) start target) ∧
    (Reaches (openMoves game) start target →
      ∃ p, Closer (openMoves game) start target p ∧ d = determineDirection start p)

theorem dijkstraLoop_spec (hnarrow : Narrow game start target) (hne : start ≠ target) {k fuel : Nat}
    (hf : f = frontierAfter game start k) (h : Tracks s f (depth par))
    (hl : Layered (openMoves game) start f par) (hnot : target ∉ f.order.take f.front)
    (hfuel : numCells < fuel + f.front) :
    (dijkstraLoop game start target fuel s = .ok .none ∧ ¬ Reaches (openMoves game) start target) ∨
      Reaches (openMoves game) start target ∧ ∃ p, Closer (openMoves game) start target p ∧
        dijkstraLoop game start target fuel s = .ok (determineDirection start p) := by
  induction fuel generalizing s f par k with
  | zero =>
    have hle := hl.front_le
    have hlen := length_le_numCells h.nodup h.inBounds
    omega
  | succ fuel ih =>
    rw [dijkstraLoop, h.front, h.rear]
    cases hc : f.order[f.front]? with
    | none =>
      have hall : f.order.length ≤ f.front := List.getElem?_eq_none_iff.mp hc
      rw [if_neg (Nat.not_lt.mpr hall)]
      refine .inl ⟨rfl, fun hr => ?_⟩
      rw [List.take_of_length_le hall] at hnot
      exact hnot (hl.mem_of_reaches hall hr)
    | some c =>
      have hlt := Layered.lt_length hc
      have hnode : (dequeue s.queue).1 = ⟨c, depth par f.front⟩ := by
        rw [dequeue_fst (h.sorted hl hc), h.front, h.waiting _ _ (Nat.le_refl _) hc]
      rw [if_pos hlt]
      dsimp only
      rw [hnode]
      by_cases heq : equalPoints c target = true
      · rw [if_pos heq]
        obtain rfl := (equalPoints_iff _ _).mp heq
        have hpos := hl.place_pos hc hne.symm
        have hcells := length_le_numCells h.nodup h.inBounds
        have hplace : f.front ≤ numCells := Nat.le_of_lt (Nat.lt_of_lt_of_le hlt hcells)
        obtain ⟨p, hback, hp⟩ := dijkstraBacktrack_spec h hl hc hpos hplace
        obtain ⟨_, _, _, hcloser, _⟩ := hl.first_closer hpos hc hp
        refine .inr ⟨hl.reaches (List.mem_of_getElem? hc), p, hcloser, ?_⟩
        rw [hback]
        rfl
      · rw [if_neg heq]
        have hnot' : target ∉ f.order.take (f.front + 1) :=
          Layered.notMem_take_succ hc hnot fun he => heq ((equalPoints_iff _ _).mpr he)
        have htwo : f.order.length ≤ f.front + 2 := by
          rw [hf] at hnot' ⊢
          exact hnarrow k hnot'
        obtain ⟨s', hok, h'⟩ := h.expand hl hc htwo
        have hl' := hl.expand (openMoves_nodup game c) (notMem_openMoves game start) hc
        have heq' := expand_eq (f := f) (openMoves_nodup game c)
        rw [hok, ok_bind]
        apply ih (k := k + 1) _ h' hl'
        · rw [heq', List.take_append_of_le_length hlt]
          exact hnot'
        · rw [heq']
          change numCells < fuel + (f.front + 1)
          omega
        · rw [frontierAfter, Function.iterate_succ_apply', ← frontierAfter, ← hf,
            Frontier.advance_of_some hc]

def Dijkstra.initial (start : Point) : Dijkstra where
  queue := ⟨Function.update (fun _ => ⟨start, 0⟩) 0 ⟨start, 0⟩, 0, 1⟩
  distances := Function.update (fun _ => infinity) start 0
  previous := fun _ => ⟨uint32 (-1), uint32 (-1)⟩

theorem dijkstra_eq (game : GameState) {start : Point} (target : Point) (hs : InBounds start) :
    dijkstra game start target =
      dijkstraLoop game start target (numCells + 1) (.initial start) := by
  rw [dijkstra, writeCell, if_pos hs, ok_bind]
  rfl

theorem Tracks.initial {start : Point} (hs : InBounds start) :
    Tracks (.initial start) (.initial start) (depth id) := by
  have hplace : ∀ {j : Nat} {c : Point}, [start][j]? = some c → j = 0 ∧ c = start := by
    intro j c hj
    cases j with
    | zero => exact ⟨rfl, (Option.some.inj hj).symm⟩
    | succ j => cases hj
  constructor
  case nodup => exact List.nodup_singleton _
  case inBounds =>
    intro p hp
    rw [List.mem_singleton.mp hp]
    exact hs
  case front => rfl
  case rear => rfl
  case waiting =>
    intro j c _ hj
    obtain ⟨rfl, rfl⟩ := hplace hj
    rw [Layered.depth_zero]
    rfl
  case known =>
    intro j c hj
    obtain ⟨rfl, rfl⟩ := hplace hj
    rw [Layered.depth_zero]
    change Function.update (fun _ => infinity) c 0 c = 0
    rw [Function.update_self]
  case unknown =>
    intro c hc
    change Function.update (fun _ => infinity) start 0 c = infinity
    rw [Function.update_of_ne fun he => hc (List.mem_singleton.mpr he)]
  case previous =>
    intro c b hb
    cases hb

/-- While at most two cells wait, `dequeue` loses nothing and the result is the
direction of a step on a shortest path. -/
theorem dijkstra_leads_closer (game : GameState) (start target : Point) (hs : Free game start)
    (hne : start ≠ target) (hnarrow : Narrow game start target) :
    DijkstraLeadsCloser game start target := by
  have hrun := dijkstra_eq game target hs.1
  have hfuel : numCells < numCells + 1 + (Frontier.initial start).front := Nat.lt_succ_self _
  rcases dijkstraLoop_spec hnarrow hne (k := 0) rfl (.initial hs.1) (.initial (openMoves game) start)
    List.not_mem_nil hfuel with
    ⟨hnone, hnot⟩ | ⟨hreach, p, hcloser, hdir⟩
  · exact ⟨.none, hrun.trans hnone, ⟨fun _ => hnot, fun _ => rfl⟩, fun hr => absurd hr hnot⟩
  · refine ⟨_, hrun.trans hdir, ⟨fun hd => absurd hd ?_, fun hnot => absurd hreach hnot⟩,
      fun _ => ⟨p, hcloser, rfl⟩⟩
    apply determineDirection_ne_none
    rintro rfl
    exact notMem_openMoves game start hcloser.1

end Loop

theorem frontierAfter_exhausted {game : GameState} {start : Point} {n : Nat}
    (h : (frontierAfter game start n).order[(frontierAfter game start n).front]? = none) (k : Nat) :
    frontierAfter game start (k + n) = frontierAfter game start n := by
  have hfix : (frontierAfter game start n).advance (openMoves game) = frontierAfter game start n := by
    rw [Frontier.advance, h]
  rw [frontierAfter, Function.iterate_add_apply]
  exact Function.iterate_fixed hfix k

/-- In a corridor of three cells. -/
theorem dijkstra_leads_closer_corridor :
    Narrow (maze [⟨1, 1⟩, ⟨2, 1⟩, ⟨3, 1⟩]) ⟨1, 1⟩ ⟨3, 1⟩ ∧
      DijkstraLeadsCloser (maze [⟨1, 1⟩, ⟨2, 1⟩, ⟨3, 1⟩]) ⟨1, 1⟩ ⟨3, 1⟩ := by
  have hnarrow : Narrow (maze [⟨1, 1⟩, ⟨2, 1⟩, ⟨3, 1⟩]) ⟨1, 1⟩ ⟨3, 1⟩ := by
    intro k _
    match k with
    | 0 => decide
    | 1 => decide
    | 2 => decide
    | k + 3 =>
      rw [frontierAfter_exhausted (by decide)]
      decide
  exact ⟨hnarrow, dijkstra_leads_closer _ _ _ (by decide) (by decide) hnarrow⟩

/-- Four neighbours wait, and the second of them, the target, is lost. -/
theorem dijkstra_loses_target :
    Free (maze [⟨2, 1⟩, ⟨1, 2⟩, ⟨2, 2⟩, ⟨3, 2⟩, ⟨2, 3⟩]) ⟨2, 2⟩ ∧
      Free (maze [⟨2, 1⟩, ⟨1, 2⟩, ⟨2, 2⟩, ⟨3, 2⟩, ⟨2, 3⟩]) ⟨3, 2⟩ ∧
      dijkstra (maze [⟨2, 1⟩, ⟨1, 2⟩, ⟨2, 2⟩, ⟨3, 2⟩, ⟨2, 3⟩]) ⟨2, 2⟩ ⟨3, 2⟩ = .ok .none ∧
      ¬ DijkstraLeadsCloser (maze [⟨2, 1⟩, ⟨1, 2⟩, ⟨2, 2⟩, ⟨3, 2⟩, ⟨2, 3⟩]) ⟨2, 2⟩ ⟨3, 2⟩ := by
  have hrun : dijkstra (maze [⟨2, 1⟩, ⟨1, 2⟩, ⟨2, 2⟩, ⟨3, 2⟩, ⟨2, 3⟩]) ⟨2, 2⟩ ⟨3, 2⟩ = .ok .none := by
    decide +kernel
  have hnext : (⟨3, 2⟩ : Point) ∈ openMoves (maze [⟨2, 1⟩, ⟨1, 2⟩, ⟨2, 2⟩, ⟨3, 2⟩, ⟨2, 3⟩]) ⟨2, 2⟩ := by
    decide
  refine ⟨by decide, by decide, hrun, ?_⟩
  rintro ⟨d, hd, hnone, _⟩
  rw [hrun] at hd
  cases hd
  exact hnone.mp rfl ⟨1, .snoc .nil hnext⟩

end Zeos.Game
