import Zeos.Board
import Zeos.Searches
import Zeos.Lib.BreadthFirst
import Mathlib.Data.Finset.Prod

/-!
# `bfs`

The queue of `bfs` holds the cells in the order of a breadth-first search of the
maze. So no array is left, the target comes up exactly if it can be reached, and the
cell that the way back ends at is the first neighbour on a shortest path. What the
function then returns is the direction from that cell to the target, and not the one
from the start to that cell.
-/

namespace Zeos.Game

open Loops BreadthFirst
set_option autoImplicit false

def Free (game : GameState) (p : Point) : Prop := InBounds p ∧ game.map p ≠ '#'

instance (game : GameState) (p : Point) : Decidable (Free game p) := inferInstanceAs (Decidable (_ ∧ _))

/-- The neighbours that are no walls, in the order in which the searches try them. -/
def openMoves (game : GameState) (p : Point) : List Point := (moves p).filter (Free game)

/-- A map with these cells and walls elsewhere. -/
def maze (cells : List Point) : GameState :=
  { initialState 0 3 0 with map := fun p => if p ∈ cells then ' ' else '#' }

section Maze
variable {game : GameState} {p q : Point}

theorem canMove_eq (game : GameState) (p : Point) : canMove game p = .ok (decide (Free game p)) := by
  unfold canMove isValidMove
  by_cases hin : InBounds p
  · simp only [if_pos hin, isWall_of hin, ok_bind, pure_eq_ok]
    by_cases hwall : game.map p = '#'
    · simp [Free, hin, hwall]
    · simp [Free, hin, hwall]
  · simp [Free, hin]

theorem ne_iff_coordinates : p ≠ q ↔ p.x ≠ q.x ∨ p.y ≠ q.y := by
  rw [← not_and_or, ne_eq, ← equalPoints_iff p q, equalPoints, Bool.and_eq_true, beq_iff_eq, beq_iff_eq]

theorem readPrevious_of {previous : Point → Option Point} (hp : InBounds p) (hq : previous p = some q) :
    readPrevious previous p = .ok q := by
  rw [readPrevious, readCell, if_pos hp, ok_bind, hq]

theorem mem_openMoves : q ∈ openMoves game p ↔ q ∈ moves p ∧ Free game q := by
  rw [openMoves, List.mem_filter, decide_eq_true_iff]

theorem uint32_succ_ne (n : Nat) : uint32 ((n : Int) + 1) ≠ n := by
  unfold uint32
  omega

theorem uint32_pred_ne_self (n : Nat) : uint32 ((n : Int) - 1) ≠ n := by
  unfold uint32
  omega

theorem uint32_pred_ne_succ (n : Nat) : uint32 ((n : Int) - 1) ≠ uint32 ((n : Int) + 1) := by
  unfold uint32
  omega

theorem notMem_moves (p : Point) : p ∉ moves p := by
  obtain ⟨x, y⟩ := p
  simp [moves, (uint32_pred_ne_self _).symm, (uint32_succ_ne _).symm]

theorem moves_nodup (p : Point) : (moves p).Nodup := by
  obtain ⟨x, y⟩ := p
  simp [moves, uint32_pred_ne_self, uint32_succ_ne, uint32_pred_ne_succ, (uint32_pred_ne_self _).symm,
    (uint32_succ_ne _).symm]

theorem openMoves_nodup (game : GameState) (p : Point) : (openMoves game p).Nodup :=
  (moves_nodup p).filter _

theorem notMem_openMoves (game : GameState) (p : Point) : p ∉ openMoves game p :=
  fun hp => notMem_moves p (mem_openMoves.mp hp).1

theorem length_le_of_box {l : List Point} {w h : Nat} (hn : l.Nodup)
    (hin : ∀ p ∈ l, p.x < w ∧ p.y < h) : l.length ≤ h * w := by
  rw [← List.toFinset_card_of_nodup hn]
  calc l.toFinset.card ≤ (Finset.range w ×ˢ Finset.range h).card := by
        apply Finset.card_le_card_of_injOn fun p : Point => (p.x, p.y)
        · intro p hp
          have hb := hin p (List.mem_toFinset.mp hp)
          simpa using hb
        · intro p _ q _ he
          obtain ⟨hx, hy⟩ := Prod.mk.inj he
          exact (equalPoints_iff p q).mp (by simp [equalPoints, hx, hy])
    _ = h * w := by rw [Finset.card_product, Finset.card_range, Finset.card_range, Nat.mul_comm]

theorem length_le_numCells {l : List Point} (hn : l.Nodup) (hin : ∀ p ∈ l, InBounds p) :
    l.length ≤ numCells := length_le_of_box hn hin

theorem inBounds_snoc {l : List Point} (hin : ∀ p ∈ l, InBounds p) (hq : InBounds q) :
    ∀ p ∈ l ++ [q], InBounds p := by
  intro p hp
  rcases List.mem_append.mp hp with hp | hp
  · exact hin p hp
  · rw [List.mem_singleton.mp hp]
    exact hq

theorem nodup_snoc {l : List Point} (hn : l.Nodup) (hq : q ∉ l) : (l ++ [q]).Nodup :=
  hn.append (List.nodup_singleton q) (by simpa using hq)

theorem length_lt_numCells {l : List Point} (hn : l.Nodup) (hin : ∀ p ∈ l, InBounds p) (hq : InBounds q)
    (hnew : q ∉ l) : l.length < numCells := by
  have hlen := length_le_numCells (nodup_snoc hn hnew) (inBounds_snoc hin hq)
  rw [List.length_append, List.length_singleton] at hlen
  exact hlen

end Maze

def Bfs.frontier (s : Bfs) : Frontier Point := ⟨s.queue, s.front, s.previous⟩

/-- The marks are those of the cells in the queue. -/
structure Tidy (s : Bfs) : Prop where
  nodup : s.queue.Nodup
  inBounds : ∀ p ∈ s.queue, InBounds p
  visited : ∀ p, s.visited p = decide (p ∈ s.queue)

section Queue
variable {game : GameState} {s : Bfs} {u v : Point}

theorem bfsVisit_spec (game : GameState) (h : Tidy s) (u v : Point) : ∃ s', bfsVisit game u s v = .ok s' ∧ Tidy s' ∧
    s'.frontier = if Free game v then s.frontier.discover u v else s.frontier := by
  unfold bfsVisit
  rw [canMove_eq, ok_bind]
  by_cases hv : Free game v
  · simp only [hv, decide_true, if_true, readCell, if_pos hv.1, ok_bind, h.visited v]
    by_cases hmem : v ∈ s.queue
    · have hdone : s.frontier.discover u v = s.frontier := if_pos hmem
      rw [hdone, if_pos (decide_eq_true hmem)]
      exact ⟨s, rfl, h, rfl⟩
    · have hnew : s.frontier.discover u v = ⟨s.queue ++ [v], s.front,
          Function.update s.previous v (some u)⟩ := if_neg hmem
      rw [hnew, if_neg (by simpa using hmem), if_pos (length_lt_numCells h.nodup h.inBounds hv.1 hmem)]
      simp only [writeCell, if_pos hv.1, ok_bind, pure_eq_ok]
      refine ⟨_, rfl, ⟨nodup_snoc h.nodup hmem, inBounds_snoc h.inBounds hv.1, ?_⟩, rfl⟩
      intro p
      change Function.update s.visited v true p = decide (p ∈ s.queue ++ [v])
      by_cases hp : p = v
      · simp [hp]
      · simp [hp, h.visited]
  · simp only [hv, decide_false, Bool.false_eq_true, if_false, pure_eq_ok]
    exact ⟨s, rfl, h, rfl⟩

theorem bfsVisits_spec (game : GameState) (h : Tidy s) (u : Point) (l : List Point) :
    ∃ s', l.foldlM (bfsVisit game u) s = .ok s' ∧ Tidy s' ∧
      s'.frontier = (l.filter (Free game)).foldl (Frontier.discover u) s.frontier := by
  induction l generalizing s with
  | nil => exact ⟨s, rfl, h, rfl⟩
  | cons v l ih =>
    obtain ⟨s₁, hok, h₁, hf⟩ := bfsVisit_spec game h u v
    obtain ⟨s', hok', h', hf'⟩ := ih h₁
    refine ⟨s', ?_, h', ?_⟩
    · rw [List.foldlM_cons, hok, ok_bind]
      exact hok'
    · rw [hf', hf, List.filter_cons]
      by_cases hv : Free game v
      · simp only [hv, if_true, decide_true, List.foldl_cons]
      · simp only [hv, if_false, decide_false, Bool.false_eq_true]

end Queue

section Loop
variable {game : GameState} {start target : Point}

structure Found (game : GameState) (start target : Point) (s : Bfs) (j : Nat) (par : ℕ → ℕ) : Prop where
  layered : Layered (openMoves game) start ⟨s.queue, j, s.previous⟩ par
  place : s.queue[j]? = some target

theorem bfsLoop_spec {s : Bfs} {par : ℕ → ℕ} {fuel : Nat} (h : Tidy s)
    (hl : Layered (openMoves game) start s.frontier par) (hnot : target ∉ s.queue.take s.front)
    (hfuel : numCells < fuel + s.front) :
    ∃ found s', bfsLoop game target fuel s = .ok (found, s') ∧ Tidy s' ∧
      ((found = false ∧ ¬ Reaches (openMoves game) start target) ∨
        (found = true ∧ ∃ j par, Found game start target s' j par)) := by
  induction fuel generalizing s par with
  | zero =>
    have hle := hl.front_le
    have hlen := length_le_numCells h.nodup h.inBounds
    change s.front ≤ s.queue.length at hle
    omega
  | succ fuel ih =>
    rw [bfsLoop]
    cases hcur : s.queue[s.front]? with
    | none =>
      have hall : s.queue.length ≤ s.front := List.getElem?_eq_none_iff.mp hcur
      refine ⟨false, s, rfl, h, .inl ⟨rfl, ?_⟩⟩
      intro hr
      rw [List.take_of_length_le hall] at hnot
      exact hnot (hl.mem_of_reaches hall hr)
    | some current =>
      simp only
      by_cases heq : equalPoints current target = true
      · rw [if_pos heq]
        rw [(equalPoints_iff _ _).mp heq] at hcur
        exact ⟨true, _, rfl, ⟨h.nodup, h.inBounds, h.visited⟩, .inr ⟨rfl, s.front, par, hl, hcur⟩⟩
      · rw [if_neg heq]
        have htidy : Tidy { s with front := s.front + 1 } := ⟨h.nodup, h.inBounds, h.visited⟩
        obtain ⟨s', hok, h', hf'⟩ := bfsVisits_spec game htidy current (moves current)
        have hexpand : s'.frontier = s.frontier.expand (openMoves game) current := hf'
        have hl' := hl.expand (openMoves_nodup game current) (notMem_openMoves game start) hcur
        rw [← hexpand] at hl'
        have heq' := expand_eq (f := s.frontier) (openMoves_nodup game current)
        rw [← hexpand] at heq'
        have hqueue : s'.queue = s.queue ++ (openMoves game current).filter (· ∉ s.queue) :=
          congrArg Frontier.order heq'
        have hfront : s'.front = s.front + 1 := congrArg Frontier.front heq'
        rw [hok, ok_bind]
        apply ih h' hl'
        · have hlt := (List.getElem?_eq_some_iff.mp hcur).1
          rw [hqueue, hfront, List.take_append_of_le_length hlt]
          exact Layered.notMem_take_succ (f := s.frontier) hcur hnot fun he => heq ((equalPoints_iff _ _).mpr he)
        · omega

theorem bfsSearch_spec (game : GameState) (hs : InBounds start) (target : Point) :
    ∃ found s, bfsSearch game start target = .ok (found, s) ∧ Tidy s ∧
      ((found = false ∧ ¬ Reaches (openMoves game) start target) ∨
        (found = true ∧ ∃ j par, Found game start target s j par)) := by
  unfold bfsSearch
  rw [writeCell, if_pos hs, ok_bind]
  refine bfsLoop_spec ?_ (Layered.initial (openMoves game) start) List.not_mem_nil (Nat.lt_succ_self _)
  · refine ⟨List.nodup_singleton _, ?_, ?_⟩
    · intro p hp
      rw [List.mem_singleton.mp hp]
      exact hs
    · intro p
      change Function.update (fun _ => false) start true p = decide (p ∈ [start])
      by_cases hp : p = start
      · simp [hp]
      · simp [hp]

variable {s : Bfs} {par : ℕ → ℕ} {j i : Nat}

theorem backtrack_spec (hl : Layered (openMoves game) start ⟨s.queue, i, s.previous⟩ par)
    (hin : ∀ p ∈ s.queue, InBounds p) {c : Point} (hj : s.queue[j]? = some c) (hpos : 0 < j)
    {fuel : Nat} (hfuel : j ≤ fuel) :
    ∃ p, backtrack s.previous start fuel c = .ok p ∧ s.queue[first par j]? = some p := by
  induction fuel generalizing j c with
  | zero => omega
  | succ fuel ih =>
    obtain ⟨b, hprev, hcases⟩ := hl.parent_cases hj hpos
    rw [backtrack, readPrevious_of (hin c (List.mem_of_getElem? hj)) hprev, ok_bind]
    rcases hcases with ⟨rfl, hfirst⟩ | ⟨hne, hparpos, hpar, hb, hfirst⟩
    · rw [if_neg (by simp), hfirst]
      exact ⟨c, rfl, hj⟩
    · rw [if_pos (ne_iff_coordinates.mp hne), hfirst]
      exact ih hb hparpos (by omega)

/-- The way back from the target: the first of the neighbours that are on a shortest path. -/
theorem Found.backtrack (h : Found game start target s j par) (ht : Tidy s) (hne : start ≠ target) :
    ∃ p, Game.backtrack s.previous start numCells target = .ok p ∧
      FirstIn (Closer (openMoves game) start target) (openMoves game start) p := by
  have hpos := h.layered.place_pos h.place hne.symm
  have hlen : j < s.queue.length := (List.getElem?_eq_some_iff.mp h.place).1
  have hcells := length_le_numCells ht.nodup ht.inBounds
  have hplace : j ≤ numCells := Nat.le_of_lt (Nat.lt_of_lt_of_le hlen hcells)
  obtain ⟨p, hok, hp⟩ := backtrack_spec h.layered ht.inBounds h.place hpos hplace
  exact ⟨p, hok, h.layered.first_closer hpos h.place hp⟩

theorem Found.reaches (h : Found game start target s j par) : Reaches (openMoves game) start target :=
  h.layered.reaches (List.mem_of_getElem? h.place)

/-- The search ends inside all its arrays, comes upon the target exactly if it can be
reached, and then goes back over written entries to a neighbour of the start. -/
theorem bfs_search_safe (game : GameState) (start target : Point) (hs : InBounds start)
    (hne : start ≠ target) :
    ∃ found s, bfsSearch game start target = .ok (found, s) ∧ s.queue.length ≤ numCells ∧
      (found = true ↔ Reaches (openMoves game) start target) ∧
      (found = true → ∃ pos, backtrack s.previous start numCells target = .ok pos ∧
        pos ∈ openMoves game start) := by
  obtain ⟨found, s, hok, htidy, hcases⟩ := bfsSearch_spec game hs target
  refine ⟨found, s, hok, length_le_numCells htidy.nodup htidy.inBounds, ?_⟩
  rcases hcases with ⟨rfl, hnot⟩ | ⟨rfl, j, par, hfound⟩
  · exact ⟨⟨fun h => absurd h Bool.false_ne_true, fun h => absurd h hnot⟩,
      fun h => absurd h Bool.false_ne_true⟩
  · refine ⟨⟨fun _ => hfound.reaches, fun _ => rfl⟩, fun _ => ?_⟩
    obtain ⟨p, hback, _, _, _, hcloser, _⟩ := hfound.backtrack htidy hne
    exact ⟨p, hback, hcloser.1⟩

end Loop

/-- A ghost next to Pacman at the start of the first level. -/
theorem bfs_search_safe_beside_pacman :
    ∃ s pos, bfsSearch (initialState 0 3 0) ⟨35, 1⟩ ⟨36, 1⟩ = .ok (true, s) ∧
      backtrack s.previous ⟨35, 1⟩ numCells ⟨36, 1⟩ = .ok pos ∧
      pos ∈ openMoves (initialState 0 3 0) ⟨35, 1⟩ := by
  obtain ⟨found, s, hok, _, hfound, hback⟩ :=
    bfs_search_safe (initialState 0 3 0) ⟨35, 1⟩ ⟨36, 1⟩ (by decide) (by decide)
  have hnext : (⟨36, 1⟩ : Point) ∈ openMoves (initialState 0 3 0) ⟨35, 1⟩ := by decide +kernel
  obtain rfl : found = true := hfound.mpr ⟨1, .snoc .nil hnext⟩
  obtain ⟨pos, hpos⟩ := hback rfl
  exact ⟨s, pos, hok, hpos⟩

/-- The cell a ghost on `start` enters when it takes the direction from `p` to the
target. `getNextPoint` goes up where `determineDirection` looks down. -/
def aimed (start p target : Point) : Point :=
  if p.x < target.x then { start with x := uint32 (start.x + 1) }
  else if target.x < p.x then { start with x := uint32 (start.x - 1) }
  else if p.y < target.y then { start with y := uint32 (start.y - 1) }
  else if target.y < p.y then { start with y := uint32 (start.y + 1) }
  else start

theorem getNextPoint_determineDirection (start p target : Point) :
    getNextPoint start (determineDirection p target) = aimed start p target := by
  unfold determineDirection aimed
  split
  · rfl
  · split
    · rfl
    · split
      · rfl
      · split <;> rfl

theorem determineDirection_ne_none {a b : Point} (h : a ≠ b) : determineDirection a b ≠ .none := by
  intro hnone
  apply h
  apply (equalPoints_iff a b).mp
  unfold determineDirection at hnone
  split at hnone
  · cases hnone
  · split at hnone
    · cases hnone
    · split at hnone
      · cases hnone
      · split at hnone
        · cases hnone
        · have hx : a.x = b.x := by omega
          have hy : a.y = b.y := by omega
          simp [equalPoints, hx, hy]

/-- What is expected of `bfs`: a step that brings the ghost closer, or none when there is none. -/
def BfsLeadsCloser (game : GameState) (start target : Point) : Prop :=
  ∃ d, bfs game start target = .ok d ∧
    (Reaches (openMoves game) start target →
      Closer (openMoves game) start target (getNextPoint start d)) ∧
    (¬ Reaches (openMoves game) start target → d = .none)

/-- The result is the direction from the first step of a shortest path to the target.
It leads closer exactly if the cell on that side of the start happens to be on a
shortest path, too. -/
theorem bfs_leads_closer_iff (game : GameState) (start target : Point) (hs : Free game start)
    (hne : start ≠ target) :
    BfsLeadsCloser game start target ↔ ¬ Reaches (openMoves game) start target ∨
      ∃ p, FirstIn (Closer (openMoves game) start target) (openMoves game start) p ∧
        Closer (openMoves game) start target (aimed start p target) := by
  obtain ⟨found, s, hok, htidy, hcases⟩ := bfsSearch_spec game hs.1 target
  rcases hcases with ⟨rfl, hnot⟩ | ⟨rfl, j, par, hfound⟩
  · have hbfs : bfs game start target = .ok .none := by
      rw [bfs, hok]
      rfl
    exact ⟨fun _ => .inl hnot, fun _ => ⟨.none, hbfs, fun h => absurd h hnot, fun _ => rfl⟩⟩
  · obtain ⟨p, hback, hfirst⟩ := hfound.backtrack htidy hne
    have hbfs : bfs game start target = .ok (determineDirection p target) := by
      rw [bfs, hok, ok_bind]
      change bfsFound s start target = _
      rw [bfsFound, hback]
      rfl
    constructor
    · rintro ⟨d, hd, hcloser, _⟩
      rw [hbfs] at hd
      cases hd
      refine .inr ⟨p, hfirst, ?_⟩
      rw [← getNextPoint_determineDirection]
      exact hcloser hfound.reaches
    · rintro (hnot | ⟨q, hq, hcloser⟩)
      · exact absurd hfound.reaches hnot
      · refine ⟨_, hbfs, fun _ => ?_, fun hnot => absurd hfound.reaches hnot⟩
        rw [getNextPoint_determineDirection, hfirst.unique hq]
        exact hcloser

/-- Two cells away in a corridor the step is the right one. -/
theorem bfs_leads_closer_iff_corridor : BfsLeadsCloser (initialState 0 3 0) ⟨34, 1⟩ ⟨36, 1⟩ := by
  have hfree : Free (initialState 0 3 0) ⟨34, 1⟩ := by decide +kernel
  have hmoves : openMoves (initialState 0 3 0) ⟨34, 1⟩ = [⟨33, 1⟩, ⟨35, 1⟩] := by decide +kernel
  have hstep : (⟨36, 1⟩ : Point) ∈ openMoves (initialState 0 3 0) ⟨35, 1⟩ := by decide +kernel
  have hback : (⟨36, 1⟩ : Point) ∉ openMoves (initialState 0 3 0) ⟨33, 1⟩ := by decide +kernel
  have hright : (⟨35, 1⟩ : Point) ∈ openMoves (initialState 0 3 0) ⟨34, 1⟩ := by
    rw [hmoves]
    decide
  have hdist : IsDist (openMoves (initialState 0 3 0)) ⟨34, 1⟩ ⟨36, 1⟩ 2 := by
    refine ⟨.snoc (.snoc .nil hright) hstep, ?_⟩
    intro m hm
    cases hm with
    | snoc hm hlast =>
      cases hm with
      | nil =>
        rw [hmoves] at hlast
        exact absurd hlast (by decide)
      | snoc _ _ => omega
  have hcloser : Closer (openMoves (initialState 0 3 0)) ⟨34, 1⟩ ⟨36, 1⟩ ⟨35, 1⟩ :=
    .of_walk hright hdist (.snoc .nil hstep)
  apply (bfs_leads_closer_iff (initialState 0 3 0) ⟨34, 1⟩ ⟨36, 1⟩ hfree (by decide)).mpr
  refine .inr ⟨⟨35, 1⟩, ⟨[⟨33, 1⟩], [], hmoves, hcloser, ?_⟩, hcloser⟩
  intro q hq hcl
  rw [List.mem_singleton.mp hq] at hcl
  cases (hcl.isDist hdist).walk with
  | snoc hw hlast =>
    cases hw with
    | nil => exact hback hlast

/-- Next to Pacman the result is `NONE`. -/
theorem bfs_beside_target : Free (initialState 0 3 0) ⟨35, 1⟩ ∧ Free (initialState 0 3 0) ⟨36, 1⟩ ∧
    bfs (initialState 0 3 0) ⟨35, 1⟩ ⟨36, 1⟩ = .ok .none ∧
    ¬ BfsLeadsCloser (initialState 0 3 0) ⟨35, 1⟩ ⟨36, 1⟩ := by
  have hbfs : bfs (initialState 0 3 0) ⟨35, 1⟩ ⟨36, 1⟩ = .ok .none := by decide +kernel
  have hnext : (⟨36, 1⟩ : Point) ∈ openMoves (initialState 0 3 0) ⟨35, 1⟩ := by decide +kernel
  refine ⟨by decide +kernel, by decide +kernel, hbfs, ?_⟩
  rintro ⟨d, hd, hcloser, _⟩
  rw [hbfs] at hd
  cases hd
  exact notMem_openMoves _ _ (hcloser ⟨1, .snoc .nil hnext⟩).1

end Zeos.Game
