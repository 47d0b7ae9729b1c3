import Zeos.BreadthSearch

/-!
# `dfs`

The mark of a cell is set at its own place and read at the place with the coordinates
exchanged. A cell off the diagonal is therefore pushed again as soon as a neighbour of
it is expanded, since the test that pushed it shows that the other place is not marked
and from then on never will be. Apart from the start only its neighbours can be
expanded without that, and only when the start lies on the diagonal.
-/

namespace Zeos.Game

open Loops BreadthFirst
set_option autoImplicit false

/-- The place at which `dfs` looks for the mark of `p`. -/
def transposed (p : Point) : Point := ⟨p.y, p.x⟩

section Neighbours
variable {p q v w : Point}

theorem mem_moves : q ∈ moves p ↔ q = ⟨uint32 (p.x - 1), p.y⟩ ∨ q = ⟨uint32 (p.x + 1), p.y⟩ ∨
    q = ⟨p.x, uint32 (p.y - 1)⟩ ∨ q = ⟨p.x, uint32 (p.y + 1)⟩ := by
  simp only [moves, List.mem_cons, List.not_mem_nil, or_false]

theorem same_line_of_mem_moves (h : q ∈ moves p) : q.x = p.x ∨ q.y = p.y := by
  rcases mem_moves.mp h with rfl | rfl | rfl | rfl
  · exact .inr rfl
  · exact .inr rfl
  · exact .inl rfl
  · exact .inl rfl

theorem moves_symm (hp : InBounds p) (h : q ∈ moves p) : p ∈ moves q := by
  obtain ⟨x, y⟩ := p
  obtain ⟨hx, hy⟩ := hp
  simp only [mapWidth, mapHeight] at hx hy
  have hpred : ∀ n : Nat, n < 80 → uint32 ((uint32 ((n : Int) - 1) : Nat) + 1) = n := by
    intro n hn
    unfold uint32
    omega
  have hsucc : ∀ n : Nat, n < 80 → uint32 ((uint32 ((n : Int) + 1) : Nat) - 1) = n := by
    intro n hn
    unfold uint32
    omega
  rw [mem_moves] at h ⊢
  rcases h with rfl | rfl | rfl | rfl
  · exact .inr (.inl (by simp [hpred x hx]))
  · exact .inl (by simp [hsucc x hx])
  · exact .inr (.inr (.inr (by simp [hpred y (by omega)])))
  · exact .inr (.inr (.inl (by simp [hsucc y (by omega)])))

/-- The map is coloured like a chessboard. -/
theorem parity_of_mem_moves (h : q ∈ moves p) : (q.x + q.y) % 2 ≠ (p.x + p.y) % 2 := by
  obtain ⟨x, y⟩ := p
  rcases mem_moves.mp h with rfl | rfl | rfl | rfl
  all_goals
    simp only [uint32]
    omega

theorem notMem_moves_of_two_steps (hv : v ∈ moves p) (hw : w ∈ moves v) : w ∉ moves p := by
  intro hwp
  have h1 := parity_of_mem_moves hv
  have h2 := parity_of_mem_moves hw
  have h3 := parity_of_mem_moves hwp
  omega

theorem transposed_notMem_moves (h : p.x ≠ p.y) : transposed p ∉ moves p := by
  intro hmem
  rcases same_line_of_mem_moves hmem with he | he
  · exact h he.symm
  · exact h he

theorem transposed_mem_moves (h : p.x = p.y) (hq : q ∈ moves p) : transposed q ∈ moves p := by
  obtain ⟨x, y⟩ := p
  obtain rfl : x = y := h
  rw [mem_moves] at hq ⊢
  rcases hq with rfl | rfl | rfl | rfl
  · exact .inr (.inr (.inl rfl))
  · exact .inr (.inr (.inr rfl))
  · exact .inl rfl
  · exact .inr (.inl rfl)

theorem offDiagonal_of_mem_moves (h : p.x = p.y) (hq : q ∈ moves p) : q.x ≠ q.y := by
  intro he
  have hpar := parity_of_mem_moves hq
  omega

theorem transposed_eq_self (h : p.x = p.y) : transposed p = p := by
  obtain ⟨x, y⟩ := p
  obtain rfl : x = y := h
  rfl

theorem transposed_ne_of_mem_moves (hq : q ∈ moves p) : transposed q ≠ p := by
  rintro rfl
  by_cases h : q.x = q.y
  · rw [transposed_eq_self h] at hq
    exact notMem_moves q hq
  · rcases same_line_of_mem_moves hq with he | he
    · exact h he
    · exact h he.symm

theorem eq_of_transposed (h : p.x ≠ p.y) (hv : v ∈ moves p) (hw : w ∈ moves p) (he : w = transposed v) :
    w = v := by
  have hx : w.x = v.y := congrArg Point.x he
  have hy : w.y = v.x := congrArg Point.y he
  apply (equalPoints_iff w v).mp
  rcases same_line_of_mem_moves hv with h1 | h1
  · rcases same_line_of_mem_moves hw with h2 | h2
    · have hsame : w.x = v.x ∧ w.y = v.y := by omega
      simp [equalPoints, hsame]
    · omega
  · rcases same_line_of_mem_moves hw with h2 | h2
    · omega
    · have hsame : w.x = v.x ∧ w.y = v.y := by omega
      simp [equalPoints, hsame]

theorem length_openMoves_le (game : GameState) (p : Point) : (openMoves game p).length ≤ 4 :=
  List.length_filter_le _ (moves p)

end Neighbours

/-- The state after these cells have been pushed from `u`. -/
def Dfs.push (s : Dfs) (u : Point) (fresh : List Point) : Dfs where
  stack := fresh.reverse ++ s.stack
  visited := fun p => s.visited p || decide (p ∈ fresh)
  previous := fun p => if p ∈ fresh then some u else s.previous p
  pushed := fresh.reverse ++ s.pushed

section Visits
variable {game : GameState} {s s' : Dfs} {u v : Point} {l : List Point}

theorem Dfs.push_nil (s : Dfs) (u : Point) : s.push u [] = s := by
  simp [Dfs.push]

theorem Dfs.push_append (s : Dfs) (u : Point) (l m : List Point) : (s.push u l).push u m = s.push u (l ++ m) := by
  unfold Dfs.push
  simp only [List.reverse_append, List.append_assoc, Bool.or_assoc]
  congr 1
  · funext p
    by_cases hl : p ∈ l
    · simp [hl]
    · simp [hl]
  · funext p
    by_cases hm : p ∈ m
    · simp [hm]
    · simp [hm]

theorem dfsVisit_closed (hv : ¬ Free game v) : dfsVisit game u s v = .ok s := by
  unfold dfsVisit
  rw [canMove_eq, ok_bind]
  simp [hv]

theorem dfsVisit_fault (hv : Free game v) (hx : ¬ v.x < mapHeight) :
    dfsVisit game u s v = .error .outOfBounds := by
  unfold dfsVisit
  rw [canMove_eq, ok_bind]
  have hout : ¬ InBounds ⟨v.y, v.x⟩ := fun hin => hx hin.2
  simp only [hv, decide_true, if_true, readCell, if_neg hout, error_bind]

theorem transposed_inBounds (hv : Free game v) (hx : v.x < mapHeight) : InBounds ⟨v.y, v.x⟩ :=
  ⟨Nat.lt_trans hv.1.2 (by decide), hx⟩

theorem dfsVisit_open (hv : Free game v) (hx : v.x < mapHeight) : dfsVisit game u s v =
    if s.visited (transposed v) = true then .ok s
    else if s.stack.length < numCells then .ok (s.push u [v]) else .error .outOfBounds := by
  have hpush : s.push u [v] = ⟨v :: s.stack, Function.update s.visited v true,
      Function.update s.previous v (some u), v :: s.pushed⟩ := by
    simp only [Dfs.push, List.reverse_singleton, List.singleton_append]
    congr 1
    · funext p
      by_cases hp : p = v
      · simp [hp]
      · simp [hp]
    · funext p
      by_cases hp : p = v
      · simp [hp]
      · simp [hp]
  unfold dfsVisit
  rw [canMove_eq, ok_bind, hpush]
  simp only [hv, decide_true, if_true, readCell, if_pos (transposed_inBounds hv hx), ok_bind, writeCell,
    if_pos hv.1, pure_eq_ok, transposed]
  rfl

theorem dfsVisit_cases (h : dfsVisit game u s v = .ok s') :
    s' = s ∨ s' = s.push u [v] ∧ s.visited (transposed v) = false := by
  by_cases hv : Free game v
  · by_cases hx : v.x < mapHeight
    · rw [dfsVisit_open hv hx] at h
      split at h
      · cases h
        exact .inl rfl
      · rename_i hm
        split at h
        · cases h
          exact .inr ⟨rfl, Bool.eq_false_iff.mpr hm⟩
        · cases h
    · rw [dfsVisit_fault hv hx] at h
      cases h
  · rw [dfsVisit_closed hv] at h
    cases h
    exact .inl rfl

theorem dfsVisits_push (hn : l.Nodup) (hx : ∀ v ∈ l, Free game v → v.x < mapHeight)
    (hclash : ∀ v ∈ l, ∀ w ∈ l, Free game v → Free game w → w = transposed v → w = v)
    (hroom : s.stack.length + l.length ≤ numCells) :
    l.foldlM (dfsVisit game u) s =
      .ok (s.push u (l.filter fun v => Free game v ∧ s.visited (transposed v) = false)) := by
  induction l generalizing s with
  | nil =>
    rw [List.filter_nil, Dfs.push_nil]
    rfl
  | cons v l ih =>
    obtain ⟨hvl, hn⟩ := List.nodup_cons.mp hn
    rw [List.length_cons] at hroom
    have htail := fun s hroom => ih (s := s) hn (fun w hw => hx w (List.mem_cons_of_mem v hw))
      (fun w hw w' hw' => hclash w (List.mem_cons_of_mem v hw) w' (List.mem_cons_of_mem v hw')) hroom
    rw [List.foldlM_cons, List.filter_cons]
    by_cases hv : Free game v
    · have hvx := hx v List.mem_cons_self hv
      rw [dfsVisit_open hv hvx]
      cases hm : s.visited (transposed v) with
      | true =>
        rw [if_pos rfl, ok_bind, if_neg (by simp), htail s (by omega)]
      | false =>
        rw [if_neg Bool.false_ne_true, if_pos (by omega), ok_bind, if_pos (by simp [hv]), htail]
        · -- pushing `v` changes the test of no other neighbour
          have hsame : l.filter (fun w => Free game w ∧ (s.push u [v]).visited (transposed w) = false) =
              l.filter (fun w => Free game w ∧ s.visited (transposed w) = false) := by
            apply List.filter_congr
            intro w hw
            by_cases hfree : Free game w
            · have hne : transposed w ≠ v := by
                intro he
                have hvw := hclash w (List.mem_cons_of_mem v hw) v List.mem_cons_self hfree hv he.symm
                exact hvl (hvw ▸ hw)
              simp [Dfs.push, hne]
            · simp [hfree]
          rw [hsame, Dfs.push_append]
          rfl
        · simp only [Dfs.push, List.reverse_singleton, List.singleton_append, List.length_cons]
          omega
    · rw [dfsVisit_closed hv, ok_bind, if_neg (by simp [hv]), htail s (by omega)]

theorem dfsVisits_fault (h : ∃ v ∈ l, Free game v ∧ ¬ v.x < mapHeight) :
    ∃ e, l.foldlM (dfsVisit game u) s = .error e := by
  obtain ⟨v, hv, hfree, hx⟩ := h
  induction l generalizing s with
  | nil => cases hv
  | cons w l ih =>
    rw [List.foldlM_cons]
    rcases List.mem_cons.mp hv with rfl | hv
    · rw [dfsVisit_fault hfree hx]
      exact ⟨_, rfl⟩
    · cases hw : dfsVisit game u s w with
      | error e => exact ⟨e, rfl⟩
      | ok s' =>
        rw [ok_bind]
        exact ih hv

theorem dfsVisits_suffix (h : l.foldlM (dfsVisit game u) s = .ok s') : s.pushed <:+ s'.pushed := by
  apply foldlM_preserves (fun t => s.pushed <:+ t.pushed) _ l List.suffix_rfl h
  intro v t t' ht hvisit
  rcases dfsVisit_cases hvisit with rfl | ⟨rfl, _⟩
  · exact ht
  · exact ht.trans (List.suffix_append _ _)

/-- A marked cell whose transposed place is not marked is pushed once more. -/
theorem dfsVisits_again (hv : v ∈ l) (hfree : Free game v) (hmark : s.visited v = true)
    (htrans : s.visited (transposed v) = false) (hold : v ∈ s.pushed)
    (h : l.foldlM (dfsVisit game u) s = .ok s') : ¬ s'.pushed.Nodup := by
  induction l generalizing s with
  | nil => cases hv
  | cons w l ih =>
    rw [List.foldlM_cons] at h
    obtain ⟨s₁, hw, hrest⟩ := bind_eq_ok.mp h
    rcases List.mem_cons.mp hv with rfl | hv
    · have hx : v.x < mapHeight := by
        by_contra hx
        rw [dfsVisit_fault hfree hx] at hw
        cases hw
      rw [dfsVisit_open hfree hx, htrans, if_neg Bool.false_ne_true] at hw
      split at hw
      · cases hw
        intro hnodup
        have hpushed := (dfsVisits_suffix hrest).sublist.nodup hnodup
        exact (List.nodup_cons.mp hpushed).1 hold
      · cases hw
    · rcases dfsVisit_cases hw with rfl | ⟨rfl, hmw⟩
      · exact ih hv hmark htrans hold hrest
      · -- the mark of `v` keeps its transposed place from being pushed
        have hne : transposed v ≠ w := by
          rintro rfl
          have hself : transposed (transposed v) = v := rfl
          rw [hself, hmark] at hmw
          cases hmw
        refine ih hv ?_ ?_ (List.mem_append_right _ hold) hrest
        · simp [Dfs.push, hmark]
        · simp [Dfs.push, htrans, hne]

end Visits

/-- What is expected of the result of `dfs`. -/
def MeetsDfs (game : GameState) (start target : Point) (r : Direction × List Point) : Prop :=
  r.2.Nodup ∧ (r.1 = .none ↔ ¬ Reaches (openMoves game) start target) ∧
    (Reaches (openMoves game) start target →
      ∃ p ∈ openMoves game start, Reaches (openMoves game) p target ∧ r.1 = determineDirection start p)

/-- From the state `s` on the loop comes to an end that is as expected. -/
def Ends (game : GameState) (start target : Point) (s : Dfs) : Prop :=
  ∃ fuel r, dfsLoop game start target fuel s = .ok r ∧ MeetsDfs game start target r

/-- `dfs` ends inside its arrays, pushes no cell twice and returns what it should. -/
def DfsCorrect (game : GameState) (start target : Point) : Prop :=
  ∃ fuel r, dfs game start target fuel = .ok r ∧ MeetsDfs game start target r

section Runs
variable {game : GameState} {start target : Point} {s s' : Dfs} {c : Point} {rest : List Point}

theorem dfsLoop_suffix {fuel : Nat} {r : Direction × List Point}
    (h : dfsLoop game start target fuel s = .ok r) : s.pushed <:+ r.2 := by
  induction fuel generalizing s with
  | zero => cases h
  | succ fuel ih =>
    rw [dfsLoop] at h
    split at h
    · cases h
      exact List.suffix_rfl
    · split at h
      · obtain ⟨pos, _, h⟩ := bind_eq_ok.mp h
        cases h
        exact List.suffix_rfl
      · obtain ⟨s', hvisits, h⟩ := bind_eq_ok.mp h
        have hfirst := dfsVisits_suffix hvisits
        exact hfirst.trans (ih h)

theorem not_ends_of_dup (h : ¬ s.pushed.Nodup) : ¬ Ends game start target s := by
  rintro ⟨fuel, r, hr, hnodup, _⟩
  exact h ((dfsLoop_suffix hr).sublist.nodup hnodup)

theorem ends_nil (h : s.stack = []) :
    Ends game start target s ↔ s.pushed.Nodup ∧ ¬ Reaches (openMoves game) start target := by
  have hloop : ∀ fuel, dfsLoop game start target (fuel + 1) s = .ok (.none, s.pushed) := by
    intro fuel
    rw [dfsLoop, h]
  constructor
  · rintro ⟨fuel, r, hr, hnodup, hnone, _⟩
    cases fuel with
    | zero => cases hr
    | succ fuel =>
      rw [hloop] at hr
      cases hr
      exact ⟨hnodup, hnone.mp rfl⟩
  · rintro ⟨hnodup, hnot⟩
    exact ⟨1, _, hloop 0, hnodup, ⟨fun _ => hnot, fun _ => rfl⟩, fun hr => absurd hr hnot⟩

theorem dfsLoop_step (hs : s.stack = c :: rest) (hc : c ≠ target) (fuel : Nat) :
    dfsLoop game start target (fuel + 1) s =
      (moves c).foldlM (dfsVisit game c) { s with stack := rest } >>= dfsLoop game start target fuel := by
  rw [dfsLoop, hs]
  dsimp only
  rw [if_neg (fun he => hc ((equalPoints_iff _ _).mp he))]

theorem ends_step (hs : s.stack = c :: rest) (hc : c ≠ target)
    (hvisits : (moves c).foldlM (dfsVisit game c) { s with stack := rest } = .ok s') :
    Ends game start target s ↔ Ends game start target s' := by
  constructor
  · rintro ⟨fuel, r, hr, hmeets⟩
    cases fuel with
    | zero => cases hr
    | succ fuel =>
      rw [dfsLoop_step hs hc, hvisits, ok_bind] at hr
      exact ⟨fuel, r, hr, hmeets⟩
  · rintro ⟨fuel, r, hr, hmeets⟩
    refine ⟨fuel + 1, r, ?_, hmeets⟩
    rw [dfsLoop_step hs hc, hvisits, ok_bind]
    exact hr

theorem not_ends_of_error (hs : s.stack = c :: rest) (hc : c ≠ target)
    (hvisits : ∃ e, (moves c).foldlM (dfsVisit game c) { s with stack := rest } = .error e) :
    ¬ Ends game start target s := by
  obtain ⟨e, he⟩ := hvisits
  rintro ⟨fuel, r, hr, _⟩
  cases fuel with
  | zero => cases hr
  | succ fuel =>
    rw [dfsLoop_step hs hc, he, error_bind] at hr
    cases hr

/-- Expanding a cell next to one that would be pushed again spoils the run. -/
theorem not_ends_of_again {v : Point} (hs : s.stack = c :: rest) (hc : c ≠ target) (hv : v ∈ moves c)
    (hfree : Free game v) (hmark : s.visited v = true) (htrans : s.visited (transposed v) = false)
    (hold : v ∈ s.pushed) : ¬ Ends game start target s := by
  cases hvisits : (moves c).foldlM (dfsVisit game c) { s with stack := rest } with
  | error e => exact not_ends_of_error hs hc ⟨e, hvisits⟩
  | ok s' =>
    rw [ends_step hs hc hvisits]
    exact not_ends_of_dup (dfsVisits_again (s := { s with stack := rest }) hv hfree hmark htrans hold hvisits)

theorem not_ends_of_child (hs : s.stack = target :: rest) (ht : target ∈ openMoves game start)
    (hprev : s.previous target = some start) : ¬ Ends game start target s := by
  have hin := (mem_openMoves.mp ht).2.1
  have hdir : determineDirection target target = .none := by
    unfold determineDirection
    simp
  rintro ⟨fuel, r, hr, _, hnone, _⟩
  cases fuel with
  | zero => cases hr
  | succ fuel =>
    rw [dfsLoop, hs] at hr
    dsimp only at hr
    rw [if_pos ((equalPoints_iff _ _).mpr rfl), backtrack, readPrevious_of hin hprev] at hr
    simp only [ok_bind, ne_eq, not_true_eq_false, or_self, if_false, pure_eq_ok, hdir] at hr
    cases hr
    exact hnone.mp rfl ⟨1, .snoc .nil ht⟩

theorem ends_of_found (hs : s.stack = target :: rest) (ht : InBounds target) (hc : InBounds c)
    (htprev : s.previous target = some c) (hcprev : s.previous c = some start) (hne : c ≠ start) :
    Ends game start target s ↔ MeetsDfs game start target (determineDirection c target, s.pushed) := by
  have hdiff := ne_iff_coordinates.mp hne
  have hloop : ∀ fuel, dfsLoop game start target (fuel + 2) s =
      .ok (determineDirection c target, s.pushed) := by
    intro fuel
    rw [dfsLoop, hs]
    dsimp only
    rw [if_pos ((equalPoints_iff _ _).mpr rfl), backtrack, readPrevious_of ht htprev, ok_bind,
      if_pos hdiff, backtrack, readPrevious_of hc hcprev]
    simp only [ok_bind, ne_eq, not_true_eq_false, or_self, if_false, pure_eq_ok]
  constructor
  · rintro ⟨fuel, r, hr, hmeets⟩
    rcases fuel with _ | _ | fuel
    · cases hr
    · rw [dfsLoop, hs] at hr
      dsimp only at hr
      rw [if_pos ((equalPoints_iff _ _).mpr rfl), backtrack, readPrevious_of ht htprev, ok_bind,
        if_pos hdiff] at hr
      cases hr
    · rw [hloop] at hr
      cases hr
      exact hmeets
  · intro hmeets
    exact ⟨2, _, hloop 0, hmeets⟩

end Runs

/-- The neighbours that are pushed from a start on the diagonal: of two that lie
opposite each other across it only the one in the row of the start. -/
def firstMoves (game : GameState) (start : Point) : List Point :=
  (openMoves game start).filter fun v => v.x ≠ start.x ∨ ¬ Free game (transposed v)

def others (game : GameState) (start c : Point) : List Point :=
  (openMoves game c).filter (· ≠ start)

/-- The stack `kids` of neighbours of the start leads to an end as expected: the first
of them that has another open neighbour has the target as its last one, in a direction
that is also open at the start; or there is no such neighbour and no way to the target. -/
def Passes (game : GameState) (start target : Point) (kids : List Point) : Prop :=
  ((∀ c ∈ kids, others game start c = []) ∧ ¬ Reaches (openMoves game) start target) ∨
    ∃ l₁ c l₂, kids = l₁ ++ c :: l₂ ∧ (∀ d ∈ l₁, others game start d = []) ∧
      (others game start c).getLast? = some target ∧ (∀ v ∈ others game start c, v.x < mapHeight) ∧
      ∃ p ∈ openMoves game start, determineDirection start p = determineDirection c target

section Passes
variable {game : GameState} {start target c : Point} {kids : List Point}

theorem passes_nil : Passes game start target [] ↔ ¬ Reaches (openMoves game) start target := by
  constructor
  · rintro (⟨_, hnot⟩ | ⟨l₁, c, l₂, hnil, _⟩)
    · exact hnot
    · simp at hnil
  · intro hnot
    exact .inl ⟨fun c hc => absurd hc List.not_mem_nil, hnot⟩

theorem passes_cons_of_nil (hc : others game start c = []) :
    Passes game start target (c :: kids) ↔ Passes game start target kids := by
  constructor
  · rintro (⟨hall, hnot⟩ | ⟨l₁, d, l₂, hsplit, hl₁, hlast, hrest⟩)
    · exact .inl ⟨fun d hd => hall d (List.mem_cons_of_mem c hd), hnot⟩
    · cases l₁ with
      | nil =>
        obtain ⟨rfl, rfl⟩ := List.cons.inj hsplit
        rw [hc] at hlast
        cases hlast
      | cons e l₁ =>
        obtain ⟨rfl, rfl⟩ := List.cons.inj hsplit
        exact .inr ⟨l₁, d, l₂, rfl, fun x hx => hl₁ x (List.mem_cons_of_mem c hx), hlast, hrest⟩
  · rintro (⟨hall, hnot⟩ | ⟨l₁, d, l₂, rfl, hl₁, hrest⟩)
    · refine .inl ⟨?_, hnot⟩
      intro d hd
      rcases List.mem_cons.mp hd with rfl | hd
      · exact hc
      · exact hall d hd
    · refine .inr ⟨c :: l₁, d, l₂, rfl, ?_, hrest⟩
      intro x hx
      rcases List.mem_cons.mp hx with rfl | hx
      · exact hc
      · exact hl₁ x hx

theorem passes_cons_of_ne_nil (hc : others game start c ≠ []) :
    Passes game start target (c :: kids) ↔ (others game start c).getLast? = some target ∧
      (∀ v ∈ others game start c, v.x < mapHeight) ∧
      ∃ p ∈ openMoves game start, determineDirection start p = determineDirection c target := by
  constructor
  · rintro (⟨hall, _⟩ | ⟨l₁, d, l₂, hsplit, hl₁, hrest⟩)
    · exact absurd (hall c List.mem_cons_self) hc
    · cases l₁ with
      | nil =>
        obtain ⟨rfl, rfl⟩ := List.cons.inj hsplit
        exact hrest
      | cons e l₁ =>
        obtain ⟨rfl, rfl⟩ := List.cons.inj hsplit
        exact absurd (hl₁ c List.mem_cons_self) hc
  · intro hrest
    exact .inr ⟨[], c, kids, rfl, fun d hd => absurd hd List.not_mem_nil, hrest⟩

end Passes

/-- The start has been expanded, and `kids` is what is left of the stack. -/
structure AtChildren (game : GameState) (start : Point) (s : Dfs) (kids : List Point) : Prop where
  stack : s.stack = kids
  visited : ∀ p, s.visited p = decide (p = start ∨ p ∈ firstMoves game start)
  previous : ∀ c ∈ firstMoves game start, s.previous c = some start
  pushed : s.pushed = (firstMoves game start).reverse ++ [start]

section Diagonal
variable {game : GameState} {start target c w : Point} {s : Dfs} {kids rest : List Point}

theorem mem_firstMoves : c ∈ firstMoves game start ↔
    c ∈ openMoves game start ∧ (c.x ≠ start.x ∨ ¬ Free game (transposed c)) := by
  rw [firstMoves, List.mem_filter, decide_eq_true_iff]

theorem mem_others : w ∈ others game start c ↔ w ∈ openMoves game c ∧ w ≠ start := by
  rw [others, List.mem_filter, decide_eq_true_iff]

theorem firstMoves_nodup (game : GameState) (start : Point) : (firstMoves game start).Nodup :=
  (openMoves_nodup game start).filter _

def rowMoves (p : Point) : List Point := [⟨uint32 (p.x - 1), p.y⟩, ⟨uint32 (p.x + 1), p.y⟩]

def columnMoves (p : Point) : List Point := [⟨p.x, uint32 (p.y - 1)⟩, ⟨p.x, uint32 (p.y + 1)⟩]

theorem moves_eq_append (p : Point) : moves p = rowMoves p ++ columnMoves p := rfl

theorem mem_moves_of_row (h : c ∈ rowMoves start) : c ∈ moves start := List.mem_append_left _ h

theorem mem_moves_of_column (h : c ∈ columnMoves start) : c ∈ moves start :=
  List.mem_append_right (rowMoves start) h

theorem y_of_mem_rowMoves (h : c ∈ rowMoves start) : c.y = start.y := by
  simp only [rowMoves, List.mem_cons, List.not_mem_nil, or_false] at h
  rcases h with rfl | rfl
  · rfl
  · rfl

theorem x_of_mem_columnMoves (h : c ∈ columnMoves start) : c.x = start.x := by
  simp only [columnMoves, List.mem_cons, List.not_mem_nil, or_false] at h
  rcases h with rfl | rfl
  · rfl
  · rfl

theorem transposed_mem_rowMoves (hd : start.x = start.y) (h : c ∈ columnMoves start) :
    transposed c ∈ rowMoves start := by
  have hoff := offDiagonal_of_mem_moves hd (mem_moves_of_column h)
  have hmem := transposed_mem_moves hd (mem_moves_of_column h)
  rw [moves_eq_append] at hmem
  rcases List.mem_append.mp hmem with ht | ht
  · exact ht
  · exact absurd ((x_of_mem_columnMoves h).trans (x_of_mem_columnMoves ht).symm) hoff

theorem firstMoves_eq (game : GameState) (hd : start.x = start.y) : firstMoves game start =
    (rowMoves start).filter (Free game) ++
      (columnMoves start).filter fun v => Free game v ∧ ¬ Free game (transposed v) := by
  rw [firstMoves, openMoves, moves_eq_append, List.filter_append, List.filter_append, List.filter_filter,
    List.filter_filter]
  congr 1
  · apply List.filter_congr
    intro v hv
    have hoff := offDiagonal_of_mem_moves hd (mem_moves_of_row hv)
    have hvx : v.x ≠ start.x := fun he => hoff (he.trans (hd.trans (y_of_mem_rowMoves hv).symm))
    simp [hvx]
  · apply List.filter_congr
    intro v hv
    simp [x_of_mem_columnMoves hv, Bool.and_comm]

theorem expand_row (game : GameState) (hd : start.x = start.y)
    (hun : ∀ v ∈ moves start, s.visited (transposed v) = false)
    (hx : ∀ v ∈ moves start, Free game v → v.x < mapHeight) (hroom : s.stack.length + 2 ≤ numCells) :
    (rowMoves start).foldlM (dfsVisit game start) s =
      .ok (s.push start ((rowMoves start).filter (Free game))) := by
  have hnodup := (List.nodup_append.mp (moves_eq_append start ▸ moves_nodup start)).1
  rw [dfsVisits_push hnodup (fun v hv => hx v (mem_moves_of_row hv))]
  · congr 2
    apply List.filter_congr
    intro v hv
    simp [hun v (mem_moves_of_row hv)]
  · intro v hv w hw _ _ he
    have hoff := offDiagonal_of_mem_moves hd (mem_moves_of_row hv)
    have hy : w.y = v.x := congrArg Point.y he
    exact absurd (hy.symm.trans ((y_of_mem_rowMoves hw).trans (y_of_mem_rowMoves hv).symm)) hoff
  · exact hroom

theorem expand_column (game : GameState) (hd : start.x = start.y)
    (hun : ∀ v ∈ moves start, s.visited (transposed v) = false)
    (hx : ∀ v ∈ moves start, Free game v → v.x < mapHeight) (hroom : s.stack.length + 4 ≤ numCells) :
    (columnMoves start).foldlM (dfsVisit game start)
        (s.push start ((rowMoves start).filter (Free game))) =
      .ok (s.push start (firstMoves game start)) := by
  have hnodup := (List.nodup_append.mp (moves_eq_append start ▸ moves_nodup start)).2.1
  rw [dfsVisits_push hnodup (fun v hv => hx v (mem_moves_of_column hv)), firstMoves_eq game hd,
    ← Dfs.push_append]
  · congr 2
    apply List.filter_congr
    intro v hv
    simp [Dfs.push, hun v (mem_moves_of_column hv), transposed_mem_rowMoves hd hv]
  · intro v hv w hw _ _ he
    have hoff := offDiagonal_of_mem_moves hd (mem_moves_of_column hv)
    have hwx : w.x = v.y := congrArg Point.x he
    exact absurd ((x_of_mem_columnMoves hv).trans ((x_of_mem_columnMoves hw).symm.trans hwx)) hoff
  · have hfl : ((rowMoves start).filter (Free game)).length ≤ 2 := List.length_filter_le _ (rowMoves start)
    have hcol : (columnMoves start).length = 2 := rfl
    simp only [Dfs.push, List.length_append, List.length_reverse]
    omega

theorem expand_start (game : GameState) (hd : start.x = start.y)
    (hun : ∀ v ∈ moves start, s.visited (transposed v) = false)
    (hx : ∀ v ∈ openMoves game start, v.x < mapHeight) (hroom : s.stack.length + 4 ≤ numCells) :
    (moves start).foldlM (dfsVisit game start) s = .ok (s.push start (firstMoves game start)) := by
  have hfree : ∀ v ∈ moves start, Free game v → v.x < mapHeight :=
    fun v hv hf => hx v (mem_openMoves.mpr ⟨hv, hf⟩)
  rw [moves_eq_append, List.foldlM_append, expand_row game hd hun hfree (by omega), ok_bind]
  exact expand_column game hd hun hfree hroom

theorem AtChildren.unmarked (h : AtChildren game start s kids) (hd : start.x = start.y)
    (hc : c ∈ firstMoves game start) (hw : w ∈ moves c) (hne : w ≠ start) :
    s.visited (transposed w) = false := by
  have hcm := (mem_openMoves.mp (mem_firstMoves.mp hc).1).1
  rw [h.visited, decide_eq_false_iff_not]
  rintro (he | hmem)
  · have hself : transposed (transposed w) = transposed start := by rw [he]
    rw [transposed_eq_self hd] at hself
    exact hne hself
  · have hback := transposed_mem_moves hd (mem_openMoves.mp (mem_firstMoves.mp hmem).1).1
    exact notMem_moves_of_two_steps hcm hw hback

theorem transposed_notMem_firstMoves (hd : start.x = start.y) (hc : c ∈ firstMoves game start) :
    transposed c ∉ firstMoves game start := by
  intro ht
  obtain ⟨hco, hcx⟩ := mem_firstMoves.mp hc
  obtain ⟨hto, htx⟩ := mem_firstMoves.mp ht
  have hcfree := (mem_openMoves.mp hco).2
  have htfree := (mem_openMoves.mp hto).2
  have hself : transposed (transposed c) = c := rfl
  rw [hself] at htx
  have h1 := hcx.resolve_right (not_not.mpr htfree)
  have h2 := htx.resolve_right (not_not.mpr hcfree)
  have hty : c.y ≠ start.x := h2
  rcases same_line_of_mem_moves (mem_openMoves.mp hco).1 with he | he
  · exact h1 he
  · exact hty (he.trans hd.symm)

theorem AtChildren.expand (h : AtChildren game start s (c :: rest)) (hd : start.x = start.y)
    (hstart : InBounds start) (hc : c ∈ firstMoves game start)
    (hx : ∀ v ∈ others game start c, v.x < mapHeight) (hroom : rest.length + 4 ≤ numCells) :
    (moves c).foldlM (dfsVisit game c) { s with stack := rest } =
      .ok (Dfs.push { s with stack := rest } c (others game start c)) := by
  have hcm := (mem_openMoves.mp (mem_firstMoves.mp hc).1).1
  rw [dfsVisits_push (moves_nodup c)]
  · congr 2
    rw [others, openMoves, List.filter_filter]
    apply List.filter_congr
    intro v hv
    by_cases hvs : v = start
    · have hmark : s.visited (transposed start) = true := by
        rw [transposed_eq_self hd, h.visited]
        simp
      simp [hvs, hmark]
    · simp [hvs, h.unmarked hd hc hv hvs]
  · intro v hv hfree
    by_cases hvs : v = start
    · rw [hvs, hd]
      exact hstart.2
    · exact hx v (mem_others.mpr ⟨mem_openMoves.mpr ⟨hv, hfree⟩, hvs⟩)
  · intro v hv w hw _ _ he
    exact eq_of_transposed (offDiagonal_of_mem_moves hd hcm) hv hw he
  · exact hroom

/-- A cell behind a neighbour of the start cannot be expanded: it would push that
neighbour again. -/
theorem AtChildren.not_ends_behind (h : AtChildren game start s (c :: rest)) (hd : start.x = start.y)
    (hc : c ∈ firstMoves game start) {stack : List Point} (hw : w ∈ others game start c) (hwt : w ≠ target)
    (hstack : (others game start c).reverse ++ rest = w :: stack) :
    ¬ Ends game start target (Dfs.push { s with stack := rest } c (others game start c)) := by
  obtain ⟨hco, _⟩ := mem_firstMoves.mp hc
  have hcfree := (mem_openMoves.mp hco).2
  have hcm := (mem_openMoves.mp hco).1
  have hoff := offDiagonal_of_mem_moves hd hcm
  have hwm := (mem_openMoves.mp (mem_others.mp hw).1).1
  have hnotbehind : transposed c ∉ others game start c := by
    intro hmem
    exact transposed_notMem_moves hoff (mem_openMoves.mp (mem_others.mp hmem).1).1
  have hnotstart := transposed_ne_of_mem_moves hcm
  refine not_ends_of_again (v := c) hstack hwt (moves_symm hcfree.1 hwm) hcfree ?_ ?_ ?_
  · simp [Dfs.push, h.visited, hc]
  · simp [Dfs.push, h.visited, hnotbehind, hnotstart, transposed_notMem_firstMoves hd hc]
  · change c ∈ (others game start c).reverse ++ s.pushed
    rw [h.pushed]
    simp [hc]

theorem AtChildren.pushed_nodup (h : AtChildren game start s kids) : s.pushed.Nodup := by
  rw [h.pushed]
  apply (List.nodup_reverse.mpr (firstMoves_nodup game start)).append (List.nodup_singleton start)
  intro p hp hps
  rw [List.mem_singleton.mp hps, List.mem_reverse] at hp
  exact notMem_openMoves game start (mem_firstMoves.mp hp).1

theorem reaches_back (hs : Free game start) {p : Point} (hp : p ∈ openMoves game start)
    (hr : Reaches (openMoves game) start target) : Reaches (openMoves game) p target := by
  obtain ⟨n, hw⟩ := hr
  have hback : start ∈ openMoves game p :=
    mem_openMoves.mpr ⟨moves_symm hs.1 (mem_openMoves.mp hp).1, hs⟩
  exact ⟨n + 1, .cons hback hw⟩

theorem AtChildren.ends_target (h : AtChildren game start s (c :: rest))
    (hs : Free game start) (hc : c ∈ firstMoves game start) {stack : List Point}
    (ht : target ∈ others game start c)
    (hstack : (others game start c).reverse ++ rest = target :: stack) :
    Ends game start target (Dfs.push { s with stack := rest } c (others game start c)) ↔
      ∃ p ∈ openMoves game start, determineDirection start p = determineDirection c target := by
  obtain ⟨hco, _⟩ := mem_firstMoves.mp hc
  obtain ⟨hcm, hcfree⟩ := mem_openMoves.mp hco
  obtain ⟨hto, _⟩ := mem_others.mp ht
  obtain ⟨htm, htfree⟩ := mem_openMoves.mp hto
  have hcs : c ≠ start := fun he => notMem_moves start (he ▸ hcm)
  have hcb : c ∉ others game start c := fun hmem => notMem_openMoves game c (mem_others.mp hmem).1
  have hct : c ≠ target := fun he => hcb (he ▸ ht)
  have hreach : Reaches (openMoves game) start target := ⟨2, .snoc (.snoc .nil hco) hto⟩
  have hnodup : ((others game start c).reverse ++ s.pushed).Nodup := by
    apply (List.nodup_reverse.mpr ((openMoves_nodup game c).filter _)).append h.pushed_nodup
    intro p hp hpk
    rw [List.mem_reverse] at hp
    rw [h.pushed] at hpk
    obtain ⟨hpo, hps⟩ := mem_others.mp hp
    rcases List.mem_append.mp hpk with hpk | hpk
    · exact notMem_moves_of_two_steps hcm (mem_openMoves.mp hpo).1
        (mem_openMoves.mp (mem_firstMoves.mp (List.mem_reverse.mp hpk)).1).1
    · exact hps (List.mem_singleton.mp hpk)
  rw [ends_of_found (c := c) hstack htfree.1 hcfree.1 (if_pos ht)
    ((if_neg hcb).trans (h.previous c hc)) hcs]
  constructor
  · rintro ⟨_, _, hfirst⟩
    obtain ⟨p, hp, _, hdir⟩ := hfirst hreach
    exact ⟨p, hp, hdir.symm⟩
  · rintro ⟨p, hp, hdir⟩
    refine ⟨hnodup, ⟨fun hnone => absurd hnone (determineDirection_ne_none hct), fun hnot => absurd hreach hnot⟩, ?_⟩
    exact fun _ => ⟨p, hp, reaches_back hs hp hreach, hdir.symm⟩

theorem ends_children (hd : start.x = start.y) (hs : Free game start)
    (h : AtChildren game start s kids) (hkids : ∀ c ∈ kids, c ∈ firstMoves game start)
    (hlen : kids.length ≤ 4) : Ends game start target s ↔ Passes game start target kids := by
  induction kids generalizing s with
  | nil =>
    rw [ends_nil h.stack, passes_nil]
    exact and_iff_right h.pushed_nodup
  | cons c rest ih =>
    have hc := hkids c List.mem_cons_self
    have hco := (mem_firstMoves.mp hc).1
    rw [List.length_cons] at hlen
    by_cases hct : c = target
    · subst hct
      refine iff_of_false (not_ends_of_child h.stack hco (h.previous c hc)) ?_
      rintro (⟨_, hnot⟩ | ⟨l₁, d, l₂, hsplit, _, hlast, _⟩)
      · exact hnot ⟨1, .snoc .nil hco⟩
      · have hd' := hkids d (hsplit ▸ List.mem_append_right l₁ List.mem_cons_self)
        have hbehind := mem_others.mp (List.mem_of_getLast? hlast)
        exact notMem_moves_of_two_steps (mem_openMoves.mp (mem_firstMoves.mp hd').1).1
          (mem_openMoves.mp hbehind.1).1 (mem_openMoves.mp hco).1
    · have hroom : rest.length + 4 ≤ numCells := by
        simp only [numCells, mapHeight, mapWidth]
        omega
      by_cases hempty : others game start c = []
      · have hvisits := h.expand hd hs.1 hc (by simp [hempty]) hroom
        rw [hempty, Dfs.push_nil] at hvisits
        rw [ends_step h.stack hct hvisits, passes_cons_of_nil hempty]
        exact ih ⟨rfl, h.visited, h.previous, h.pushed⟩ (fun d hd => hkids d (List.mem_cons_of_mem c hd))
          (by omega)
      · rw [passes_cons_of_ne_nil hempty]
        by_cases hx : ∀ v ∈ others game start c, v.x < mapHeight
        · rw [ends_step h.stack hct (h.expand hd hs.1 hc hx hroom)]
          obtain ⟨w, hw⟩ := Option.isSome_iff_exists.mp (List.getLast?_isSome.mpr hempty)
          obtain ⟨l, hl⟩ := List.getLast?_eq_some_iff.mp hw
          have hstack : (others game start c).reverse ++ rest = w :: (l.reverse ++ rest) := by
            rw [hl, List.reverse_append]
            rfl
          have hwmem := List.mem_of_getLast? hw
          by_cases hwt : w = target
          · subst hwt
            rw [h.ends_target hs hc hwmem hstack, hw]
            exact ⟨fun hp => ⟨rfl, hx, hp⟩, fun hp => hp.2.2⟩
          · refine iff_of_false (h.not_ends_behind hd hc hwmem hwt hstack) ?_
            rintro ⟨hlast, _⟩
            rw [hw] at hlast
            exact hwt (Option.some.inj hlast)
        · refine iff_of_false ?_ fun hp => hx hp.2.1
          push Not at hx
          obtain ⟨v, hv, hvx⟩ := hx
          obtain ⟨hvm, hvfree⟩ := mem_openMoves.mp (mem_others.mp hv).1
          exact not_ends_of_error h.stack hct (dfsVisits_fault ⟨v, hvm, hvfree, Nat.not_lt.mpr hvx⟩)

end Diagonal

section Starts
variable {game : GameState} {start target : Point}

def Dfs.initial (start : Point) : Dfs :=
  ⟨[start], Function.update (fun _ => false) start true, fun _ => none, [start]⟩

theorem Dfs.initial_stack (start : Point) : (Dfs.initial start).stack = [start] := rfl

def Dfs.opened (start : Point) : Dfs := { Dfs.initial start with stack := [] }

theorem Dfs.opened_unmarked {v : Point} (hv : v ∈ moves start) :
    (Dfs.opened start).visited (transposed v) = false := by
  change Function.update (fun _ => false) start true (transposed v) = false
  rw [Function.update_of_ne (transposed_ne_of_mem_moves hv)]

theorem dfsCorrect_iff_ends (hs : InBounds start) :
    DfsCorrect game start target ↔ Ends game start target (.initial start) := by
  have hrun : ∀ fuel, dfs game start target fuel = dfsLoop game start target fuel (.initial start) := by
    intro fuel
    rw [dfs, writeCell, if_pos hs, ok_bind]
    rfl
  unfold DfsCorrect Ends
  simp only [hrun]

theorem not_reaches_of_closed (hclosed : openMoves game start = []) (hne : start ≠ target) :
    ¬ Reaches (openMoves game) start target := by
  rintro ⟨n, hw⟩
  have hstay : ∀ {m : Nat} {p : Point}, Walk (openMoves game) start m p → p = start := by
    intro m p hp
    induction hp with
    | nil => rfl
    | snoc _ hc ih =>
      rw [ih, hclosed] at hc
      cases hc
  exact hne (hstay hw).symm

/-- Off the diagonal the first neighbour that is expanded pushes the start again. -/
theorem not_ends_offDiagonal (hd : start.x ≠ start.y) (hs : Free game start) (hne : start ≠ target)
    (hopen : openMoves game start ≠ []) (hx : ∀ v ∈ openMoves game start, v.x < mapHeight) :
    ¬ Ends game start target (.initial start) := by
  have hvisits : (moves start).foldlM (dfsVisit game start) (Dfs.opened start) =
      .ok (Dfs.push (Dfs.opened start) start (openMoves game start)) := by
    rw [dfsVisits_push (s := .opened start) (moves_nodup start) (fun v hv hf => hx v (mem_openMoves.mpr ⟨hv, hf⟩))
      (fun v hv w hw _ _ he => eq_of_transposed hd hv hw he) (show 0 + 4 ≤ numCells by decide)]
    congr 2
    apply List.filter_congr
    intro v hv
    simp [Dfs.opened_unmarked hv]
  rw [ends_step (Dfs.initial_stack start) hne hvisits]
  obtain ⟨c, hc⟩ := Option.isSome_iff_exists.mp (List.getLast?_isSome.mpr hopen)
  obtain ⟨l, hl⟩ := List.getLast?_eq_some_iff.mp hc
  have hco := List.mem_of_getLast? hc
  have hstack : (openMoves game start).reverse ++ [] = c :: l.reverse := by
    rw [hl, List.reverse_append, List.append_nil]
    rfl
  by_cases hct : c = target
  · subst hct
    exact not_ends_of_child hstack hco (if_pos hco)
  · have htrans : transposed start ∉ openMoves game start :=
      fun hmem => transposed_notMem_moves hd (mem_openMoves.mp hmem).1
    have hself : transposed start ≠ start := fun he => hd (congrArg Point.y he)
    refine not_ends_of_again (v := start) hstack hct (moves_symm hs.1 (mem_openMoves.mp hco).1) hs ?_ ?_ ?_
    · simp [Dfs.push, Dfs.opened, Dfs.initial]
    · simp [Dfs.push, Dfs.opened, Dfs.initial, htrans, hself]
    · simp [Dfs.push, Dfs.opened, Dfs.initial]

theorem ends_of_shutIn (hclosed : openMoves game start = []) (hne : start ≠ target) :
    Ends game start target (.initial start) := by
  have hwalls : ∀ v ∈ moves start, ¬ Free game v := by
    intro v hv hfree
    have hmem := mem_openMoves.mpr ⟨hv, hfree⟩
    rw [hclosed] at hmem
    cases hmem
  have hvisits : (moves start).foldlM (dfsVisit game start) (Dfs.opened start) =
      .ok (Dfs.opened start) := by
    rw [dfsVisits_push (s := .opened start) (moves_nodup start) (fun v hv hf => absurd hf (hwalls v hv))
      (fun v hv w hw hf _ _ => absurd hf (hwalls v hv)) (show 0 + 4 ≤ numCells by decide)]
    have hnone : (moves start).filter (fun v => Free game v ∧
        (Dfs.opened start).visited (transposed v) = false) = [] := by
      apply List.filter_eq_nil_iff.mpr
      intro v hv
      simp [hwalls v hv]
    rw [hnone, Dfs.push_nil]
  rw [ends_step (Dfs.initial_stack start) hne hvisits, ends_nil rfl]
  exact ⟨List.nodup_singleton start, not_reaches_of_closed hclosed hne⟩

theorem AtChildren.initial (game : GameState) (start : Point) :
    AtChildren game start ((Dfs.opened start).push start (firstMoves game start))
      (firstMoves game start).reverse := by
  refine ⟨List.append_nil _, ?_, fun c hc => if_pos hc, rfl⟩
  intro p
  by_cases hp : p = start
  · simp [Dfs.push, Dfs.opened, Dfs.initial, hp]
  · simp [Dfs.push, Dfs.opened, Dfs.initial, hp]

/-- On the diagonal the neighbours that are pushed decide. -/
theorem ends_diagonal (hd : start.x = start.y) (hs : Free game start) (hne : start ≠ target)
    (hx : ∀ v ∈ openMoves game start, v.x < mapHeight) :
    Ends game start target (.initial start) ↔ Passes game start target (firstMoves game start).reverse := by
  have hvisits := expand_start game (s := .opened start) hd (fun _ hv => Dfs.opened_unmarked hv) hx
    (show 0 + 4 ≤ numCells by decide)
  rw [ends_step (Dfs.initial_stack start) hne hvisits]
  apply ends_children hd hs (.initial game start) (fun c hc => List.mem_reverse.mp hc)
  rw [List.length_reverse]
  exact (List.length_filter_le _ _).trans (length_openMoves_le game start)

/-- `dfs` does what it should only where it hardly searches: when the start is shut in,
or when it lies on the diagonal and the stack of its neighbours passes. -/
theorem dfs_correct_iff (game : GameState) (start target : Point) (hs : Free game start)
    (hne : start ≠ target) :
    DfsCorrect game start target ↔ openMoves game start = [] ∨
      (start.x = start.y ∧ (∀ v ∈ openMoves game start, v.x < mapHeight) ∧
        Passes game start target (firstMoves game start).reverse) := by
  rw [dfsCorrect_iff_ends hs.1]
  by_cases hclosed : openMoves game start = []
  · exact iff_of_true (ends_of_shutIn hclosed hne) (.inl hclosed)
  · rw [or_iff_right hclosed]
    by_cases hx : ∀ v ∈ openMoves game start, v.x < mapHeight
    · by_cases hd : start.x = start.y
      · rw [ends_diagonal hd hs hne hx]
        exact ⟨fun h => ⟨hd, hx, h⟩, fun h => h.2.2⟩
      · exact iff_of_false (not_ends_offDiagonal hd hs hne hclosed hx) fun h => hd h.1
    · refine iff_of_false ?_ fun h => hx h.2.1
      push Not at hx
      obtain ⟨v, hv, hvx⟩ := hx
      obtain ⟨hvm, hvfree⟩ := mem_openMoves.mp hv
      exact not_ends_of_error (Dfs.initial_stack start) hne
        (dfsVisits_fault ⟨v, hvm, hvfree, Nat.not_lt.mpr hvx⟩)

end Starts

/-- A corridor of three cells that starts on the diagonal. -/
theorem dfs_correct_iff_corridor : DfsCorrect (maze [⟨1, 1⟩, ⟨2, 1⟩, ⟨3, 1⟩]) ⟨1, 1⟩ ⟨3, 1⟩ := by
  have hfirst : firstMoves (maze [⟨1, 1⟩, ⟨2, 1⟩, ⟨3, 1⟩]) ⟨1, 1⟩ = [⟨2, 1⟩] := by decide
  have hopen : openMoves (maze [⟨1, 1⟩, ⟨2, 1⟩, ⟨3, 1⟩]) ⟨1, 1⟩ = [⟨2, 1⟩] := by decide
  have hothers : others (maze [⟨1, 1⟩, ⟨2, 1⟩, ⟨3, 1⟩]) ⟨1, 1⟩ ⟨2, 1⟩ = [⟨3, 1⟩] := by decide
  apply (dfs_correct_iff _ ⟨1, 1⟩ ⟨3, 1⟩ (by decide) (by decide)).mpr
  refine .inr ⟨rfl, by rw [hopen]; decide, .inr ⟨[], ⟨2, 1⟩, [], ?_, ?_, ?_, ?_, ⟨2, 1⟩, ?_, rfl⟩⟩
  · rw [hfirst]
    rfl
  · exact fun d hd => absurd hd List.not_mem_nil
  · rw [hothers]
    rfl
  · rw [hothers]
    decide
  · rw [hopen]
    exact List.mem_singleton_self _

/-- The ghost with this search reads row 37 of `visited`, which has 24 rows. -/
theorem dfs_leaves_visited : Free (initialState 0 3 0) ⟨38, 13⟩ ∧ Free (initialState 0 3 0) ⟨36, 1⟩ ∧
    dfs (initialState 0 3 0) ⟨38, 13⟩ ⟨36, 1⟩ 1 = .error .outOfBounds ∧
    ¬ DfsCorrect (initialState 0 3 0) ⟨38, 13⟩ ⟨36, 1⟩ := by
  have hstart : InBounds ⟨38, 13⟩ := by decide
  have hleft : Free (initialState 0 3 0) ⟨37, 13⟩ := by decide +kernel
  refine ⟨by decide +kernel, by decide +kernel, by decide +kernel, ?_⟩
  rw [dfsCorrect_iff_ends hstart]
  apply not_ends_of_error (Dfs.initial_stack ⟨38, 13⟩) (by decide)
  exact dfsVisits_fault ⟨⟨37, 13⟩, by decide, hleft, by decide⟩

end Zeos.Game
