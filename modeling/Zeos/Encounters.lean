import Zeos.Ghosts

/-!
# Ghosts in each other's way, ghosts in Pacman's way

A ghost must leave its cell in every frame and never enters the cell of another
ghost. When the ghosts before it can take all cells around it, its retry loop has
no way out. Pacman meets a ghost only on the cell he tries to enter, so that he
walks away from the ghost that has stepped on him.
-/

namespace Zeos.Game

open Loops Relation
set_option autoImplicit false

def neighbours (p : Point) : List Point :=
  [getNextPoint p .up, getNextPoint p .down, getNextPoint p .left, getNextPoint p .right]

/-- Some neighbour of ghost `i` is neither wall nor ghost. -/
def HasExit (g : GameState) (i : Fin numGhosts) : Prop :=
  ∃ n ∈ neighbours (g.ghosts i).position, g.map n ≠ '#' ∧ ∀ j, (g.ghosts j).position ≠ n

instance (g : GameState) (i : Fin numGhosts) : Decidable (HasExit g i) :=
  inferInstanceAs (Decidable (∃ n ∈ _, _))

def exits (g : GameState) (i : Fin numGhosts) : List Point :=
  (neighbours (g.ghosts i).position).filter fun n => g.map n ≠ '#'

/-- Ghost `j` can be on the cell `c` when ghost `i` is to move. A living ghost with
a smaller index moves before: it comes from next to the cell, and whoever moves
after it, or never, is not on the cell. Any other ghost is there already. -/
def CanCover (g : GameState) (i j : Fin numGhosts) (c : Point) : Prop :=
  ((j < i ∧ (g.ghosts j).isAlive = true) ∧ c ∈ neighbours (g.ghosts j).position ∧
    ∀ k, j < k ∨ (g.ghosts k).isAlive = false → (g.ghosts k).position ≠ c) ∨
  (¬ (j < i ∧ (g.ghosts j).isAlive = true) ∧ (g.ghosts j).position = c)

instance (g : GameState) (i j : Fin numGhosts) (c : Point) : Decidable (CanCover g i j c) :=
  inferInstanceAs (Decidable (_ ∨ _))

/-- There are enough ghosts around ghost `i` to cover all its exits. -/
def Enclosable (g : GameState) (i : Fin numGhosts) : Prop :=
  (g.ghosts i).isAlive = true ∧ (g.ghosts i).behaviour ≠ .still ∧
  ∃ f : Point → Fin numGhosts, ∀ c ∈ exits g i, CanCover g i (f c) c ∧
    ∀ c' ∈ exits g i, f c = f c' → c = c'

section Exits
variable {level : Nat} {g : GameState} {i : Fin numGhosts} {n : Point}

theorem Interior.ne_of_mem_neighbours {p : Point} (h : Interior p) (hn : n ∈ neighbours p) :
    n ≠ p := by
  simp only [neighbours, getNextPoint_eq, mirrored, List.mem_cons, List.not_mem_nil, or_false] at hn
  rcases hn with rfl | rfl | rfl | rfl
  · exact h.next_ne (by decide)
  · exact h.next_ne (by decide)
  · exact h.next_ne (by decide)
  · exact h.next_ne (by decide)

theorem mem_neighbours_of_ne {p : Point} {d : Direction} (hne : getNextPoint p d ≠ p) :
    getNextPoint p d ∈ neighbours p := by
  cases d with
  | none => exact absurd rfl hne
  | up | down | left | right => simp [neighbours]

theorem exists_draw {p : Point} (hn : n ∈ neighbours p) : ∃ d, n = getNextPoint p (random d) := by
  simp only [neighbours, List.mem_cons, List.not_mem_nil, or_false] at hn
  rcases hn with rfl | rfl | rfl | rfl
  · exact ⟨0, rfl⟩
  · exact ⟨1, rfl⟩
  · exact ⟨2, rfl⟩
  · exact ⟨3, rfl⟩

theorem CanStep.mem_neighbours (h : CanStep g i n) : n ∈ neighbours (g.ghosts i).position := by
  obtain ⟨d, rfl⟩ := h.near
  exact mem_neighbours_of_ne (h.free i).symm

theorem CanStep.of_exit (hin : Interior (g.ghosts i).position)
    (hn : n ∈ neighbours (g.ghosts i).position) (hw : g.map n ≠ '#')
    (hfree : ∀ j, (g.ghosts j).position ≠ n) : CanStep g i n := by
  obtain ⟨d, rfl⟩ := exists_draw hn
  refine ⟨⟨random d, rfl⟩, ?_, hw, hfree⟩
  rw [getNextPoint_eq]
  exact hin.next_inBounds _

theorem hasExit_iff (hin : Interior (g.ghosts i).position) : HasExit g i ↔ ∃ n, CanStep g i n := by
  constructor
  · rintro ⟨n, hn, hw, hfree⟩
    exact ⟨n, .of_exit hin hn hw hfree⟩
  · rintro ⟨n, hn⟩
    exact ⟨n, hn.mem_neighbours, hn.notWall, hn.free⟩

theorem moveGhost_stuck (hin : Interior (g.ghosts i).position) (h : ¬ HasExit g i)
    (draws : List Nat) : moveGhost g i draws = .error .needsDraw := by
  rcases moveGhost_cases hin draws with he | ⟨n, _, _, hn⟩
  · exact he
  · exact absurd ((hasExit_iff hin).mpr ⟨n, hn⟩) h

theorem retry_free (hn : CanStep g i n) (draws : List Nat) :
    retry g (g.ghosts i).position n draws = .ok (n, draws) := by
  have hfree : (g.map n == '#' || isGhost g n) = false := by
    simp [hn.notWall, isGhost_false.mpr hn.free]
  cases draws with
  | nil => simp [retry, isTaken_of hn.inBounds, hfree]
  | cons d draws => simp [retry, isTaken_of hn.inBounds, hfree]

theorem exists_move (hin : Interior (g.ghosts i).position) (hn : CanStep g i n) :
    ∃ d, ∀ draws, moveGhost g i (d :: draws) = .ok (ghostMoved g i n, draws) := by
  obtain ⟨d, hd⟩ := exists_draw hn.mem_neighbours
  refine ⟨d, fun draws => ?_⟩
  have hpos : InBounds (g.ghosts i).position := by
    obtain ⟨_, h2, _, h4⟩ := hin
    simp only [InBounds, mapWidth, mapHeight] at *
    omega
  have hvalid : isValidMove g n = .ok true := by
    simp [isValidMove, hn.inBounds, isWall_of hn.inBounds, hn.notWall]
  simp only [moveGhost, ← hd, retry_free hn, ok_bind, hvalid, if_true,
    stepGhost_eq hpos hn.inBounds (hn.free i), pure_eq_ok]

end Exits

structure Later (l : List (Fin numGhosts)) : Prop where
  sorted : l.Pairwise (· < ·)
  upward : ∀ j k, k ∈ l → k < j → j ∈ l

theorem later_finRange : Later (List.finRange numGhosts) where
  sorted := List.pairwise_lt_finRange numGhosts
  upward j _ _ _ := List.mem_finRange j

theorem Later.mem_iff {i : Fin numGhosts} {l : List (Fin numGhosts)} (h : Later (i :: l))
    (j : Fin numGhosts) : j ∈ i :: l ↔ i ≤ j := by
  constructor
  · intro hj
    rcases List.mem_cons.mp hj with rfl | hj
    · exact le_rfl
    · exact ((List.pairwise_cons.mp h.sorted).1 j hj).le
  · intro hle
    rcases hle.eq_or_lt with rfl | hlt
    · exact List.mem_cons_self
    · exact h.upward j i List.mem_cons_self hlt

theorem Later.tail_iff {i : Fin numGhosts} {l : List (Fin numGhosts)} (h : Later (i :: l))
    (j : Fin numGhosts) : j ∈ l ↔ i < j := by
  constructor
  · exact (List.pairwise_cons.mp h.sorted).1 j
  · intro hlt
    exact (List.mem_cons.mp ((h.mem_iff j).mpr hlt.le)).resolve_left hlt.ne'

theorem Later.tail {i : Fin numGhosts} {l : List (Fin numGhosts)} (h : Later (i :: l)) : Later l where
  sorted := (List.pairwise_cons.mp h.sorted).2
  upward j k hk hlt := (h.tail_iff j).mpr (((h.tail_iff k).mp hk).trans hlt)

/-- The ghosts of the list `l` have still to move since `g₁`. -/
structure Advanced (g₁ : GameState) (l : List (Fin numGhosts)) (g : GameState) : Prop where
  later : Later l
  isAlive : ∀ j, (g.ghosts j).isAlive = (g₁.ghosts j).isAlive
  waiting : ∀ j, j ∈ l ∨ (g₁.ghosts j).isAlive = false →
    (g.ghosts j).position = (g₁.ghosts j).position
  moved : ∀ j, j ∉ l → (g₁.ghosts j).isAlive = true →
    (g.ghosts j).position ∈ neighbours (g₁.ghosts j).position ∧
    ∀ k, j < k ∨ (g₁.ghosts k).isAlive = false → (g₁.ghosts k).position ≠ (g.ghosts j).position

section Advance
variable {g₁ g : GameState} {i : Fin numGhosts} {l : List (Fin numGhosts)} {n : Point}

theorem Advanced.start (g₁ : GameState) : Advanced g₁ (List.finRange numGhosts) g₁ where
  later := later_finRange
  isAlive _ := rfl
  waiting _ _ := rfl
  moved j hj := absurd (List.mem_finRange j) hj

theorem Advanced.skip (h : Advanced g₁ (i :: l) g) (hdead : (g.ghosts i).isAlive = false) :
    Advanced g₁ l g where
  later := h.later.tail
  isAlive := h.isAlive
  waiting j hj := h.waiting j (hj.imp_left (List.mem_cons_of_mem i))
  moved j hj halive := by
    apply h.moved j ?_ halive
    intro hmem
    rcases List.mem_cons.mp hmem with rfl | hmem
    · cases (halive.symm.trans (h.isAlive j).symm).trans hdead
    · exact hj hmem

theorem Advanced.ghostMoved (h : Advanced g₁ (i :: l) g) (halive : (g.ghosts i).isAlive = true)
    (hn : CanStep g i n) : Advanced g₁ l (ghostMoved g i n) := by
  have hpos : (g.ghosts i).position = (g₁.ghosts i).position := h.waiting i (.inl List.mem_cons_self)
  have hnot : i ∉ l := fun hmem => ((h.later.tail_iff i).mp hmem).ne rfl
  refine ⟨h.later.tail, fun j => ?_, fun j hj => ?_, fun j hj hlive => ?_⟩
  · rw [ghostMoved_ghosts]
    split
    · rename_i he
      rw [he]
      exact h.isAlive i
    · exact h.isAlive j
  · have hne : j ≠ i := by
      rintro rfl
      rcases hj with hmem | hdead
      · exact hnot hmem
      · cases (halive.symm.trans (h.isAlive j)).trans hdead
    rw [ghostMoved_ghosts, if_neg hne]
    exact h.waiting j (hj.imp_left (List.mem_cons_of_mem i))
  · rw [ghostMoved_ghosts]
    split
    · rename_i he
      subst he
      refine ⟨hpos ▸ hn.mem_neighbours, fun k hk => ?_⟩
      rw [← h.waiting k (hk.imp_left fun hlt => (h.later.mem_iff k).mpr hlt.le)]
      exact hn.free k
    · rename_i hne
      exact h.moved j (fun hmem => hj ((List.mem_cons.mp hmem).resolve_left hne)) hlive

/-- A ghost on a cell next to the one whose turn it is has stood there or has come. -/
theorem Advanced.canCover (h : Advanced g₁ (i :: l) g) (j : Fin numGhosts) :
    CanCover g₁ i j (g.ghosts j).position := by
  by_cases hj : j < i ∧ (g₁.ghosts j).isAlive = true
  · refine .inl ⟨hj, h.moved j ?_ hj.2⟩
    intro hmem
    exact absurd ((h.later.mem_iff j).mp hmem) hj.1.not_ge
  · refine .inr ⟨hj, (h.waiting j ?_).symm⟩
    rw [h.later.mem_iff]
    rcases not_and_or.mp hj with hge | hdead
    · exact .inl (not_lt.mp hge)
    · exact .inr (Bool.eq_false_iff.mpr hdead)

theorem mem_exits_iff {level : Nat} (hl : level < numLevels) (hb₁ : Board level g₁)
    (hb : Board level g) (hpos : (g.ghosts i).position = (g₁.ghosts i).position) :
    n ∈ exits g₁ i ↔ n ∈ neighbours (g.ghosts i).position ∧ g.map n ≠ '#' := by
  rw [exits, List.mem_filter, hpos, decide_eq_true_eq]
  refine and_congr_right fun hn => not_congr ?_
  have hin : InBounds n := by
    obtain ⟨d, rfl⟩ := exists_draw hn
    rw [getNextPoint_eq]
    exact (hb₁.interior hl i).next_inBounds _
  exact (hb₁.walls n hin).trans (hb.walls n hin).symm

/-- Whoever blocks the exits of a ghost at its turn shows that it was enclosable. -/
theorem hasExit_of_turn {level : Nat} (hl : level < numLevels) (hb₁ : Board level g₁)
    (hno : ¬ Enclosable g₁ i) {draws : List Nat} {now : GameState}
    (ht : Turn i now (List.finRange numGhosts) g₁ draws) : HasExit now i := by
  obtain ⟨halive, hmoves, l, hb, hadv, hsame⟩ := Turn.rule
    (fun l g => Board level g ∧ Advanced g₁ l g ∧
      ∀ j, (g.ghosts j).behaviour = (g₁.ghosts j).behaviour)
    (fun _ _ hg => hg.1.interior hl)
    (fun i _ g n hg halive _ hn => ⟨hg.1.ghostMoved hn, hg.2.1.ghostMoved halive hn, fun j => by
      rw [ghostMoved_ghosts, ← hg.2.2 j]
      split
      · rename_i he
        rw [he]
      · rfl⟩)
    (fun _ _ _ hg hdead => ⟨hg.1, hg.2.1.skip hdead, hg.2.2⟩)
    ⟨hb₁, .start g₁, fun _ => rfl⟩ ht
  by_contra hstuck
  have hpos := hadv.waiting i (.inl List.mem_cons_self)
  have hblocked : ∀ c, ∃ j, c ∈ exits g₁ i → (now.ghosts j).position = c := by
    intro c
    by_cases hc : c ∈ exits g₁ i
    · obtain ⟨hn, hw⟩ := (mem_exits_iff hl hb₁ hb hpos).mp hc
      by_contra hfree
      exact hstuck ⟨c, hn, hw, fun j hj => hfree ⟨j, fun _ => hj⟩⟩
    · exact ⟨i, fun h => absurd h hc⟩
  choose f hf using hblocked
  refine hno ⟨(hadv.isAlive i).symm.trans halive, hsame i ▸ hmoves, f, fun c hc => ⟨?_, ?_⟩⟩
  · have hcover := hadv.canCover (f c)
    rw [hf c hc] at hcover
    exact hcover
  · intro c' hc' he
    rw [← hf c hc, ← hf c' hc', he]

/-- Every exit of ghost `i` is taken for the rest of its wait, or assigned to a
ghost that has still to move before it. -/
def Covered (g₁ : GameState) (i : Fin numGhosts) (f : Point → Fin numGhosts)
    (l : List (Fin numGhosts)) (g : GameState) : Prop :=
  ∀ c ∈ exits g₁ i,
    (∃ k, (g.ghosts k).position = c ∧ (k ∈ l → ¬ (k < i ∧ (g₁.ghosts k).isAlive = true))) ∨
    (f c ∈ l ∧ f c < i ∧ (g₁.ghosts (f c)).isAlive = true)

theorem Covered.start {f : Point → Fin numGhosts} (hf : ∀ c ∈ exits g₁ i, CanCover g₁ i (f c) c) :
    Covered g₁ i f (List.finRange numGhosts) g₁ := by
  intro c hc
  rcases hf c hc with ⟨hj, _⟩ | ⟨hj, hpos⟩
  · exact .inr ⟨List.mem_finRange _, hj⟩
  · exact .inl ⟨f c, hpos, fun _ => hj⟩

theorem Covered.skip {f : Point → Fin numGhosts} {j : Fin numGhosts}
    (h : Covered g₁ i f (j :: l) g) (hdead : (g₁.ghosts j).isAlive = false) : Covered g₁ i f l g := by
  intro c hc
  rcases h c hc with ⟨k, hpos, hk⟩ | ⟨hmem, hlt, halive⟩
  · exact .inl ⟨k, hpos, fun hl => hk (List.mem_cons_of_mem j hl)⟩
  · refine .inr ⟨(List.mem_cons.mp hmem).resolve_left ?_, hlt, halive⟩
    intro he
    rw [he] at halive
    cases halive.symm.trans hdead

/-- A ghost that goes to the exit assigned to it, if that is free, covers it; if it
is not free, somebody is there to stay. -/
theorem Covered.ghostMoved {f : Point → Fin numGhosts} {j : Fin numGhosts}
    (h : Covered g₁ i f (j :: l) g) (hadv : Advanced g₁ (j :: l) g) (hj : j < i)
    (halive : (g₁.ghosts j).isAlive = true) (hin : Interior (g.ghosts j).position)
    (hf : ∀ c ∈ exits g₁ i, CanCover g₁ i (f c) c)
    (hn : ∀ c ∈ exits g₁ i, f c = j → (∀ k, (g.ghosts k).position ≠ c) → c = n) :
    Covered g₁ i f l (ghostMoved g j n) := by
  have hnot : j ∉ l := fun hmem => ((hadv.later.tail_iff j).mp hmem).ne rfl
  have hstays : ∀ k c, (g.ghosts k).position = c → k ≠ j →
      ((Game.ghostMoved g j n).ghosts k).position = c := by
    intro k c hpos hk
    rw [ghostMoved_ghosts, if_neg hk]
    exact hpos
  intro c hc
  rcases h c hc with ⟨k, hpos, hk⟩ | ⟨hmem, hlt, hlive⟩
  · refine .inl ⟨k, hstays k c hpos ?_, fun hl => hk (List.mem_cons_of_mem j hl)⟩
    rintro rfl
    exact hk List.mem_cons_self ⟨hj, halive⟩
  · by_cases hfc : f c = j
    · by_cases hfree : ∀ k, (g.ghosts k).position ≠ c
      · refine .inl ⟨j, ?_, fun hl => absurd hl hnot⟩
        rw [ghostMoved_ghosts, if_pos rfl, hn c hc hfc hfree]
      · obtain ⟨k, hpos⟩ := not_forall.mp hfree
        have hpos : (g.ghosts k).position = c := not_not.mp hpos
        have hcover : c ∈ neighbours (g.ghosts j).position ∧
            ∀ k, j < k ∨ (g₁.ghosts k).isAlive = false → (g₁.ghosts k).position ≠ c := by
          rw [hadv.waiting j (.inl List.mem_cons_self)]
          rcases hf c hc with ⟨_, hcover⟩ | ⟨hno, _⟩
          · rw [hfc] at hcover
            exact hcover
          · rw [hfc] at hno
            exact absurd ⟨hj, halive⟩ hno
        have hkj : k ≠ j := by
          rintro rfl
          exact hin.ne_of_mem_neighbours hcover.1 hpos.symm
        have hkl : k ∉ l := by
          intro hmem
          apply hcover.2 k (.inl ((hadv.later.tail_iff k).mp hmem))
          rw [← hadv.waiting k (.inl (List.mem_cons_of_mem j hmem))]
          exact hpos
        exact .inl ⟨k, hstays k c hpos hkj, fun hmem => absurd hmem hkl⟩
    · exact .inr ⟨(List.mem_cons.mp hmem).resolve_left hfc, hlt, hlive⟩

/-- At the turn of ghost `i`, nobody can come any more: the covered exits are taken. -/
theorem Covered.stuck {level : Nat} (hl : level < numLevels) (hb₁ : Board level g₁)
    (hb : Board level g) (hadv : Advanced g₁ (i :: l) g) {f : Point → Fin numGhosts}
    (h : Covered g₁ i f (i :: l) g) : ¬ HasExit g i := by
  rintro ⟨n, hn, hw, hfree⟩
  have hpos := hadv.waiting i (.inl List.mem_cons_self)
  rcases h n ((mem_exits_iff hl hb₁ hb hpos).mpr ⟨hn, hw⟩) with ⟨k, hk, _⟩ | ⟨hmem, hlt, _⟩
  · exact hfree k hk
  · exact absurd ((hadv.later.mem_iff _).mp hmem) hlt.not_ge

/-- Some draws bring an enclosable ghost, or one before it, into a trap. -/
theorem exists_trap {level : Nat} (hl : level < numLevels) (hb₁ : Board level g₁)
    (halive : (g₁.ghosts i).isAlive = true) {f : Point → Fin numGhosts}
    (hf : ∀ c ∈ exits g₁ i, CanCover g₁ i (f c) c)
    (hinj : ∀ c ∈ exits g₁ i, ∀ c' ∈ exits g₁ i, f c = f c' → c = c')
    (hi : i ∈ l) (hb : Board level g) (hadv : Advanced g₁ l g)
    (hmoves : ∀ j, (g.ghosts j).behaviour ≠ .still) (hcov : Covered g₁ i f l g) :
    ∃ draws k now, Turn k now l g draws ∧ ¬ HasExit now k := by
  induction l generalizing g with
  | nil => cases hi
  | cons j l ih =>
    by_cases hji : j = i
    · subst hji
      refine ⟨[], j, g, .here l [] ((hadv.isAlive j).trans halive) (hmoves j), ?_⟩
      exact hcov.stuck hl hb₁ hb hadv
    · have hmem : i ∈ l := (List.mem_cons.mp hi).resolve_left (Ne.symm hji)
      have hlt : j < i := (hadv.later.tail_iff i).mp hmem
      cases hj : (g.ghosts j).isAlive with
      | false =>
        obtain ⟨draws, k, now, ht, hstuck⟩ := ih hmem hb (hadv.skip hj) hmoves
          (hcov.skip ((hadv.isAlive j).symm.trans hj))
        exact ⟨draws, k, now, .dead j l g draws hj ht, hstuck⟩
      | true =>
        have hin := hb.interior hl j
        by_cases hexit : HasExit g j
        · -- the exit assigned to `j` if it is free, else any
          have hchoice : ∃ n, CanStep g j n ∧
              ∀ c ∈ exits g₁ i, f c = j → (∀ k, (g.ghosts k).position ≠ c) → c = n := by
            by_cases hown : ∃ c ∈ exits g₁ i, f c = j ∧ ∀ k, (g.ghosts k).position ≠ c
            · obtain ⟨c, hc, hfc, hfree⟩ := hown
              refine ⟨c, ?_, fun c' hc' hfc' _ => hinj c' hc' c hc (hfc'.trans hfc.symm)⟩
              have hnear : c ∈ neighbours (g.ghosts j).position := by
                rw [hadv.waiting j (.inl List.mem_cons_self)]
                rcases hf c hc with ⟨_, hnear, _⟩ | ⟨hno, _⟩
                · rw [hfc] at hnear
                  exact hnear
                · rw [hfc] at hno
                  exact absurd ⟨hlt, (hadv.isAlive j).symm.trans hj⟩ hno
              have hpos := hadv.waiting i (.inl hi)
              exact .of_exit hin hnear ((mem_exits_iff hl hb₁ hb hpos).mp hc).2 hfree
            · obtain ⟨n, hn⟩ := (hasExit_iff hin).mp hexit
              exact ⟨n, hn, fun c hc hfc hfree => absurd ⟨c, hc, hfc, hfree⟩ hown⟩
          obtain ⟨n, hn, hown⟩ := hchoice
          obtain ⟨d, hd⟩ := exists_move hin hn
          have hlive : (g₁.ghosts j).isAlive = true := (hadv.isAlive j).symm.trans hj
          have hmoves' : ∀ k, ((Game.ghostMoved g j n).ghosts k).behaviour ≠ .still := by
            intro k
            rw [ghostMoved_ghosts]
            split
            · exact hmoves j
            · exact hmoves k
          obtain ⟨draws, k, now, ht, hstuck⟩ := ih hmem (hb.ghostMoved hn) (hadv.ghostMoved hj hn)
            hmoves' (hcov.ghostMoved hadv hlt hlive hin hf hown)
          exact ⟨d :: draws, k, now, .moved j l g _ _ draws hj (hmoves j) (hd draws) ht, hstuck⟩
        · exact ⟨[], j, g, .here l [] hj (hmoves j), hexit⟩

end Advance

section Rounds
variable {level lives score : Nat}

/-- In every round and for every key, the draws of the next frame can trap a ghost
exactly if, after Pacman's move, there are enough ghosts around some ghost. -/
theorem exits_iff_not_enclosable (hl : level < numLevels) (frames : List Frame) (g : GameState)
    (h : Played level lives score frames g) (input : Char) :
    ∃ g₁, updatePacmanPosition (processInput g input) = .ok g₁ ∧
      ((∀ draws i now, GhostTurn (processInput g input) draws i now → HasExit now i) ↔
        ∀ i, ¬ Enclosable g₁ i) := by
  have hs := h.settled hl
  have hb := hs.board.congr (processInput_same g input)
  have hb₁ := hb.pacmanMoved hl
  have hstart := updatePacmanPosition_eq hb.pacman.1 (hb.target_inBounds hl)
  refine ⟨_, hstart, ?_, ?_⟩
  · rintro hexits i ⟨halive, hmoves, f, hf⟩
    obtain ⟨m, hm, _⟩ := hs.modes
    have hin : HasMode (processInput g input) m := ⟨hm.boosted, hm.alive, hm.behaviour⟩
    obtain ⟨m₁, hm₁, _⟩ := hin.pacmanMoved
    obtain ⟨draws, k, now, ht, hstuck⟩ := exists_trap hl hb₁ halive (fun c hc => (hf c hc).1)
      (fun c hc => (hf c hc).2) (List.mem_finRange i) hb₁ (.start _)
      (fun j => by rw [hm₁.behaviour j, ← hm₁.behaviour i]; exact hmoves)
      (.start fun c hc => (hf c hc).1)
    exact hstuck (hexits draws k now ⟨_, hstart, ht⟩)
  · rintro hno draws i now ⟨g₁, he, ht⟩
    cases hstart.symm.trans he
    exact hasExit_of_turn hl hb₁ (hno i) ht

theorem not_enclosable {g : GameState} {i : Fin numGhosts}
    (h : ∃ c ∈ exits g i, ∀ j, ¬ CanCover g i j c) : ¬ Enclosable g i := by
  rintro ⟨_, _, f, hf⟩
  obtain ⟨c, hc, hno⟩ := h
  exact hno (f c) (hf c hc).1

theorem exits_iff_not_enclosable_first_frame : ∃ g, Played 0 3 0 [] g ∧
    ∀ draws i now, GhostTurn (processInput g ' ') draws i now → HasExit now i := by
  have hrun : checkRun (fun _ _ => True)
      (fun g => ∀ i, ∃ c ∈ exits (pacmanMoved (processInput g ' ')) i,
        ∀ j, ¬ CanCover (pacmanMoved (processInput g ' ')) i j c) [] (initialState 0 3 0) = true := by
    decide +kernel
  obtain ⟨g, hg, hfree⟩ := Played.of_check (by decide) hrun
  obtain ⟨g₁, he, hiff⟩ := exits_iff_not_enclosable (by decide) [] g hg ' '
  have hb := (hg.board (by decide)).congr (processInput_same g ' ')
  cases he.symm.trans (updatePacmanPosition_eq hb.pacman.1 (hb.target_inBounds (by decide)))
  exact ⟨g, hg, hiff.mpr fun i => not_enclosable (hfree i)⟩

/-- A computed turn: `Q` is tested on the state in which ghost `i` is to move. -/
def checkTurn (i : Fin numGhosts) (Q : GameState → Prop) [DecidablePred Q] :
    List (Fin numGhosts) → GameState → List Nat → Bool
  | [], _, _ => false
  | j :: rest, g, draws =>
    if (g.ghosts j).isAlive = true then
      if (g.ghosts j).behaviour = .still then false
      else if j = i then decide (Q g)
      else
        match moveGhost g j draws with
        | .ok (g', draws') => checkTurn i Q rest g' draws'
        | .error _ => false
    else checkTurn i Q rest g draws

theorem checkTurn_sound {i : Fin numGhosts} {Q : GameState → Prop} [DecidablePred Q]
    {l : List (Fin numGhosts)} {g : GameState} {draws : List Nat}
    (h : checkTurn i Q l g draws = true) : ∃ now, Turn i now l g draws ∧ Q now := by
  induction l generalizing g draws with
  | nil => cases h
  | cons j l ih =>
    rw [checkTurn] at h
    split at h
    · rename_i halive
      split at h
      · cases h
      · rename_i hmoves
        split at h
        · rename_i hj
          subst hj
          exact ⟨g, .here l draws halive hmoves, of_decide_eq_true h⟩
        · split at h
          · rename_i g' draws' hm
            obtain ⟨now, ht, hQ⟩ := ih h
            exact ⟨now, .moved j l g g' draws draws' halive hmoves hm ht, hQ⟩
          · cases h
    · rename_i hdead
      obtain ⟨now, ht, hQ⟩ := ih h
      exact ⟨now, .dead j l g draws (Bool.eq_false_iff.mpr hdead) ht, hQ⟩

/-- Ghost 2 goes into the corner of the ghosts' room, ghosts 0 and 1 next to it. -/
def cornerRun : List Frame :=
  [⟨' ', [1, 3, 2, 3]⟩, ⟨' ', [1, 2, 2, 2]⟩, ⟨' ', [2, 2, 1, 3]⟩, ⟨' ', [0, 2, 2, 2]⟩,
    ⟨' ', [1, 2, 1, 3]⟩, ⟨' ', [0, 2, 1, 2]⟩, ⟨' ', [1, 2, 1, 3]⟩]

theorem ghost_trapped_in_corner : ∃ g now, Played 0 3 0 cornerRun g ∧
    GhostTurn (processInput g ' ') [2, 1] 2 now ∧ ¬ HasExit now 2 ∧
    ∀ draws, moveGhost now 2 draws = .error .needsDraw := by
  have hrun : checkRun (fun _ _ => True)
      (fun g => checkTurn 2 (fun now => ¬ HasExit now 2) (List.finRange numGhosts)
        (pacmanMoved (processInput g ' ')) [2, 1] = true) cornerRun (initialState 0 3 0) = true := by
    decide +kernel
  obtain ⟨g, hg, hcheck⟩ := Played.of_check (by decide) hrun
  have hb := (hg.board (by decide)).congr (processInput_same g ' ')
  obtain ⟨now, ht, hstuck⟩ := checkTurn_sound hcheck
  have hturn : GhostTurn (processInput g ' ') [2, 1] 2 now :=
    ⟨_, updatePacmanPosition_eq hb.pacman.1 (hb.target_inBounds (by decide)), ht⟩
  have hin := (hb.turn (by decide) hturn).interior (by decide) 2
  exact ⟨g, now, hg, hturn, hstuck, moveGhost_stuck hin hstuck⟩

end Rounds

/-- The contact with ghost `i` in `g` has been noticed in `g'`: a life is lost, or
the ghost is eaten. -/
def Resolved (g g' : GameState) (i : Fin numGhosts) : Prop :=
  g'.lives = uint32 (g.lives - 1) ∨
  ((g'.ghosts i).isAlive = false ∧ g'.score = uint32 (g.score + ghostPoints))

/-- Pacman stays on the ghost's cell, or runs into another ghost that catches him. -/
def StaysOrCaught (g : GameState) (input : Char) : Prop :=
  inputDirection input = .none ∨
  ((∃ j, Meets g (target (processInput g input)) j) ∧ g.pacman.isBoosted = false ∧
    g.map (target (processInput g input)) ≠ '*')

/-- What is left of Pacman's part at the end of the frame. -/
structure Account (g₁ g : GameState) : Prop where
  lives : g.lives = g₁.lives
  score : g.score = g₁.score
  pelletsRemaining : g.pelletsRemaining = g₁.pelletsRemaining
  isAlive : ∀ i, (g.ghosts i).isAlive = (g₁.ghosts i).isAlive
  deadTimer : ∀ i, (g.ghosts i).deadTimer = (g₁.ghosts i).deadTimer

section Contacts
variable {level : Nat} {g : GameState} {i : Fin numGhosts}

theorem Account.ghostMoved {g₁ : GameState} (h : Account g₁ g) (j : Fin numGhosts) (n : Point) :
    Account g₁ (ghostMoved g j n) := by
  refine ⟨h.lives, h.score, h.pelletsRemaining, fun k => ?_, fun k => ?_⟩ <;>
    rw [ghostMoved_ghosts] <;> split
  · rename_i he
    rw [he]
    exact h.isAlive j
  · exact h.isAlive k
  · rename_i he
    rw [he]
    exact h.deadTimer j
  · exact h.deadTimer k

theorem updateTimerState_numbers (g : GameState) (t : Nat) :
    (updateTimerState g t).lives = g.lives ∧ (updateTimerState g t).score = g.score ∧
    (updateTimerState g t).pelletsRemaining = g.pelletsRemaining := by
  have hboost : (updateBoost g t).lives = g.lives ∧ (updateBoost g t).score = g.score ∧
      (updateBoost g t).pelletsRemaining = g.pelletsRemaining := by
    unfold updateBoost
    split
    · dsimp only
      split <;> exact ⟨rfl, rfl, rfl⟩
    · exact ⟨rfl, rfl, rfl⟩
  have hrespawn : ∀ g : GameState, (updateRespawn g t).lives = g.lives ∧
      (updateRespawn g t).score = g.score ∧
      (updateRespawn g t).pelletsRemaining = g.pelletsRemaining := by
    intro g
    unfold updateRespawn
    split
    · exact ⟨rfl, rfl, rfl⟩
    · dsimp only
      split <;> exact ⟨rfl, rfl, rfl⟩
  obtain ⟨hlives, hscore, hpellets⟩ := hrespawn (updateBoost g t)
  exact ⟨hlives.trans hboost.1, hscore.trans hboost.2.1, hpellets.trans hboost.2.2⟩

theorem updateGameState_account (hl : level < numLevels) (hb : Board level g) {draws : List Nat}
    {g' : GameState} (hf : updateGameState g draws = .ok g') :
    g'.lives = (pacmanMoved g).lives ∧ g'.score = (pacmanMoved g).score ∧
    g'.pelletsRemaining = (pacmanMoved g).pelletsRemaining ∧
    ∀ i, (g'.ghosts i).isAlive = (((pacmanMoved g).ghosts i).isAlive ||
      decide (uint32 (((pacmanMoved g).ghosts i).deadTimer - (100 : Nat)) ≤ 0)) := by
  rcases updateGameState_rule hl hb (fun _ g' => Account (pacmanMoved g) g')
      ⟨rfl, rfl, rfl, fun _ => rfl, fun _ => rfl⟩ (fun i _ _ n _ hg _ _ _ => hg.ghostMoved i n)
      (fun _ _ _ hg _ => hg) draws with he | ⟨g₂, he, _, hdone⟩
  · cases hf.symm.trans he
  · cases hf.symm.trans he
    have hacc : Account (pacmanMoved g) g₂ := by
      rcases hdone with hnil | ⟨_, _, hcons, _⟩
      · exact hnil
      · exact hcons
    obtain ⟨hlives, hscore, hpellets⟩ := updateTimerState_numbers g₂ 100
    refine ⟨hlives.trans hacc.lives, hscore.trans hacc.score, hpellets.trans hacc.pelletsRemaining,
      fun i => ?_⟩
    rw [updateTimerState_isAlive, hacc.isAlive, hacc.deadTimer]

theorem uint32_pred_ne (n : Nat) : n ≠ uint32 ((n : Int) - 1) := by
  unfold uint32
  omega

theorem contact_staying (hs : Settled level g) (hmeet : Meets g g.pacman.position i)
    (hstay : target g = g.pacman.position) :
    (pacmanMoved g).lives = uint32 (g.lives - 1) ∨
    ((pacmanMoved g).ghosts i = eaten ((walked g).ghosts i) ∧
      (pacmanMoved g).score = uint32 (g.score + ghostPoints)) := by
  have hw : Meets (walked g) (target g) i := meets_walked.mpr (hstay ▸ hmeet)
  have hscore : (walked g).score = g.score := by
    rw [walked_score, item_eq, if_pos hstay]
    simp
  cases hb : (walked g).pacman.isBoosted with
  | false =>
    left
    rw [pacmanMoved, collide_unboosted hb, if_pos ⟨i, List.mem_finRange i, hw⟩, ← walked_lives g]
    rfl
  | true =>
    right
    have honly : ∀ j, Meets (walked g) (target g) j → j = i := by
      intro j hj
      by_contra hne
      apply hs.apart j i hne
      rw [(meets_walked.mp hj).1, (meets_walked.mp hw).1]
    rw [pacmanMoved, collide_single hb hw honly (List.mem_finRange i)]
    refine ⟨by rw [eatGhost_ghosts, if_pos rfl], ?_⟩
    rw [← hscore]
    rfl

/-- Who leaves the cell loses a life to a ghost ahead, or the contact is lost. -/
theorem contact_leaving (hs : Settled level g) (hmeet : Meets g g.pacman.position i)
    (hleave : target g ≠ g.pacman.position) :
    ((pacmanMoved g).ghosts i).isAlive = true ∧
    ((pacmanMoved g).lives = uint32 (g.lives - 1) ↔
      (∃ j, Meets g (target g) j) ∧ g.pacman.isBoosted = false ∧ g.map (target g) ≠ '*') := by
  have halive : ((walked g).ghosts i).isAlive = true := (walked_ghosts g i).isAlive.trans hmeet.2
  have hboost : (walked g).pacman.isBoosted = false ↔
      g.pacman.isBoosted = false ∧ g.map (target g) ≠ '*' := by
    obtain ⟨m, hm, _⟩ := hs.modes
    have hitem : EntersBooster g ↔ g.map (target g) = '*' := by
      rw [EntersBooster, item_eq, if_neg hleave]
    rw [hm.walked.boosted, hm.boosted, ne_eq, ← hitem]
    split
    · rename_i hb
      exact iff_of_false (by simp [Mode.boost]) (fun h => h.2 hb)
    · rename_i hb
      simp [hb]
  have hsame : ∀ n : Nat, n = g.lives → (n = uint32 (g.lives - 1) ↔ False) := by
    rintro n rfl
    exact iff_false_intro (uint32_pred_ne _)
  simp only [← meets_walked (g := g), ← hboost]
  rcases pacmanMoved_cases g with ⟨hno, he⟩ | ⟨hb, hex, he⟩ | ⟨hb, hex, hate, hghosts⟩
  · rw [he, hsame _ (walked_lives g)]
    refine ⟨halive, ?_⟩
    simp [hno]
  · rw [he]
    refine ⟨halive, iff_of_true ?_ ⟨hex, hb⟩⟩
    rw [← walked_lives g]
    rfl
  · rw [hsame _ (hate.lives.trans (walked_lives g)), hghosts i]
    have hnot : ¬ Meets (walked g) (target g) i := by
      intro hm
      exact hleave ((meets_walked.mp hm).1.symm.trans hmeet.1)
    rw [if_neg hnot]
    refine ⟨halive, ?_⟩
    simp [hb]

end Contacts

section Rounds
variable {level lives score : Nat}

theorem target_stays (g : GameState) {input : Char} (h : inputDirection input = .none) :
    target (processInput g input) = (processInput g input).pacman.position := by
  simp [target, processInput, setDirection, h, nextPosition]

/-- The next frame notices a contact exactly if Pacman does not try to move or is
caught by a ghost ahead of him: collisions are looked for only where he goes to. -/
theorem contact_resolved_iff (hl : level < numLevels) (frames : List Frame) (g : GameState)
    (h : Played level lives score frames g) (i : Fin numGhosts)
    (halive : (g.ghosts i).isAlive = true) (hpos : (g.ghosts i).position = g.pacman.position)
    (input : Char) :
    (∃ g₁, updatePacmanPosition (processInput g input) = .ok g₁ ∧
      (Resolved g g₁ i ↔ StaysOrCaught g input)) ∧
    ∀ draws g', updateGameState (processInput g input) draws = .ok g' →
      (Resolved g g' i ↔ StaysOrCaught g input) := by
  have hs := h.settled hl
  have hb := hs.board.congr (processInput_same g input)
  have hin := hs.processInput input
  have hmeet : Meets (processInput g input) (processInput g input).pacman.position i := ⟨hpos, halive⟩
  -- the end of the frame tells as much as the end of Pacman's part
  have hmain : ∀ g' : GameState, g'.lives = (pacmanMoved (processInput g input)).lives →
      g'.score = (pacmanMoved (processInput g input)).score →
      (((pacmanMoved (processInput g input)).ghosts i).isAlive = true →
        (g'.ghosts i).isAlive = true) →
      (((pacmanMoved (processInput g input)).ghosts i) =
        eaten ((walked (processInput g input)).ghosts i) → (g'.ghosts i).isAlive = false) →
      (Resolved g g' i ↔ StaysOrCaught g input) := by
    intro g' hlives hscore hlive hdead
    by_cases hd : inputDirection input = .none
    · refine iff_of_true ?_ (.inl hd)
      rcases contact_staying hin hmeet (target_stays g hd) with hlost | ⟨heaten, hpoints⟩
      · exact .inl (hlives.trans hlost)
      · exact .inr ⟨hdead heaten, hscore.trans hpoints⟩
    · have hleave : target (processInput g input) ≠ (processInput g input).pacman.position :=
        (hb.pacman.interior hl).next_ne hd
      obtain ⟨hstays, hiff⟩ := contact_leaving hin hmeet hleave
      constructor
      · rintro (hlost | ⟨hno, _⟩)
        · exact .inr (hiff.mp (hlives.symm.trans hlost))
        · cases hno.symm.trans (hlive hstays)
      · rintro (hno | hcaught)
        · exact absurd hno hd
        · exact .inl (hlives.trans (hiff.mpr hcaught))
  constructor
  · refine ⟨_, updatePacmanPosition_eq hb.pacman.1 (hb.target_inBounds hl), ?_⟩
    exact hmain _ rfl rfl id fun he => by rw [he]; rfl
  · intro draws g' hf
    obtain ⟨hlives, hscore, _, hfates⟩ := updateGameState_account hl hb hf
    refine hmain g' hlives hscore (fun hlive => ?_) fun he => ?_
    · rw [hfates i, hlive, Bool.true_or]
    · have htimer : (false || decide (uint32 ((respawnTime : Int) - (100 : Nat)) ≤ 0)) = false := by
        decide
      rw [hfates i, he]
      exact htimer

instance (g : GameState) (input : Char) : Decidable (StaysOrCaught g input) :=
  inferInstanceAs (Decidable (_ ∨ _))

theorem contact_resolved_iff_waiting : ∃ g, Played 0 3 0 contactRun g ∧
    (g.ghosts 0).position = g.pacman.position ∧
    ∀ draws g', updateGameState (processInput g ' ') draws = .ok g' → Resolved g g' 0 := by
  have hrun : checkRun (fun _ _ => True)
      (fun g => (g.ghosts 0).isAlive = true ∧ (g.ghosts 0).position = g.pacman.position)
      contactRun (initialState 0 3 0) = true := by
    decide +kernel
  obtain ⟨g, hg, halive, hpos⟩ := Played.of_check (by decide) hrun
  refine ⟨g, hg, hpos, fun draws g' hf => ?_⟩
  exact ((contact_resolved_iff (by decide) contactRun g hg 0 halive hpos ' ').2 draws g' hf).mpr
    (.inl (by decide))

/-- He walks on, and the ghost too. -/
theorem contact_unnoticed : ∃ g g', Played 0 3 0 contactRun g ∧ (g.ghosts 0).isAlive = true ∧
    (g.ghosts 0).position = g.pacman.position ∧
    updateGameState (processInput g 's') [1, 0, 0, 0] = .ok g' ∧ ¬ Resolved g g' 0 := by
  have hrun : checkRun (fun _ _ => True)
      (fun g => (g.ghosts 0).isAlive = true ∧ (g.ghosts 0).position = g.pacman.position ∧
        checkRun (fun _ _ => True) (fun g' => g'.lives = 3 ∧ g.lives = 3 ∧ (g'.ghosts 0).isAlive = true)
          [⟨'s', [1, 0, 0, 0]⟩] g = true)
      contactRun (initialState 0 3 0) = true := by
    decide +kernel
  obtain ⟨g, hg, halive, hpos, hnext⟩ := Played.of_check (by decide) hrun
  obtain ⟨g', _, hplay, hlives, hlives', halive'⟩ := checkRun_sound hnext
  refine ⟨g, g', hg, halive, hpos, ?_, ?_⟩
  · rw [play, List.foldlM_cons] at hplay
    obtain ⟨g'', hf, he⟩ := bind_eq_ok.mp hplay
    cases he
    exact hf
  · rintro (hlost | ⟨hdead, _⟩)
    · rw [hlives, hlives'] at hlost
      exact uint32_pred_ne 3 hlost
    · cases hdead.symm.trans halive'

end Rounds

end Zeos.Game
