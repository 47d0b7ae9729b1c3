import Zeos.Encounters
import Zeos.Lib.Holders

/-!
# Pellets

A pellet lies on the map or under a ghost, in the ghost's `tile`. The moves of the
ghosts carry it from one to the other and back. An eaten ghost takes its tile home
and neither saves nor restores what lies there, and a revived ghost can leave its
tile under a Pacman who is held by a wall: these are the two ways to lose a pellet.
The counter of the pellets that remain is never changed.
-/

namespace Zeos.Game

open Loops Relation Holders
set_option autoImplicit false

def rectangle (width height : Nat) : Finset Point :=
  (Finset.range width ×ˢ Finset.range height).image fun q => ⟨q.1, q.2⟩

theorem mem_rectangle {width height : Nat} {p : Point} :
    p ∈ rectangle width height ↔ p.x < width ∧ p.y < height := by
  simp only [rectangle, Finset.mem_image, Finset.mem_product, Finset.mem_range]
  constructor
  · rintro ⟨q, hq, rfl⟩
    exact hq
  · intro hp
    exact ⟨(p.x, p.y), hp, rfl⟩

@[irreducible] def cells : Finset Point := rectangle mapWidth mapHeight

theorem mem_cells {p : Point} : p ∈ cells ↔ InBounds p := by
  unfold cells
  exact mem_rectangle

/-- The pellets on the map that are not under a ghost, and those under a ghost. -/
def phi (g : GameState) : Nat :=
  (cells.filter fun p => g.map p = '.' ∧ ∀ i, (g.ghosts i).position ≠ p).card +
    (Finset.univ.filter fun i => (g.ghosts i).tile = '.').card

/-- Pacman takes the branch that adds `PELLET_POINTS` to the score. -/
def EatsPellet (g : GameState) : Prop := item g (target g) = '.'

instance (g : GameState) : Decidable (EatsPellet g) := inferInstanceAs (Decidable (_ = _))

def pelletsScored (g : GameState) : Nat := if EatsPellet g then 1 else 0

/-- What a cell without a ghost shows. -/
def cellHolds (g : GameState) (p : Point) : Option Char :=
  if ∀ i, (g.ghosts i).position ≠ p then some (g.map p) else none

def ghostHolds (g : GameState) (i : Fin numGhosts) : Option Char := some (g.ghosts i).tile

theorem cellHolds_eq_some {g : GameState} {p : Point} {c : Char} :
    cellHolds g p = some c ↔ g.map p = c ∧ ∀ i, (g.ghosts i).position ≠ p := by
  unfold cellHolds
  split
  · rename_i hfree
    simp [hfree]
  · rename_i hfree
    simp [hfree]

theorem phi_eq (g : GameState) :
    phi g = refs cells (cellHolds g) '.' + refs Finset.univ (ghostHolds g) '.' := by
  have hcells : (cells.filter fun p => g.map p = '.' ∧ ∀ i, (g.ghosts i).position ≠ p) =
      cells.filter fun p => cellHolds g p = some '.' :=
    Finset.filter_congr fun p _ => cellHolds_eq_some.symm
  have hghosts : (Finset.univ.filter fun i => (g.ghosts i).tile = '.') =
      Finset.univ.filter fun i => ghostHolds g i = some '.' :=
    Finset.filter_congr fun i _ => by simp [ghostHolds]
  rw [phi, refs, refs, hcells, hghosts]

section Steps
variable {level : Nat} {g : GameState} {i : Fin numGhosts} {n : Point}

theorem savedTile_pellet (c : Char) : savedTile c = '.' ↔ c = '.' := by
  unfold savedTile
  split
  · rename_i hc
    exact iff_of_false (by decide) hc.2.2
  · rfl

theorem phi_congr {g' : GameState} (hmap : g'.map = g.map)
    (hpos : ∀ i, (g'.ghosts i).position = (g.ghosts i).position)
    (htile : ∀ i, (g'.ghosts i).tile = (g.ghosts i).tile) : phi g' = phi g := by
  simp only [phi, hmap, hpos, htile]

theorem cellHolds_under_ghost {p : Point} (hp : (g.ghosts i).position = p) : ¬ cellHolds g p = some '.' :=
  fun h => (cellHolds_eq_some.mp h).2 i hp

theorem cellHolds_away {g' : GameState} {p : Point}
    (hposition : ∀ j, (g'.ghosts j).position = if j = i then n else (g.ghosts j).position)
    (hmap : g'.map p = g.map p) (hp : p ≠ (g.ghosts i).position) (hpn : p ≠ n) :
    cellHolds g' p = cellHolds g p := by
  unfold cellHolds
  rw [hmap]
  refine if_congr (forall_congr' fun j => ?_) rfl rfl
  rw [hposition]
  split
  · rename_i hj
    subst hj
    exact iff_of_true (Ne.symm hpn) (Ne.symm hp)
  · rfl

/-- A ghost carries pellets along, unless it leaves one to another ghost. -/
theorem phi_ghostMoved (hpos : InBounds (g.ghosts i).position) (hn : CanStep g i n) :
    phi (ghostMoved g i n) +
      (if (g.ghosts i).tile = '.' ∧ ∃ j, j ≠ i ∧ (g.ghosts j).position = (g.ghosts i).position
        then 1 else 0) = phi g := by
  have hne : (g.ghosts i).position ≠ n := hn.free i
  have hposition : ∀ j, ((ghostMoved g i n).ghosts j).position =
      if j = i then n else (g.ghosts j).position := by
    intro j
    rw [ghostMoved_ghosts]
    split <;> rfl
  have hmap : ∀ p, (ghostMoved g i n).map p = if p = n then ghostIcon i
      else if p = (g.ghosts i).position then (g.ghosts i).tile else g.map p := by
    intro p
    simp only [ghostMoved, Function.update_apply]
  have hcells := refs_update_two (h := cellHolds g) (g := cellHolds (ghostMoved g i n))
    (mem_cells.mpr hpos) (mem_cells.mpr hn.inBounds) hne (by
      intro p _ hp hpn
      apply cellHolds_away hposition _ hp hpn
      rw [hmap, if_neg hpn, if_neg hp]) '.'
  have hghosts := refs_update (h := ghostHolds g) (g := ghostHolds (ghostMoved g i n))
    (Finset.mem_univ i) (by
      intro j _ hj
      rw [ghostHolds, ghostHolds, ghostMoved_ghosts, if_neg hj]) '.'
  have hold : ¬ cellHolds g (g.ghosts i).position = some '.' := cellHolds_under_ghost rfl
  have hnew : ¬ cellHolds (ghostMoved g i n) n = some '.' :=
    cellHolds_under_ghost ((hposition i).trans (if_pos rfl))
  have hnext : cellHolds g n = some '.' ↔ g.map n = '.' := by
    rw [cellHolds_eq_some]
    exact and_iff_left hn.free
  have hleft : cellHolds (ghostMoved g i n) (g.ghosts i).position = some '.' ↔
      (g.ghosts i).tile = '.' ∧
        ¬ ∃ j, j ≠ i ∧ (g.ghosts j).position = (g.ghosts i).position := by
    rw [cellHolds_eq_some, hmap, if_neg hne, if_pos rfl, not_exists]
    apply and_congr_right
    intro _
    apply forall_congr'
    intro j
    rw [hposition]
    split
    · rename_i hj
      exact iff_of_true hne.symm (fun h => h.1 hj)
    · rename_i hj
      simp [hj]
  have htile : ghostHolds g i = some '.' ↔ (g.ghosts i).tile = '.' := by
    simp [ghostHolds]
  have htile' : ghostHolds (ghostMoved g i n) i = some '.' ↔ g.map n = '.' := by
    simp [ghostHolds, ghostMoved_ghosts, savedTile_pellet]
  rw [phi_eq, phi_eq]
  simp only [hold, hnew, hnext, hleft, htile, htile', if_false] at hcells hghosts
  by_cases ht : (g.ghosts i).tile = '.'
  · by_cases ho : ∃ j, j ≠ i ∧ (g.ghosts j).position = (g.ghosts i).position
    · simp only [ht, ho, true_and, not_true, if_true, if_false] at hcells hghosts ⊢
      omega
    · simp only [ht, ho, true_and, not_false_eq_true, if_true, if_false] at hcells hghosts ⊢
      omega
  · simp only [ht, false_and, if_false] at hcells hghosts ⊢
    omega

def LoosePellet (g : GameState) (p : Point) : Prop :=
  g.map p = '.' ∧ ∀ i, (g.ghosts i).position ≠ p

instance (g : GameState) (p : Point) : Decidable (LoosePellet g p) :=
  inferInstanceAs (Decidable (_ ∧ _))

theorem cellHolds_pellet {p : Point} : cellHolds g p = some '.' ↔ LoosePellet g p := cellHolds_eq_some

theorem walked_positions (g : GameState) (p : Point) :
    (∀ i, ((walked g).ghosts i).position ≠ p) ↔ ∀ i, (g.ghosts i).position ≠ p := by
  apply forall_congr'
  intro i
  rw [(walked_ghosts g i).position]

theorem phi_walked (hpos : InBounds g.pacman.position) (htarget : InBounds (target g))
    (hw : g.map (target g) ≠ '#') :
    phi (walked g) + (if LoosePellet g g.pacman.position then 1 else 0) +
      (if target g ≠ g.pacman.position ∧ LoosePellet g (target g) then 1 else 0) = phi g := by
  have hmap : ∀ p, (walked g).map p =
      if p = target g then 'C' else if p = g.pacman.position then ' ' else g.map p := by
    intro p
    rw [walked_map, if_neg hw]
  have hrest : ∀ p, p ≠ g.pacman.position → p ≠ target g → cellHolds (walked g) p = cellHolds g p := by
    intro p hp ht
    unfold cellHolds
    rw [hmap, if_neg ht, if_neg hp]
    exact if_congr (walked_positions g p) rfl rfl
  have herased : ∀ p, p = g.pacman.position ∨ p = target g →
      ¬ cellHolds (walked g) p = some '.' := by
    intro p hp h
    have hc := (cellHolds_eq_some.mp h).1
    rw [hmap] at hc
    split at hc
    · cases hc
    · rename_i ht
      rw [if_pos (hp.resolve_right ht)] at hc
      cases hc
  have hghosts : refs Finset.univ (ghostHolds (walked g)) '.' =
      refs Finset.univ (ghostHolds g) '.' := by
    apply refs_congr
    intro i _
    rw [ghostHolds, ghostHolds, (walked_ghosts g i).tile]
  rw [phi_eq, phi_eq, hghosts]
  by_cases hstay : target g = g.pacman.position
  · have hcells := refs_update (h := cellHolds g) (g := cellHolds (walked g)) (mem_cells.mpr hpos)
      (fun p _ hp => hrest p hp (hstay ▸ hp)) '.'
    rw [if_neg (herased _ (.inl rfl))] at hcells
    simp only [cellHolds_pellet] at hcells
    have hno : ¬ (target g ≠ g.pacman.position ∧ LoosePellet g (target g)) := fun h => h.1 hstay
    rw [if_neg hno]
    omega
  · have hcells := refs_update_two (h := cellHolds g) (g := cellHolds (walked g))
      (mem_cells.mpr hpos) (mem_cells.mpr htarget) (Ne.symm hstay) (fun p _ => hrest p) '.'
    rw [if_neg (herased _ (.inl rfl)), if_neg (herased _ (.inr rfl))] at hcells
    simp only [cellHolds_pellet] at hcells
    simp only [ne_eq, hstay, not_false_eq_true, true_and]
    omega

theorem phi_eatGhost (hpos : InBounds (g.ghosts i).position)
    (hspawn : InBounds (g.ghosts i).spawnPoint) (hclean : g.map (g.ghosts i).position ≠ '.') :
    phi (eatGhost g i) + (if LoosePellet g (g.ghosts i).spawnPoint then 1 else 0) = phi g := by
  have hposition : ∀ j, ((eatGhost g i).ghosts j).position =
      if j = i then (g.ghosts i).spawnPoint else (g.ghosts j).position := by
    intro j
    rw [eatGhost_ghosts]
    split <;> rfl
  have htile : ∀ j, ((eatGhost g i).ghosts j).tile = (g.ghosts j).tile := by
    intro j
    rw [eatGhost_ghosts]
    split
    · rename_i hj
      rw [hj]
      rfl
    · rfl
  have hmap : (eatGhost g i).map = g.map := rfl
  by_cases hhome : (g.ghosts i).spawnPoint = (g.ghosts i).position
  · rw [if_neg fun h => h.2 i hhome.symm]
    apply phi_congr hmap _ htile
    intro j
    rw [hposition, hhome]
    split
    · rename_i hj
      rw [hj]
    · rfl
  · have hghosts : refs Finset.univ (ghostHolds (eatGhost g i)) '.' =
        refs Finset.univ (ghostHolds g) '.' := by
      apply refs_congr
      intro j _
      rw [ghostHolds, ghostHolds, htile]
    have hcells := refs_update_two (h := cellHolds g) (g := cellHolds (eatGhost g i))
      (mem_cells.mpr hspawn) (mem_cells.mpr hpos) hhome (by
        intro p _ hp hp'
        exact cellHolds_away hposition rfl hp' hp) '.'
    have hnew : ¬ cellHolds (eatGhost g i) (g.ghosts i).spawnPoint = some '.' :=
      cellHolds_under_ghost ((hposition i).trans (if_pos rfl))
    have hold : ∀ g' : GameState, g'.map = g.map →
        ¬ cellHolds g' (g.ghosts i).position = some '.' := by
      intro g' hg' h
      exact hclean (hg' ▸ (cellHolds_eq_some.mp h).1)
    rw [if_neg hnew, if_neg (hold _ rfl), if_neg (hold _ hmap)] at hcells
    simp only [cellHolds_pellet] at hcells
    rw [phi_eq, phi_eq, hghosts]
    omega

end Steps

/-- Pacman is about to eat ghost `i`. -/
def Eats (g : GameState) (i : Fin numGhosts) : Prop :=
  Meets g (target g) i ∧ (g.pacman.isBoosted = true ∨ EntersBooster g)

instance (g : GameState) (i : Fin numGhosts) : Decidable (Eats g i) :=
  inferInstanceAs (Decidable (_ ∧ _))

/-- If Pacman is not held by a wall, there is no pellet on his own cell; and if he
eats a ghost, there is none at its home, neither on the map nor under another ghost. -/
def KeepsPellets (g : GameState) : Prop :=
  (g.map (target g) ≠ '#' → g.map g.pacman.position ≠ '.') ∧
  ∀ i, Eats g i → g.map (g.ghosts i).spawnPoint ≠ '.' ∧
    ∀ j, j ≠ i → (g.ghosts j).position = (g.ghosts i).spawnPoint → (g.ghosts j).tile ≠ '.'

instance (g : GameState) : Decidable (KeepsPellets g) := inferInstanceAs (Decidable (_ ∧ _))

/-- No ghost is on a pellet that is still on the map. -/
def Clean (g : GameState) : Prop := ∀ i, g.map (g.ghosts i).position ≠ '.'

/-- Before the first frame the ghosts are on pellets, but far from Pacman. -/
structure Fresh (g : GameState) : Prop where
  isAlive : ∀ i, (g.ghosts i).isAlive = true
  moving : ∀ i, (g.ghosts i).behaviour ≠ .still
  own : g.map g.pacman.position ≠ '.'
  away : ∀ i, (g.ghosts i).position ≠ target g

/-- Ghost `j` will leave a pellet to the dead ghost on its cell. -/
def Leaves (g : GameState) (j : Fin numGhosts) : Prop :=
  (g.ghosts j).isAlive = true ∧ (g.ghosts j).tile = '.' ∧
  ∃ i, (g.ghosts i).isAlive = false ∧ (g.ghosts i).position = (g.ghosts j).position

instance (g : GameState) (j : Fin numGhosts) : Decidable (Leaves g j) :=
  inferInstanceAs (Decidable (_ ∧ _))

def LiveApart (g : GameState) : Prop :=
  ∀ i j, i ≠ j → (g.ghosts i).isAlive = true → (g.ghosts j).isAlive = true →
    (g.ghosts i).position ≠ (g.ghosts j).position

section Frames
variable {level : Nat} {g : GameState} {i : Fin numGhosts} {n : Point}

theorem eatsPellet_iff : EatsPellet g ↔ target g ≠ g.pacman.position ∧ g.map (target g) = '.' := by
  rw [EatsPellet, item_eq]
  split
  · rename_i hstay
    exact iff_of_false (by decide) (fun h => h.1 hstay)
  · rename_i hleave
    exact (and_iff_right hleave).symm

theorem phi_walk (hb : Board level g) (hl : level < numLevels) (hr : Clean g ∨ Fresh g) :
    phi (walked g) + (if g.map (target g) ≠ '#' ∧ g.map g.pacman.position = '.' then 1 else 0) +
      pelletsScored g = phi g := by
  by_cases hw : g.map (target g) = '#'
  · have hno : ¬ EatsPellet g := by
      rw [eatsPellet_iff, hw]
      exact fun h => absurd h.2 (by decide)
    have hwalk : walked g = g := if_pos hw
    rw [hwalk, pelletsScored, if_neg hno, if_neg (fun h => h.1 hw), Nat.add_zero]
  · have hown : LoosePellet g g.pacman.position ↔
        g.map (target g) ≠ '#' ∧ g.map g.pacman.position = '.' := by
      constructor
      · exact fun h => ⟨hw, h.1⟩
      · rintro ⟨_, h⟩
        refine ⟨h, fun j hj => ?_⟩
        rcases hr with hclean | hfresh
        · exact hclean j (hj ▸ h)
        · exact hfresh.own h
    have hnext : (target g ≠ g.pacman.position ∧ LoosePellet g (target g)) ↔ EatsPellet g := by
      rw [eatsPellet_iff]
      refine and_congr_right fun _ => ⟨fun h => h.1, fun h => ⟨h, fun j hj => ?_⟩⟩
      rcases hr with hclean | hfresh
      · exact hclean j (hj ▸ h)
      · exact hfresh.away j hj
    have hphi := phi_walked hb.pacman.1 (hb.target_inBounds hl) hw
    simp only [hown, hnext] at hphi
    exact hphi

theorem Leaves.of_ghostMoved {j : Fin numGhosts} (hn : CanStep g i n)
    (h : Leaves (ghostMoved g i n) j) (halive : (g.ghosts i).isAlive = true) :
    j ≠ i ∧ Leaves g j := by
  obtain ⟨hj, htile, k, hk, hsame⟩ := h
  have hki : k ≠ i := by
    rintro rfl
    rw [ghostMoved_ghosts, if_pos rfl] at hk
    cases halive.symm.trans hk
  have hji : j ≠ i := by
    rintro rfl
    rw [ghostMoved_ghosts, ghostMoved_ghosts, if_neg hki, if_pos rfl] at hsame
    exact hn.free k hsame
  rw [ghostMoved_ghosts, if_neg hki] at hk
  rw [ghostMoved_ghosts, ghostMoved_ghosts, if_neg hki, if_neg hji] at hsame
  rw [ghostMoved_ghosts, if_neg hji] at hj htile
  exact ⟨hji, hj, htile, k, hk, hsame⟩

theorem Leaves.ghostMoved {j : Fin numGhosts} (h : Leaves g j) (hji : j ≠ i)
    (halive : (g.ghosts i).isAlive = true) : Leaves (ghostMoved g i n) j := by
  obtain ⟨hj, htile, k, hk, hsame⟩ := h
  have hki : k ≠ i := by
    rintro rfl
    cases halive.symm.trans hk
  refine ⟨?_, ?_, k, ?_, ?_⟩
  · rw [ghostMoved_ghosts, if_neg hji]
    exact hj
  · rw [ghostMoved_ghosts, if_neg hji]
    exact htile
  · rw [ghostMoved_ghosts, if_neg hki]
    exact hk
  · rw [ghostMoved_ghosts, ghostMoved_ghosts, if_neg hki, if_neg hji]
    exact hsame

theorem LiveApart.ghostMoved (h : LiveApart g) (hn : CanStep g i n) :
    LiveApart (ghostMoved g i n) := by
  intro j k hne hj hk
  rw [ghostMoved_ghosts, ghostMoved_ghosts]
  rw [ghostMoved_ghosts] at hj hk
  by_cases hji : j = i
  · rw [if_pos hji, if_neg (hji ▸ hne.symm)]
    exact (hn.free k).symm
  · by_cases hki : k = i
    · rw [if_neg hji, if_pos hki]
      exact hn.free j
    · rw [if_neg hji, if_neg hki]
      rw [if_neg hji] at hj
      rw [if_neg hki] at hk
      exact h j k hne hj hk

theorem phi_ghostMoved_live (hb : Board level g) (ha : LiveApart g)
    (halive : (g.ghosts i).isAlive = true) (hn : CanStep g i n) :
    (¬ Leaves g i → phi (ghostMoved g i n) = phi g) ∧
    (Leaves g i → phi (ghostMoved g i n) < phi g) ∧ phi (ghostMoved g i n) ≤ phi g := by
  have hphi := phi_ghostMoved (hb.ghosts i).1 hn
  have hiff : ((g.ghosts i).tile = '.' ∧
      ∃ j, j ≠ i ∧ (g.ghosts j).position = (g.ghosts i).position) ↔ Leaves g i := by
    constructor
    · rintro ⟨htile, j, hj, hsame⟩
      refine ⟨halive, htile, j, ?_, hsame⟩
      cases hdead : (g.ghosts j).isAlive with
      | false => rfl
      | true => exact absurd hsame (ha j i hj hdead halive)
    · rintro ⟨_, htile, j, hdead, hsame⟩
      refine ⟨htile, j, ?_, hsame⟩
      rintro rfl
      cases halive.symm.trans hdead
  rw [if_congr hiff rfl rfl] at hphi
  refine ⟨fun h => ?_, fun h => ?_, by omega⟩
  · rw [if_neg h] at hphi
    exact hphi
  · rw [if_pos h] at hphi
    omega

/-- Ghosts that have moved, and dead ones, are on no pellet of the map. -/
def Cleaned (l : List (Fin numGhosts)) (g : GameState) : Prop :=
  ∀ i, (i ∈ l ∧ (g.ghosts i).isAlive = true) ∨ g.map (g.ghosts i).position ≠ '.'

theorem Cleaned.ghostMoved {l : List (Fin numGhosts)} (h : Cleaned (i :: l) g) (ha : LiveApart g)
    (hno : ¬ Leaves g i) (halive : (g.ghosts i).isAlive = true) (hn : CanStep g i n) :
    Cleaned l (ghostMoved g i n) := by
  intro j
  rw [ghostMoved_ghosts]
  by_cases hj : j = i
  · right
    rw [if_pos hj]
    simp only [Game.ghostMoved, Function.update_self]
    exact (ghostIcon_ne i).2
  · rw [if_neg hj]
    rcases h j with ⟨hmem, hlive⟩ | hclean
    · exact .inl ⟨(List.mem_cons.mp hmem).resolve_left hj, hlive⟩
    · right
      simp only [Game.ghostMoved, Function.update_apply, hn.free j, if_false]
      split
      · rename_i hsame
        intro htile
        refine hno ⟨halive, htile, j, ?_, hsame⟩
        cases hdead : (g.ghosts j).isAlive with
        | false => rfl
        | true => exact absurd hsame (ha j i hj hdead halive)
      · exact hclean

theorem phi_kept {m₁ : Mode} {draws : List Nat} {g' : GameState} (hl : level < numLevels)
    (hb : Board level g) (hm : HasMode (pacmanMoved g) m₁) (ha : LiveApart (pacmanMoved g))
    (hno : ∀ j, ¬ Leaves (pacmanMoved g) j) (hc : Cleaned (List.finRange numGhosts) (pacmanMoved g))
    (hstill : m₁.behaviour = .still → Clean (pacmanMoved g))
    (hf : updateGameState g draws = .ok g') : phi g' = phi (pacmanMoved g) ∧ Clean g' := by
  rcases updateGameState_rule hl hb
      (fun l g' => HasMode g' m₁ ∧ LiveApart g' ∧ (∀ j, ¬ Leaves g' j) ∧ Cleaned l g' ∧
        (m₁.behaviour = .still → Clean g') ∧ phi g' = phi (pacmanMoved g))
      ⟨hm, ha, hno, hc, hstill, rfl⟩
      (by
        rintro i l g' n hb' ⟨hm', ha', hno', hc', _, hphi⟩ halive hmoves hn
        refine ⟨hm'.ghostMoved i n, ha'.ghostMoved hn, ?_, hc'.ghostMoved ha' (hno' i) halive hn, ?_,
          ((phi_ghostMoved_live hb' ha' halive hn).1 (hno' i)).trans hphi⟩
        · intro j hj
          exact hno' j (Leaves.of_ghostMoved hn hj halive).2
        · intro hs
          exact absurd ((hm'.behaviour i).trans hs) hmoves)
      (by
        rintro i l g' ⟨hm', ha', hno', hc', hs, hphi⟩ hdead
        refine ⟨hm', ha', hno', fun j => ?_, hs, hphi⟩
        rcases hc' j with ⟨hmem, hlive⟩ | hclean
        · rcases List.mem_cons.mp hmem with rfl | hmem
          · cases hlive.symm.trans hdead
          · exact .inl ⟨hmem, hlive⟩
        · exact .inr hclean)
      draws with he | ⟨g₂, he, _, hdone⟩
  · cases hf.symm.trans he
  · cases hf.symm.trans he
    have hs := updateTimerState_same g₂ 100
    have hend : phi g₂ = phi (pacmanMoved g) ∧ Clean g₂ := by
      rcases hdone with ⟨_, _, _, hc', _, hphi⟩ | ⟨i, l, ⟨hm', _, _, _, hstill', hphi⟩, hbeh⟩
      · refine ⟨hphi, fun i => ?_⟩
        rcases hc' i with ⟨hmem, _⟩ | hclean
        · cases hmem
        · exact hclean
      · exact ⟨hphi, hstill' ((hm'.behaviour i).symm.trans hbeh)⟩
    refine ⟨(phi_congr hs.map hs.ghostPosition hs.tile).trans hend.1, fun i => ?_⟩
    rw [hs.map, hs.ghostPosition]
    exact hend.2 i

theorem phi_lost {draws : List Nat} {g' : GameState} (hl : level < numLevels)
    (hb : Board level g) (ha : LiveApart (pacmanMoved g)) (hf : updateGameState g draws = .ok g') :
    phi g' ≤ phi (pacmanMoved g) ∧
    ∀ j, (∀ i, ((pacmanMoved g).ghosts i).behaviour ≠ .still) → Leaves (pacmanMoved g) j →
      phi g' < phi (pacmanMoved g) := by
  have hrun : ∀ j : Fin numGhosts, ∃ g₂, g' = updateTimerState g₂ 100 ∧
      phi g₂ ≤ phi (pacmanMoved g) ∧ ((∀ i, ((pacmanMoved g).ghosts i).behaviour ≠ .still) →
        Leaves (pacmanMoved g) j → phi g₂ < phi (pacmanMoved g)) := by
    intro j
    rcases updateGameState_rule hl hb
        (fun l g' => LiveApart g' ∧ phi g' ≤ phi (pacmanMoved g) ∧
          (∀ i, (g'.ghosts i).behaviour = ((pacmanMoved g).ghosts i).behaviour) ∧
          (Leaves (pacmanMoved g) j → phi g' < phi (pacmanMoved g) ∨ (j ∈ l ∧ Leaves g' j)))
        ⟨ha, le_rfl, fun _ => rfl, fun h => .inr ⟨List.mem_finRange j, h⟩⟩
        (by
          rintro i l g' n hb' ⟨ha', hle, hbeh, hleaves⟩ halive _ hn
          obtain ⟨_, hlt, hle'⟩ := phi_ghostMoved_live hb' ha' halive hn
          refine ⟨ha'.ghostMoved hn, hle'.trans hle, fun k => ?_, fun h => ?_⟩
          · rw [ghostMoved_ghosts, ← hbeh k]
            split
            · rename_i hk
              rw [hk]
            · rfl
          · rcases hleaves h with hless | ⟨hmem, hj⟩
            · exact .inl (hle'.trans_lt hless)
            · by_cases hji : j = i
              · subst hji
                exact .inl ((hlt hj).trans_le hle)
              · exact .inr ⟨(List.mem_cons.mp hmem).resolve_left hji, hj.ghostMoved hji halive⟩)
        (by
          rintro i l g' ⟨ha', hle, hbeh, hleaves⟩ hdead
          refine ⟨ha', hle, hbeh, fun h => ?_⟩
          rcases hleaves h with hless | ⟨hmem, hj⟩
          · exact .inl hless
          · refine .inr ⟨(List.mem_cons.mp hmem).resolve_left ?_, hj⟩
            rintro rfl
            cases hj.1.symm.trans hdead)
        draws with he | ⟨g₂, he, _, hdone⟩
    · cases hf.symm.trans he
    · cases hf.symm.trans he
      refine ⟨g₂, rfl, ?_⟩
      rcases hdone with ⟨_, hle, _, hleaves⟩ | ⟨i, l, ⟨_, hle, hbeh, _⟩, hstill⟩
      · refine ⟨hle, fun _ h => (hleaves h).resolve_right ?_⟩
        exact fun hmem => nomatch hmem.1
      · exact ⟨hle, fun hmoves _ => absurd ((hbeh i).symm.trans hstill) (hmoves i)⟩
  constructor
  · obtain ⟨g₂, rfl, hle, _⟩ := hrun 0
    have hs := updateTimerState_same g₂ 100
    rw [phi_congr hs.map hs.ghostPosition hs.tile]
    exact hle
  · intro j hmoves hj
    obtain ⟨g₂, rfl, _, hlt⟩ := hrun j
    have hs := updateTimerState_same g₂ 100
    rw [phi_congr hs.map hs.ghostPosition hs.tile]
    exact hlt hmoves hj

theorem meal_cases (hs : Settled level g) :
    ((∀ i, ¬ Eats g i) ∧ (∀ i, SameBody (g.ghosts i) ((pacmanMoved g).ghosts i)) ∧
      (pacmanMoved g).map = (walked g).map) ∨
    ∃ i, Eats g i ∧ (∀ j, Eats g j → j = i) ∧ (pacmanMoved g).pacman.isBoosted = true ∧
      pacmanMoved g = eatGhost (walked g) i := by
  obtain ⟨m, hm, _⟩ := hs.modes
  have hboost : (walked g).pacman.isBoosted = true ↔
      g.pacman.isBoosted = true ∨ EntersBooster g := by
    rw [hm.walked.boosted, hm.boosted]
    split
    · rename_i hb
      simp [Mode.boost, hb]
    · rename_i hb
      simp [hb]
  rcases pacmanMoved_cases g with ⟨hno, he⟩ | ⟨hb, _, he⟩ | ⟨hb, ⟨i, hi⟩, hate, _⟩
  · rw [he]
    exact .inl ⟨fun i hi => hno i (meets_walked.mpr hi.1), walked_ghosts g, rfl⟩
  · rw [he]
    refine .inl ⟨fun i hi => ?_, fun i => ?_, rfl⟩
    · cases (hboost.mpr hi.2).symm.trans hb
    · obtain ⟨h1, h2, h3, h4⟩ := walked_ghosts g i
      exact ⟨h1, h2, h3, h4⟩
  · have honly : ∀ j, Meets (walked g) (target g) j → j = i := by
      intro j hj
      by_contra hne
      apply hs.apart j i hne
      rw [(meets_walked.mp hj).1, (meets_walked.mp hi).1]
    refine .inr ⟨i, ⟨meets_walked.mp hi, hboost.mp hb⟩, fun j hj => ?_, ?_, ?_⟩
    · exact honly j (meets_walked.mpr hj.1)
    · rw [hate.pacman]
      exact hb
    · exact collide_single hb hi honly (List.mem_finRange i)

theorem liveApart_pacmanMoved (hs : Settled level g) : LiveApart (pacmanMoved g) := by
  intro j k hne hj hk
  rcases meal_cases hs with ⟨_, hsame, _⟩ | ⟨i, _, _, _, he⟩
  · rw [(hsame j).position, (hsame k).position]
    exact hs.apart j k hne
  · have hbody : ∀ j, ((pacmanMoved g).ghosts j).isAlive = true →
        ((pacmanMoved g).ghosts j).position = (g.ghosts j).position := by
      intro j hj
      rw [he, eatGhost_ghosts] at hj ⊢
      split at hj
      · cases hj
      · rename_i hji
        rw [if_neg hji]
        exact (walked_ghosts g j).position
    rw [hbody j hj, hbody k hk]
    exact hs.apart j k hne

theorem leaves_iff (hs : Settled level g) (hmeal : pacmanMoved g = eatGhost (walked g) i)
    (j : Fin numGhosts) : Leaves (pacmanMoved g) j ↔
      j ≠ i ∧ (g.ghosts j).position = (g.ghosts i).spawnPoint ∧ (g.ghosts j).tile = '.' := by
  have hghost : ∀ k, k ≠ i → SameBody (g.ghosts k) ((pacmanMoved g).ghosts k) := by
    intro k hk
    rw [hmeal, eatGhost_ghosts, if_neg hk]
    exact walked_ghosts g k
  have heaten : ((pacmanMoved g).ghosts i).isAlive = false ∧
      ((pacmanMoved g).ghosts i).position = (g.ghosts i).spawnPoint := by
    rw [hmeal, eatGhost_ghosts, if_pos rfl]
    exact ⟨rfl, (walked_ghosts g i).spawnPoint⟩
  constructor
  · rintro ⟨hj, htile, k, hk, hsame⟩
    have hji : j ≠ i := by
      rintro rfl
      cases hj.symm.trans heaten.1
    have hki : k = i := by
      by_contra hki
      have hkj : k ≠ j := by
        rintro rfl
        cases hj.symm.trans hk
      apply hs.apart k j hkj
      rw [← (hghost k hki).position, ← (hghost j hji).position, hsame]
    subst hki
    rw [heaten.2, (hghost j hji).position] at hsame
    exact ⟨hji, hsame.symm, (hghost j hji).tile.symm.trans htile⟩
  · rintro ⟨hji, hpos, htile⟩
    refine ⟨?_, (hghost j hji).tile.trans htile, i, heaten.1, ?_⟩
    · rw [(hghost j hji).isAlive]
      cases hdead : (g.ghosts j).isAlive with
      | true => rfl
      | false =>
        have hhome := hs.homes.dead j hdead
        rw [hpos, hs.homes.spawnPoint, hs.homes.spawnPoint] at hhome
        exact absurd hhome (ghostSpawns_injective level hji.symm)
    · rw [heaten.2, (hghost j hji).position, hpos]

theorem walked_pellet {p : Point} (h : (walked g).map p = '.') : g.map p = '.' := by
  rw [walked_map] at h
  split at h
  · exact h
  · split at h
    · cases h
    · split at h
      · cases h
      · exact h

theorem Clean.walked (h : Clean g) : Clean (walked g) := by
  intro i hc
  rw [(walked_ghosts g i).position] at hc
  exact h i (walked_pellet hc)

theorem Eats.target_open (hb : Board level g) (he : Eats g i) : g.map (target g) ≠ '#' := by
  rw [← he.1.1]
  exact fun hw => (hb.ghosts i).2 ((hb.walls _ (hb.ghosts i).1).mp hw)

theorem Eats.walked_map (hb : Board level g) (he : Eats g i) :
    (walked g).map ((walked g).ghosts i).position ≠ '.' := by
  rw [(walked_ghosts g i).position, he.1.1, Game.walked_map, if_neg (he.target_open hb), if_pos rfl]
  decide

theorem Clean.pacmanMoved (h : Clean g) (hs : Settled level g) (hk : KeepsPellets g) :
    Clean (pacmanMoved g) := by
  intro j
  rcases meal_cases hs with ⟨_, hsame, hmap⟩ | ⟨i, hi, _, _, he⟩
  · rw [(hsame j).position, hmap]
    exact fun hc => h j (walked_pellet hc)
  · rw [he, eatGhost_ghosts]
    split
    · intro hc
      apply (hk.2 i hi).1
      rw [← (walked_ghosts g i).spawnPoint]
      exact walked_pellet hc
    · exact h.walked j

theorem Fresh.pacmanMoved (h : Fresh g) : Game.pacmanMoved g = Game.walked g := by
  apply collide_of_alone
  intro i hi
  exact h.away i (meets_walked.mp hi).1

theorem cleaned_pacmanMoved (hs : Settled level g) (hr : Clean g ∨ Fresh g) (hk : KeepsPellets g) :
    ∃ m₁, HasMode (pacmanMoved g) m₁ ∧ Cleaned (List.finRange numGhosts) (pacmanMoved g) ∧
      (m₁.behaviour = .still → Clean (pacmanMoved g)) := by
  obtain ⟨m, hm, _⟩ := hs.modes
  rcases hr with hclean | hfresh
  · obtain ⟨m₁, hm₁, _⟩ := hm.pacmanMoved
    have hc := hclean.pacmanMoved hs hk
    exact ⟨m₁, hm₁, fun i => .inr (hc i), fun _ => hc⟩
  · rw [hfresh.pacmanMoved]
    refine ⟨_, hm.walked, fun i => .inl ⟨List.mem_finRange i, ?_⟩, fun hstill => ?_⟩
    · exact (walked_ghosts g i).isAlive.trans (hfresh.isAlive i)
    · split at hstill
      · cases hstill
      · exact absurd ((hm.behaviour 0).trans hstill) (hfresh.moving 0)

/-- The meal itself loses the pellet at the home of the eaten ghost. -/
theorem phi_meal (hs : Settled level g) :
    phi (pacmanMoved g) ≤ phi (walked g) ∧
    ((∀ i, Eats g i → ¬ LoosePellet (walked g) (g.ghosts i).spawnPoint) →
      phi (pacmanMoved g) = phi (walked g)) ∧
    ∀ i, Eats g i → LoosePellet (walked g) (g.ghosts i).spawnPoint →
      phi (pacmanMoved g) < phi (walked g) := by
  rcases meal_cases hs with ⟨hno, hsame, hmap⟩ | ⟨i, hi, honly, _, he⟩
  · have hphi : phi (pacmanMoved g) = phi (walked g) := by
      apply phi_congr hmap
      · intro i
        rw [(hsame i).position, (walked_ghosts g i).position]
      · intro i
        rw [(hsame i).tile, (walked_ghosts g i).tile]
    exact ⟨hphi.le, fun _ => hphi, fun i hi => absurd hi (hno i)⟩
  · have hpos : InBounds ((walked g).ghosts i).position := by
      rw [(walked_ghosts g i).position]
      exact (hs.board.ghosts i).1
    have hspawn : InBounds ((walked g).ghosts i).spawnPoint := by
      rw [(walked_ghosts g i).spawnPoint]
      exact (hs.board.ghostSpawns i).1
    have hphi := phi_eatGhost hpos hspawn (hi.walked_map hs.board)
    rw [← he, (walked_ghosts g i).spawnPoint] at hphi
    refine ⟨by omega, fun hno => ?_, fun j hj hloose => ?_⟩
    · rw [if_neg (hno i hi)] at hphi
      exact hphi
    · rw [honly j hj] at hloose
      rw [if_pos hloose] at hphi
      omega

theorem phi_frame_kept {draws : List Nat} {g' : GameState} (hl : level < numLevels)
    (hs : Settled level g) (hr : Clean g ∨ Fresh g) (hk : KeepsPellets g)
    (hf : updateGameState g draws = .ok g') :
    phi g' + pelletsScored g = phi g ∧ Clean g' := by
  obtain ⟨m₁, hm₁, hcleaned, hstill⟩ := cleaned_pacmanMoved hs hr hk
  have hno : ∀ j, ¬ Leaves (pacmanMoved g) j := by
    intro j hj
    rcases meal_cases hs with ⟨_, hsame, _⟩ | ⟨i, hi, _, _, he⟩
    · obtain ⟨halive, _, k, hdead, hpos⟩ := hj
      have hkj : k ≠ j := by
        rintro rfl
        cases halive.symm.trans hdead
      apply hs.apart k j hkj
      rw [← (hsame k).position, ← (hsame j).position, hpos]
    · obtain ⟨hji, hpos, htile⟩ := (leaves_iff hs he j).mp hj
      exact (hk.2 i hi).2 j hji hpos htile
  obtain ⟨hphi, hclean⟩ := phi_kept hl hs.board hm₁ (liveApart_pacmanMoved hs) hno hcleaned hstill hf
  have hmeal : phi (pacmanMoved g) = phi (walked g) := by
    apply (phi_meal hs).2.1
    intro i hi hloose
    exact (hk.2 i hi).1 (walked_pellet hloose.1)
  have hwalk := phi_walk hs.board hl hr
  rw [if_neg (fun h => hk.1 h.1 h.2)] at hwalk
  exact ⟨by omega, hclean⟩

theorem phi_frame_lost {draws : List Nat} {g' : GameState} (hl : level < numLevels)
    (hs : Settled level g) (hr : Clean g ∨ Fresh g) (hk : ¬ KeepsPellets g)
    (hf : updateGameState g draws = .ok g') : phi g' + pelletsScored g < phi g := by
  obtain ⟨hle, hlt⟩ := phi_lost hl hs.board (liveApart_pacmanMoved hs) hf
  obtain ⟨hmeal, _, hloses⟩ := phi_meal hs
  have hwalk := phi_walk hs.board hl hr
  by_cases hown : g.map (target g) ≠ '#' ∧ g.map g.pacman.position = '.'
  · rw [if_pos hown] at hwalk
    omega
  · rw [if_neg hown] at hwalk
    have hfirst : g.map (target g) ≠ '#' → g.map g.pacman.position ≠ '.' :=
      fun hw hp => hown ⟨hw, hp⟩
    have hsecond : ∃ i, Eats g i ∧ (g.map (g.ghosts i).spawnPoint = '.' ∨ ∃ j, j ≠ i ∧
        (g.ghosts j).position = (g.ghosts i).spawnPoint ∧ (g.ghosts j).tile = '.') := by
      by_contra hnone
      refine hk ⟨hfirst, fun i hi => ⟨fun hc => ?_, fun j hj hpos htile => ?_⟩⟩
      · exact hnone ⟨i, hi, .inl hc⟩
      · exact hnone ⟨i, hi, .inr ⟨j, hj, hpos, htile⟩⟩
    obtain ⟨i, hi, hcases⟩ := hsecond
    rcases meal_cases hs with ⟨hnobody, _⟩ | ⟨k, hk', honly, hboosted, he⟩
    · exact absurd hi (hnobody i)
    cases honly i hi
    have hclean : Clean g := by
      rcases hr with hclean | hfresh
      · exact hclean
      · exact absurd hi.1.1 (hfresh.away i)
    rcases hcases with hpellet | ⟨j, hji, hpos, htile⟩
    · have hloose : LoosePellet (walked g) (g.ghosts i).spawnPoint := by
        refine ⟨?_, (walked_positions g _).mpr fun j hj => hclean j (hj ▸ hpellet)⟩
        have htarget : (g.ghosts i).spawnPoint ≠ target g := by
          intro hc
          rw [hc, ← hi.1.1] at hpellet
          exact hclean i hpellet
        have hposition : (g.ghosts i).spawnPoint ≠ g.pacman.position := by
          intro hc
          rw [hc] at hpellet
          exact hfirst (hi.target_open hs.board) hpellet
        rw [walked_map, if_neg (hi.target_open hs.board), if_neg htarget, if_neg hposition]
        exact hpellet
      have := hloses i hi hloose
      omega
    · obtain ⟨m, hm, hcalm⟩ := hs.modes
      obtain ⟨m₁, hm₁, hchange⟩ := hm.pacmanMoved
      have hcalm₁ : m₁.Calm := by
        apply calm_of_changes hchange.to_reflTransGen
        split
        · exact .boost m
        · exact hcalm
      have hmoves : ∀ i, ((pacmanMoved g).ghosts i).behaviour ≠ .still := by
        intro i hstill
        have := (hcalm₁.still ((hm₁.behaviour i).symm.trans hstill)).1
        cases (hm₁.boosted.symm.trans hboosted).symm.trans this
      have := hlt j hmoves ((leaves_iff hs he j).mpr ⟨hji, hpos, htile⟩)
      omega

end Frames

section Rounds
variable {level lives score : Nat} {g : GameState}

/-- The ghosts are on no pellet, or the round has not begun. -/
def Ready (g : GameState) : Prop := Clean g ∨ ∀ input, Fresh (processInput g input)

theorem ghosts_start_away (hl : level < numLevels) (i : Fin numGhosts) (d : Direction) :
    ghostSpawns level i ≠ nextPosition (pacmanSpawn level) d := by
  have hcases : level = 0 ∨ level = 1 := by
    simp only [numLevels] at hl
    omega
  rcases hcases with rfl | rfl
  · cases d <;> revert i <;> decide
  · cases d <;> revert i <;> decide

theorem initialState_ready (hl : level < numLevels) : Ready (initialState level lives score) := by
  refine .inr fun input => ⟨fun _ => rfl, (fun _ h => nomatch h), ?_, ?_⟩
  · have hown : (initialState level lives score).map (pacmanSpawn level) = 'C' := by
      simp [initialState]
    intro hc
    cases hown.symm.trans hc
  · intro i
    exact ghosts_start_away hl i (inputDirection input)

theorem Ready.processInput (h : Ready g) (input : Char) :
    Clean (processInput g input) ∨ Fresh (processInput g input) := by
  rcases h with hclean | hfresh
  · exact .inl hclean
  · exact .inr (hfresh input)

def KeepsPelletsIn (g : GameState) (f : Frame) : Prop := KeepsPellets (processInput g f.input)

instance (g : GameState) (f : Frame) : Decidable (KeepsPelletsIn g f) :=
  inferInstanceAs (Decidable (KeepsPellets _))

theorem PlayedUnder.ready (hl : level < numLevels) {frames : List Frame}
    (h : PlayedUnder KeepsPelletsIn level lives score frames g) : Settled level g ∧ Ready g := by
  refine h.rule (I := fun g => Settled level g ∧ Ready g) hl ?_ ?_
  · exact ⟨initialState_settled hl, initialState_ready hl⟩
  · rintro g f g' ⟨hs, hr⟩ hk hf
    refine ⟨hs.playFrame hl hf, .inl ?_⟩
    exact (phi_frame_kept hl (hs.processInput f.input) (hr.processInput f.input) hk hf).2

theorem phi_processInput (g : GameState) (input : Char) : phi (processInput g input) = phi g := rfl

theorem phi_playFrame (hl : level < numLevels) {frames : List Frame}
    (h : PlayedUnder KeepsPelletsIn level lives score frames g) {f : Frame} {g' : GameState}
    (hf : playFrame g f = .ok g') :
    phi g' + pelletsScored (processInput g f.input) = phi g ↔ KeepsPelletsIn g f := by
  obtain ⟨hs, hr⟩ := h.ready hl
  have hs' := hs.processInput f.input
  have hr' := hr.processInput f.input
  rw [← phi_processInput g f.input]
  by_cases hk : KeepsPelletsIn g f
  · exact iff_of_true (phi_frame_kept hl hs' hr' hk hf).1 hk
  · exact iff_of_false (phi_frame_lost hl hs' hr' hk hf).ne hk

/-- As long as no frame of a round has lost a pellet, the next one takes away exactly
the pellets it scores, unless Pacman erases a pellet from his own cell or eats a
ghost with a pellet at its home. -/
theorem pellets_scored_iff (hl : level < numLevels) (frames : List Frame) (g : GameState)
    (h : PlayedUnder KeepsPelletsIn level lives score frames g) (f : Frame) (g' : GameState)
    (hf : playFrame g f = .ok g') :
    phi g' + pelletsScored (processInput g f.input) = phi g ↔
      KeepsPellets (processInput g f.input) :=
  phi_playFrame hl h hf

theorem pellets_scored_iff_booster : ∃ g g', PlayedUnder KeepsPelletsIn 0 3 0 boosterRun g ∧
    playFrame g ⟨'a', [1, 1, 1, 1]⟩ = .ok g' ∧
    phi g' + pelletsScored (processInput g 'a') = phi g := by
  have hrun : checkRun KeepsPelletsIn
      (fun g => checkRun KeepsPelletsIn (fun _ => True) [⟨'a', [1, 1, 1, 1]⟩] g = true)
      boosterRun (initialState 0 3 0) = true := by
    decide +kernel
  obtain ⟨g, hg, hnext⟩ := PlayedUnder.of_check (by decide) hrun
  obtain ⟨g', hk, hplay, _⟩ := checkRun_sound hnext
  rw [play, List.foldlM_cons] at hplay
  obtain ⟨g'', hf, he⟩ := bind_eq_ok.mp hplay
  cases he
  exact ⟨g, g', hg, hf, (pellets_scored_iff (by decide) boosterRun g hg _ g' hf).mpr hk.1⟩

/-- With the booster, Pacman goes to meet ghost 0 on its way out. -/
def mealRun : List Frame :=
  upAndDown ((List.replicate 6 's' ++ List.replicate 3 'd' ++ List.replicate 12 'a').zip
    (0 :: (List.replicate 13 2 ++ List.replicate 5 1 ++ List.replicate 2 3)))

/-- The ghost goes home and covers the pellet there. -/
theorem meal_loses_pellet : ∃ g g', Played 0 3 0 mealRun g ∧
    playFrame g ⟨' ', [1, 1, 1]⟩ = .ok g' ∧
    phi g' + pelletsScored (processInput g ' ') ≠ phi g := by
  have hrun : checkRun KeepsPelletsIn
      (fun g => checkRun (fun _ _ => True) (fun _ => True) [⟨' ', [1, 1, 1]⟩] g = true ∧
        ¬ KeepsPelletsIn g ⟨' ', [1, 1, 1]⟩)
      mealRun (initialState 0 3 0) = true := by
    decide +kernel
  obtain ⟨g, hg, hnext, hlost⟩ := PlayedUnder.of_check (by decide) hrun
  obtain ⟨g', _, hplay, _⟩ := checkRun_sound hnext
  rw [play, List.foldlM_cons] at hplay
  obtain ⟨g'', hf, he⟩ := bind_eq_ok.mp hplay
  cases he
  have hiff := phi_playFrame (by decide) hg hf
  obtain ⟨start, hstart, _, hrun⟩ := hg
  exact ⟨g, g', ⟨start, hstart, hrun⟩, hf, fun he => hlost (hiff.mp he)⟩

def pelletsEaten : List Frame → GameState → Nat
  | [], _ => 0
  | f :: frames, g => pelletsScored (processInput g f.input) +
    match playFrame g f with
    | .ok g' => pelletsEaten frames g'
    | .error _ => 0

def EatsNothing (g : GameState) (f : Frame) : Prop := ¬ EatsPellet (processInput g f.input)

instance (g : GameState) (f : Frame) : Decidable (EatsNothing g f) :=
  inferInstanceAs (Decidable (¬ _))

theorem pelletsEaten_cons (f : Frame) (frames : List Frame) (g : GameState) :
    pelletsEaten (f :: frames) g = pelletsScored (processInput g f.input) +
      match playFrame g f with
      | .ok g' => pelletsEaten frames g'
      | .error _ => 0 := rfl

theorem pelletsEaten_eq_zero {frames : List Frame} {g g' : GameState}
    (h : play frames g = .ok g') : pelletsEaten frames g = 0 ↔ Along EatsNothing frames g := by
  induction frames generalizing g with
  | nil => exact iff_of_true rfl trivial
  | cons f frames ih =>
    rw [play, List.foldlM_cons] at h
    obtain ⟨g₁, hf, h⟩ := bind_eq_ok.mp h
    rw [pelletsEaten_cons, hf, Nat.add_eq_zero_iff, Along]
    refine and_congr ?_ ?_
    · rw [pelletsScored, EatsNothing]
      split
      · rename_i hp
        exact iff_of_false (by decide) (fun hno => hno hp)
      · rename_i hp
        exact iff_of_true rfl hp
    · refine (ih h).trans ⟨fun halong g₂ h₂ => ?_, fun halong => halong g₁ hf⟩
      cases hf.symm.trans h₂
      exact halong

theorem pacmanMoved_pelletsRemaining (g : GameState) :
    (pacmanMoved g).pelletsRemaining = g.pelletsRemaining := by
  rw [← walked_pelletsRemaining g]
  rcases pacmanMoved_cases g with ⟨_, he⟩ | ⟨_, _, he⟩ | ⟨_, _, hate, _⟩
  · rw [he]
  · rw [he]
    rfl
  · exact hate.pelletsRemaining

/-- No statement of the game decrements the counter. -/
theorem Played.pelletsRemaining (hl : level < numLevels) {frames : List Frame}
    (h : Played level lives score frames g) : g.pelletsRemaining = initialPellets level := by
  refine (h.rule (I := fun g => Board level g ∧ g.pelletsRemaining = initialPellets level) hl
    ⟨initialState_board hl, rfl⟩ ?_).2
  rintro g f g' ⟨hb, hcount⟩ hf
  obtain ⟨_, _, hkept, _⟩ :=
    updateGameState_account hl (hb.congr (processInput_same g f.input)) hf
  exact ⟨hb.playFrame hl hf, hkept.trans ((pacmanMoved_pelletsRemaining _).trans hcount)⟩

theorem initialPellets_pos (level : Nat) : 0 < initialPellets level := by
  unfold initialPellets
  split <;> decide

/-- The counter tells what is left, and ends the round in time, exactly in the rounds
where Pacman eats nothing; and no round is ever over. -/
theorem counter_right_iff (hl : level < numLevels) (frames : List Frame) (start g : GameState)
    (hstart : initializeRound level lives score = .ok start) (hplay : play frames start = .ok g) :
    ((g.pelletsRemaining + pelletsEaten frames start = start.pelletsRemaining ∧
      (pelletsEaten frames start = start.pelletsRemaining → isRoundOver g = true)) ↔
        Along EatsNothing frames start) ∧
    isRoundOver g = false := by
  have hcount := Played.pelletsRemaining hl ⟨start, hstart, hplay⟩
  have hinit : start.pelletsRemaining = initialPellets level := by
    cases (initializeRound_eq hl).symm.trans hstart
    rfl
  have hpos := initialPellets_pos level
  rw [← pelletsEaten_eq_zero hplay, hcount, hinit]
  refine ⟨⟨fun h => by omega, fun h => ⟨by omega, fun he => by omega⟩⟩, ?_⟩
  rw [isRoundOver, hcount]
  exact decide_eq_false (by omega)

theorem counter_right_iff_waiting : ∃ start g, initializeRound 0 3 0 = .ok start ∧
    play [⟨' ', [0, 0, 0, 0]⟩] start = .ok g ∧
    g.pelletsRemaining + pelletsEaten [⟨' ', [0, 0, 0, 0]⟩] start = start.pelletsRemaining := by
  have hrun : checkRun EatsNothing (fun _ => True) [⟨' ', [0, 0, 0, 0]⟩] (initialState 0 3 0) = true := by
    decide +kernel
  obtain ⟨g, ⟨start, hstart, halong, hplay⟩, _⟩ := PlayedUnder.of_check (by decide) hrun
  have hright := (counter_right_iff (by decide) _ start g hstart hplay).1.mpr halong
  exact ⟨start, g, hstart, hplay, hright.1⟩

/-- One step down on the first level. -/
theorem pellet_not_counted : ∃ start g, initializeRound 0 3 0 = .ok start ∧
    play [⟨'s', [0, 0, 0, 0]⟩] start = .ok g ∧
    g.pelletsRemaining + pelletsEaten [⟨'s', [0, 0, 0, 0]⟩] start ≠ start.pelletsRemaining := by
  have hl : 0 < numLevels := by decide
  have hrun : checkRun (fun _ _ => True) (fun _ => True) [⟨'s', [0, 0, 0, 0]⟩] (initialState 0 3 0) =
      true := by
    decide +kernel
  obtain ⟨g, ⟨start, hstart, hplay⟩, _⟩ := Played.of_check hl hrun
  have hcount := Played.pelletsRemaining hl ⟨start, hstart, hplay⟩
  cases (initializeRound_eq hl).symm.trans hstart
  have heaten : pelletsEaten [⟨'s', [0, 0, 0, 0]⟩] (initialState 0 3 0) = 1 := by decide +kernel
  have hinit : (initialState 0 3 0).pelletsRemaining = initialPellets 0 := rfl
  refine ⟨_, g, hstart, hplay, ?_⟩
  rw [hcount, heaten, hinit]
  omega

end Rounds

end Zeos.Game
