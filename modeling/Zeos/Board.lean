import Zeos.Pacman

/-!
# The board of the game

What one frame can do, and that it stays on the board. Nothing in the source
compares a coordinate with the size of the map before it is used: the walls
around both maps keep all figures inside, and nobody ever writes on a wall.
-/

namespace Zeos.Game

open Loops
set_option autoImplicit false

def Open (level : Nat) (p : Point) : Prop := InBounds p ∧ predefinedMaps level p ≠ some '#'

instance (level : Nat) (p : Point) : Decidable (Open level p) := inferInstanceAs (Decidable (_ ∧ _))

structure Interior (p : Point) : Prop where
  left : 1 ≤ p.x
  right : p.x + 1 < mapWidth
  top : 1 ≤ p.y
  bottom : p.y + 1 < mapHeight

/-- The first and the last row and column are walls. -/
def Walled (level : Nat) : Prop :=
  (∀ x < mapWidth, ∀ y ∈ [0, mapHeight - 1], predefinedMaps level ⟨x, y⟩ = some '#') ∧
  (∀ y < mapHeight, ∀ x ∈ [0, mapWidth - 1], predefinedMaps level ⟨x, y⟩ = some '#')

instance (level : Nat) : Decidable (Walled level) := inferInstanceAs (Decidable (_ ∧ _))

theorem walled_zero : Walled 0 := by decide +kernel

theorem walled_one : Walled 1 := by decide +kernel

theorem walled {level : Nat} (hl : level < numLevels) : Walled level := by
  have hcases : level = 0 ∨ level = 1 := by
    simp only [numLevels] at hl
    omega
  rcases hcases with rfl | rfl
  · exact walled_zero
  · exact walled_one

theorem Open.interior {level : Nat} (hl : level < numLevels) {p : Point} (h : Open level p) :
    Interior p := by
  obtain ⟨⟨hx, hy⟩, hne⟩ := h
  obtain ⟨hrows, hcols⟩ := walled hl
  have hx0 : p.x ≠ 0 := fun he => hne (by simpa [← he] using hcols p.y hy 0 (by simp))
  have hx1 : p.x ≠ mapWidth - 1 := by
    intro he
    exact hne (by simpa [← he] using hcols p.y hy (mapWidth - 1) (by simp))
  have hy0 : p.y ≠ 0 := fun he => hne (by simpa [← he] using hrows p.x hx 0 (by simp))
  have hy1 : p.y ≠ mapHeight - 1 := by
    intro he
    exact hne (by simpa [← he] using hrows p.x hx (mapHeight - 1) (by simp))
  simp only [mapWidth, mapHeight] at hx hy hx1 hy1
  have hright : p.x + 1 < 80 := by omega
  have hbottom : p.y + 1 < 24 := by omega
  exact ⟨by omega, hright, by omega, hbottom⟩

theorem uint32_of_lt {x : Int} (hl : 0 ≤ x) (hu : x < 4294967296) : uint32 x = x.toNat := by
  unfold uint32
  omega

theorem Interior.next {p : Point} (h : Interior p) (d : Direction) :
    nextPosition p d = match d with
      | .up => ⟨p.x, p.y - 1⟩
      | .down => ⟨p.x, p.y + 1⟩
      | .left => ⟨p.x - 1, p.y⟩
      | .right => ⟨p.x + 1, p.y⟩
      | .none => p := by
  obtain ⟨h1, h2, h3, h4⟩ := h
  simp only [mapWidth, mapHeight] at h2 h4
  cases d with
  | none => rfl
  | up | down | left | right =>
    simp only [nextPosition, Point.mk.injEq, true_and, and_true]
    rw [uint32_of_lt (by omega) (by omega)]
    omega

theorem Interior.next_ne {p : Point} (h : Interior p) {d : Direction} (hd : d ≠ .none) :
    nextPosition p d ≠ p := by
  rw [h.next d]
  obtain ⟨h1, _, h3, _⟩ := h
  obtain ⟨x, y⟩ := p
  simp only at h1 h3
  cases d with
  | none => exact absurd rfl hd
  | up | down | left | right =>
    simp only [ne_eq, Point.mk.injEq]
    omega

/-- The ghosts' idea of up and down is the other one. -/
def mirrored : Direction → Direction
  | .up => .down
  | .down => .up
  | d => d

theorem getNextPoint_eq (p : Point) (d : Direction) : getNextPoint p d = nextPosition p (mirrored d) := by
  cases d <;> rfl

theorem Interior.next_inBounds {p : Point} (h : Interior p) (d : Direction) :
    InBounds (nextPosition p d) := by
  rw [h.next d]
  obtain ⟨h1, h2, h3, h4⟩ := h
  simp only [InBounds, mapWidth, mapHeight] at *
  cases d <;> constructor <;> simp only <;> omega

section Accesses
variable {g : GameState} {p : Point}

theorem readMap_of (h : InBounds p) : readMap g p = .ok (g.map p) := if_pos h

theorem writeMap_of (h : InBounds p) (c : Char) : writeMap g p c = .ok (setMap g p c) := if_pos h

theorem isWall_of (h : InBounds p) : isWall g p = .ok (g.map p == '#') := by
  simp [isWall, readMap_of h]

theorem isPellet_of (h : InBounds p) : isPellet g p = .ok (g.map p == '.') := by
  simp [isPellet, readMap_of h]

theorem isBooster_of (h : InBounds p) : isBooster g p = .ok (g.map p == '*') := by
  simp [isBooster, readMap_of h]

theorem isEmpty_of (h : InBounds p) : isEmpty g p = .ok (g.map p == ' ') := by
  simp [isEmpty, readMap_of h]

theorem equalPoints_iff (a b : Point) : equalPoints a b = true ↔ a = b := by
  cases a
  cases b
  simp [equalPoints]

theorem isGhost_iff : isGhost g p = true ↔ ∃ i, (g.ghosts i).position = p := by
  simp [isGhost, equalPoints_iff]

theorem isGhost_false : isGhost g p = false ↔ ∀ i, (g.ghosts i).position ≠ p := by
  rw [Bool.eq_false_iff, ne_eq, isGhost_iff]
  simp

end Accesses

section PacmanMoves
variable {g : GameState} {n : Point}

/-- What Pacman finds on the cell `n`, after he has erased himself. -/
def item (g : GameState) (n : Point) : Char := Function.update g.map g.pacman.position ' ' n

/-- The game once Pacman has entered the cell `n`. -/
def entered (g : GameState) (n : Point) : GameState :=
  let moved := setPosition (setMap g g.pacman.position ' ') n
  setMap (if item g n = '.' then addScore moved pelletPoints
    else if item g n = '*' then boostPacman (addScore moved boosterPoints)
    else moved) n 'C'

theorem enterCell_eq (hpos : InBounds g.pacman.position) (hn : InBounds n) :
    enterCell g n = .ok (entered g n) := by
  have hitem : (setPosition (setMap g g.pacman.position ' ') n).map n = item g n := rfl
  have hdraw : ∀ g₁ : GameState, g₁.pacman.position = n →
      writeMap g₁ g₁.pacman.position 'C' = .ok (setMap g₁ n 'C') := by
    intro g₁ h₁
    rw [h₁]
    exact writeMap_of hn _
  simp only [enterCell, writeMap_of hpos, ok_bind, isPellet_of hn, isBooster_of hn, removeItem,
    writeMap_of hn, hitem, pure_eq_ok, entered, beq_iff_eq]
  by_cases hp : item g n = '.'
  · simp only [hp, if_true]
    apply (hdraw _ rfl).trans
    simp [setMap, addScore, setPosition]
  · by_cases hb : item g n = '*'
    · simp only [hb, if_true]
      apply (hdraw _ rfl).trans
      simp [setMap, addScore, setPosition, boostPacman, changeGhostsBehaviour]
    · simp only [hp, hb, if_false]
      exact hdraw _ rfl

def Meets (g : GameState) (n : Point) (i : Fin numGhosts) : Prop :=
  (g.ghosts i).position = n ∧ (g.ghosts i).isAlive = true

instance (g : GameState) (n : Point) (i : Fin numGhosts) : Decidable (Meets g n i) :=
  inferInstanceAs (Decidable (_ ∧ _))

theorem meets_iff {i : Fin numGhosts} :
    (equalPoints (g.ghosts i).position n && (g.ghosts i).isAlive) = true ↔ Meets g n i := by
  rw [Bool.and_eq_true, equalPoints_iff]
  rfl

theorem collide_cons (i : Fin numGhosts) (rest : List (Fin numGhosts)) :
    collide n (i :: rest) g = if Meets g n i then
      if g.pacman.isBoosted then collide n rest (eatGhost g i) else losePacman g
    else collide n rest g := by
  by_cases hm : Meets g n i
  · rw [collide, if_pos (meets_iff.mpr hm), if_pos hm]
  · rw [collide, if_neg (fun h => hm (meets_iff.mp h)), if_neg hm]

theorem collide_of_alone (l : List (Fin numGhosts)) (h : ∀ i, ¬ Meets g n i) :
    collide n l g = g := by
  induction l with
  | nil => rfl
  | cons i rest ih => rw [collide_cons, if_neg (h i), ih]

theorem collide_unboosted (hb : g.pacman.isBoosted = false) (l : List (Fin numGhosts)) :
    collide n l g = if ∃ i ∈ l, Meets g n i then losePacman g else g := by
  induction l with
  | nil => simp [collide]
  | cons i rest ih =>
    rw [collide_cons]
    by_cases hm : Meets g n i
    · simp [hm, hb]
    · rw [if_neg hm, ih]
      simp [hm]

def eaten (ghost : Ghost) : Ghost :=
  { ghost with position := ghost.spawnPoint, deadTimer := respawnTime, isAlive := false }

/-- What a boosted Pacman leaves alone. -/
structure AteGhosts (g g' : GameState) : Prop where
  pacman : g'.pacman = g.pacman
  lives : g'.lives = g.lives
  pelletsRemaining : g'.pelletsRemaining = g.pelletsRemaining
  map : g'.map = g.map

theorem eatGhost_ghosts (g : GameState) (i j : Fin numGhosts) :
    (eatGhost g i).ghosts j = if j = i then eaten (g.ghosts i) else g.ghosts j := by
  by_cases hj : j = i
  · subst hj
    simp [eatGhost, addScore, setGhost, eaten]
  · simp [eatGhost, addScore, setGhost, hj]

theorem collide_single (hb : g.pacman.isBoosted = true) {i : Fin numGhosts} (hi : Meets g n i)
    (honly : ∀ j, Meets g n j → j = i) {l : List (Fin numGhosts)} (hmem : i ∈ l) :
    collide n l g = eatGhost g i := by
  have halone : ∀ j, ¬ Meets (eatGhost g i) n j := by
    rintro j ⟨hpos, halive⟩
    rw [eatGhost_ghosts] at hpos halive
    split at halive
    · cases halive
    · rename_i hj
      rw [if_neg hj] at hpos
      exact hj (honly j ⟨hpos, halive⟩)
  induction l with
  | nil => cases hmem
  | cons j rest ih =>
    rw [collide_cons]
    by_cases hj : j = i
    · subst hj
      rw [if_pos hi, if_pos hb]
      exact collide_of_alone rest halone
    · rw [if_neg fun hm => hj (honly j hm)]
      exact ih ((List.mem_cons.mp hmem).resolve_left (Ne.symm hj))

theorem collide_boosted (hb : g.pacman.isBoosted = true) (l : List (Fin numGhosts)) :
    AteGhosts g (collide n l g) ∧ ∀ j, (collide n l g).ghosts j =
      if j ∈ l ∧ Meets g n j then eaten (g.ghosts j) else g.ghosts j := by
  induction l generalizing g with
  | nil => exact ⟨⟨rfl, rfl, rfl, rfl⟩, by simp [collide]⟩
  | cons i rest ih =>
    rw [collide_cons]
    by_cases hm : Meets g n i
    · rw [if_pos hm, if_pos hb]
      obtain ⟨hsame, hghosts⟩ := ih (g := eatGhost g i) hb
      refine ⟨⟨hsame.pacman, hsame.lives, hsame.pelletsRemaining, hsame.map⟩, ?_⟩
      intro j
      rw [hghosts j, eatGhost_ghosts]
      by_cases hj : j = i
      · subst hj
        have hdead : ¬ Meets (eatGhost g j) n j := by
          rintro ⟨_, halive⟩
          rw [eatGhost_ghosts, if_pos rfl] at halive
          cases halive
        simp [hm, hdead]
      · have hiff : Meets (eatGhost g i) n j ↔ Meets g n j := by
          unfold Meets
          rw [eatGhost_ghosts, if_neg hj]
        simp [hj, hiff]
    · rw [if_neg hm]
      obtain ⟨hsame, hghosts⟩ := ih hb
      refine ⟨hsame, ?_⟩
      intro j
      rw [hghosts j]
      by_cases hj : j = i
      · subst hj
        simp [hm]
      · simp [hj]

def target (g : GameState) : Point := nextPosition g.pacman.position g.pacman.direction

/-- The game once Pacman has moved, before the collisions. -/
def walked (g : GameState) : GameState :=
  if g.map (target g) = '#' then g else entered g (target g)

def pacmanMoved (g : GameState) : GameState :=
  collide (target g) (List.finRange numGhosts) (walked g)

theorem updatePacmanPosition_eq (hpos : InBounds g.pacman.position) (hn : InBounds (target g)) :
    updatePacmanPosition g = .ok (pacmanMoved g) := by
  have hcollide : ∀ (g : GameState) (n : Point),
      (if isGhost g n then collide n (List.finRange numGhosts) g else g) =
        collide n (List.finRange numGhosts) g := by
    intro g n
    split
    · rfl
    · rename_i hno
      rw [collide_of_alone]
      intro i hi
      exact hno (isGhost_iff.mpr ⟨i, hi.1⟩)
  have htarget : nextPosition g.pacman.position g.pacman.direction = target g := rfl
  simp only [updatePacmanPosition, htarget, isWall_of hn, ok_bind, enterCell_eq hpos hn, beq_iff_eq,
    pure_eq_ok, hcollide, pacmanMoved, walked]
  split <;> rfl

theorem pacmanMoved_cases (g : GameState) :
    ((∀ i, ¬ Meets (walked g) (target g) i) ∧ pacmanMoved g = walked g) ∨
    ((walked g).pacman.isBoosted = false ∧ (∃ i, Meets (walked g) (target g) i) ∧
      pacmanMoved g = losePacman (walked g)) ∨
    ((walked g).pacman.isBoosted = true ∧ (∃ i, Meets (walked g) (target g) i) ∧
      AteGhosts (walked g) (pacmanMoved g) ∧
      ∀ j, (pacmanMoved g).ghosts j = if Meets (walked g) (target g) j
        then eaten ((walked g).ghosts j) else (walked g).ghosts j) := by
  by_cases hm : ∃ i, Meets (walked g) (target g) i
  · cases hb : (walked g).pacman.isBoosted with
    | false =>
      refine .inr (.inl ⟨rfl, hm, ?_⟩)
      rw [pacmanMoved, collide_unboosted hb]
      exact if_pos (by simpa using hm)
    | true =>
      obtain ⟨hsame, hghosts⟩ := collide_boosted (n := target g) hb (List.finRange numGhosts)
      exact .inr (.inr ⟨rfl, hm, hsame, by simpa [pacmanMoved] using hghosts⟩)
  · have hno : ∀ i, ¬ Meets (walked g) (target g) i := fun i hi => hm ⟨i, hi⟩
    exact .inl ⟨hno, collide_of_alone _ hno⟩

/-- What Pacman's own move leaves of a ghost. -/
structure SameBody (a b : Ghost) : Prop where
  spawnPoint : b.spawnPoint = a.spawnPoint
  position : b.position = a.position
  tile : b.tile = a.tile
  isAlive : b.isAlive = a.isAlive

/-- Pacman on his new cell, before anything there is taken. -/
def stepped (g : GameState) : GameState :=
  setPosition (setMap g g.pacman.position ' ') (target g)

theorem walked_cases (g : GameState) : (g.map (target g) = '#' ∧ walked g = g) ∨
    (g.map (target g) ≠ '#' ∧
      ((item g (target g) = '.' ∧ walked g = setMap (addScore (stepped g) pelletPoints) (target g) 'C') ∨
        (item g (target g) ≠ '.' ∧ item g (target g) = '*' ∧
          walked g = setMap (boostPacman (addScore (stepped g) boosterPoints)) (target g) 'C') ∨
        (item g (target g) ≠ '.' ∧ item g (target g) ≠ '*' ∧
          walked g = setMap (stepped g) (target g) 'C'))) := by
  unfold walked entered
  simp only
  split
  · rename_i hw
    exact .inl ⟨hw, rfl⟩
  · rename_i hw
    refine .inr ⟨hw, ?_⟩
    split
    · rename_i hp
      exact .inl ⟨hp, rfl⟩
    · rename_i hp
      split
      · rename_i hb
        exact .inr (.inl ⟨hp, hb, rfl⟩)
      · rename_i hb
        exact .inr (.inr ⟨hp, hb, rfl⟩)

theorem walked_ghosts (g : GameState) (i : Fin numGhosts) :
    SameBody (g.ghosts i) ((walked g).ghosts i) := by
  rcases walked_cases g with ⟨_, he⟩ | ⟨_, ⟨_, he⟩ | ⟨_, _, he⟩ | ⟨_, _, he⟩⟩
  all_goals
    rw [he]
    exact ⟨rfl, rfl, rfl, rfl⟩

theorem meets_walked {i : Fin numGhosts} : Meets (walked g) n i ↔ Meets g n i := by
  unfold Meets
  rw [(walked_ghosts g i).position, (walked_ghosts g i).isAlive]

theorem walked_position (g : GameState) :
    (walked g).pacman.position =
      if g.map (target g) = '#' then g.pacman.position else target g := by
  rcases walked_cases g with ⟨hw, he⟩ | ⟨hw, ⟨_, he⟩ | ⟨_, _, he⟩ | ⟨_, _, he⟩⟩
  · rw [he, if_pos hw]
  all_goals
    rw [he, if_neg hw]
    rfl

theorem walked_same {α : Type} (f : GameState → α) (g : GameState)
    (hmap : ∀ g p c, f (setMap g p c) = f g) (hpos : ∀ g p, f (setPosition g p) = f g)
    (hscore : ∀ g n, f (addScore g n) = f g) (hboost : ∀ g, f (boostPacman g) = f g) :
    f (walked g) = f g := by
  have hstep : f (stepped g) = f g := (hpos _ _).trans (hmap _ _ _)
  rcases walked_cases g with ⟨_, he⟩ | ⟨_, ⟨_, he⟩ | ⟨_, _, he⟩ | ⟨_, _, he⟩⟩
  · rw [he]
  · rw [he, hmap, hscore, hstep]
  · rw [he, hmap, hboost, hscore, hstep]
  · rw [he, hmap, hstep]

theorem walked_spawnPoint (g : GameState) :
    (walked g).pacman.spawnPoint = g.pacman.spawnPoint :=
  walked_same (·.pacman.spawnPoint) g (fun _ _ _ => rfl) (fun _ _ => rfl) (fun _ _ => rfl)
    (fun _ => rfl)

theorem walked_lives (g : GameState) : (walked g).lives = g.lives :=
  walked_same (·.lives) g (fun _ _ _ => rfl) (fun _ _ => rfl) (fun _ _ => rfl) (fun _ => rfl)

theorem walked_pelletsRemaining (g : GameState) :
    (walked g).pelletsRemaining = g.pelletsRemaining :=
  walked_same (·.pelletsRemaining) g (fun _ _ _ => rfl) (fun _ _ => rfl) (fun _ _ => rfl) (fun _ => rfl)

theorem walked_score (g : GameState) : (walked g).score =
    if g.map (target g) = '#' then g.score
    else if item g (target g) = '.' then uint32 (g.score + pelletPoints)
    else if item g (target g) = '*' then uint32 (g.score + boosterPoints) else g.score := by
  rcases walked_cases g with ⟨hw, he⟩ | ⟨hw, ⟨hp, he⟩ | ⟨hp, hb, he⟩ | ⟨hp, hb, he⟩⟩
  · rw [he, if_pos hw]
  · rw [he, if_neg hw, if_pos hp]
    rfl
  · rw [he, if_neg hw, if_neg hp, if_pos hb]
    rfl
  · rw [he, if_neg hw, if_neg hp, if_neg hb]
    rfl

theorem walked_map (g : GameState) (p : Point) :
    (walked g).map p = if g.map (target g) = '#' then g.map p
      else if p = target g then 'C' else if p = g.pacman.position then ' ' else g.map p := by
  have hmoved : ∀ g₁ : GameState, g₁.map = Function.update g.map g.pacman.position ' ' →
      (setMap g₁ (target g) 'C').map p =
        if p = target g then 'C' else if p = g.pacman.position then ' ' else g.map p := by
    intro g₁ h₁
    simp only [setMap, h₁, Function.update_apply]
  rcases walked_cases g with ⟨hw, he⟩ | ⟨hw, ⟨_, he⟩ | ⟨_, _, he⟩ | ⟨_, _, he⟩⟩
  · rw [he, if_pos hw]
  all_goals
    rw [he, if_neg hw]
    exact hmoved _ rfl

end PacmanMoves

section GhostMoves
variable {g : GameState} {i : Fin numGhosts} {n : Point}

/-- Ghost `i` may go to `n`: a neighbour that is neither wall nor taken. -/
structure CanStep (g : GameState) (i : Fin numGhosts) (n : Point) : Prop where
  near : ∃ d, n = getNextPoint (g.ghosts i).position d
  inBounds : InBounds n
  notWall : g.map n ≠ '#'
  free : ∀ j, (g.ghosts j).position ≠ n

/-- What a ghost keeps of the cell it steps on. -/
def savedTile (c : Char) : Char := if c ≠ ' ' ∧ c ≠ '*' ∧ c ≠ '.' then ' ' else c

/-- The game once ghost `i` has gone to `n`. -/
def ghostMoved (g : GameState) (i : Fin numGhosts) (n : Point) : GameState :=
  { g with
    map := Function.update (Function.update g.map (g.ghosts i).position (g.ghosts i).tile) n
      (ghostIcon i)
    ghosts := Function.update g.ghosts i { g.ghosts i with
      tile := savedTile (g.map n)
      position := n
      direction := .none } }

theorem stepGhost_eq (hpos : InBounds (g.ghosts i).position) (hn : InBounds n)
    (hne : (g.ghosts i).position ≠ n) : stepGhost g i n = .ok (ghostMoved g i n) := by
  have hmap : (setMap g (g.ghosts i).position (g.ghosts i).tile).map n = g.map n := by
    simp [setMap, hne.symm]
  have hghosts : (setMap g (g.ghosts i).position (g.ghosts i).tile).ghosts = g.ghosts := rfl
  simp only [stepGhost, writeMap_of hpos, ok_bind, readMap_of hn, isEmpty_of hn, isBooster_of hn,
    isPellet_of hn, hmap, hghosts, writeMap_of hn, pure_eq_ok]
  simp [ghostMoved, setGhost, setMap, savedTile, determineDirection, and_assoc]

theorem isTaken_of (h : InBounds n) : isTaken g n = .ok (g.map n == '#' || isGhost g n) := by
  simp [isTaken, isWall_of h]

theorem retry_cases (hin : Interior (g.ghosts i).position) (draws : List Nat) (d : Direction) :
    retry g (g.ghosts i).position (getNextPoint (g.ghosts i).position d) draws = .error .needsDraw ∨
    ∃ n rest, retry g (g.ghosts i).position (getNextPoint (g.ghosts i).position d) draws =
      .ok (n, rest) ∧ CanStep g i n := by
  have hbounds : InBounds (getNextPoint (g.ghosts i).position d) := by
    rw [getNextPoint_eq]
    exact hin.next_inBounds _
  have hdone : (g.map (getNextPoint (g.ghosts i).position d) == '#' ||
      isGhost g (getNextPoint (g.ghosts i).position d)) = false →
      CanStep g i (getNextPoint (g.ghosts i).position d) := by
    intro hno
    rw [Bool.or_eq_false_iff, isGhost_false] at hno
    exact ⟨⟨d, rfl⟩, hbounds, by simpa using hno.1, hno.2⟩
  induction draws generalizing d with
  | nil =>
    rw [retry, isTaken_of hbounds, ok_bind]
    split
    · exact .inl rfl
    · rename_i hno
      exact .inr ⟨_, [], rfl, hdone (Bool.eq_false_iff.mpr hno)⟩
  | cons e draws ih =>
    rw [retry, isTaken_of hbounds, ok_bind]
    split
    · have hbounds' : InBounds (getNextPoint (g.ghosts i).position (random e)) := by
        rw [getNextPoint_eq]
        exact hin.next_inBounds _
      apply ih (random e) hbounds'
      intro hno
      rw [Bool.or_eq_false_iff, isGhost_false] at hno
      exact ⟨⟨random e, rfl⟩, hbounds', by simpa using hno.1, hno.2⟩
    · rename_i hno
      exact .inr ⟨_, _, rfl, hdone (Bool.eq_false_iff.mpr hno)⟩

theorem moveGhost_cases (hin : Interior (g.ghosts i).position) (draws : List Nat) :
    moveGhost g i draws = .error .needsDraw ∨
    ∃ n rest, moveGhost g i draws = .ok (ghostMoved g i n, rest) ∧ CanStep g i n := by
  cases draws with
  | nil => exact .inl rfl
  | cons d draws =>
    rcases retry_cases hin draws (random d) with hr | ⟨n, rest, hr, hn⟩
    · exact .inl (by simp only [moveGhost, hr, error_bind])
    · refine .inr ⟨n, rest, ?_, hn⟩
      have hpos : InBounds (g.ghosts i).position := by
        obtain ⟨_, h2, _, h4⟩ := hin
        simp only [InBounds, mapWidth, mapHeight] at *
        omega
      have hvalid : isValidMove g n = .ok true := by
        simp [isValidMove, hn.inBounds, isWall_of hn.inBounds, hn.notWall]
      simp only [moveGhost, hr, ok_bind, hvalid, if_true, stepGhost_eq hpos hn.inBounds (hn.free i),
        pure_eq_ok]

/-- What the loop over the ghosts keeps, if every move of one ghost keeps it; `I`
sees the ghosts still to come. The loop stops early only to wait for a draw. -/
theorem moveGhosts_rule (I : List (Fin numGhosts) → GameState → Prop)
    (hin : ∀ l g, I l g → ∀ i, Interior (g.ghosts i).position)
    (step : ∀ i l g n, I (i :: l) g → (g.ghosts i).isAlive = true →
      (g.ghosts i).behaviour ≠ .still → CanStep g i n → I l (ghostMoved g i n))
    (skip : ∀ i l g, I (i :: l) g → (g.ghosts i).isAlive = false → I l g)
    (l : List (Fin numGhosts)) (draws : List Nat) (h : I l g) :
    moveGhosts l g draws = .error .needsDraw ∨
    ∃ g' rest, moveGhosts l g draws = .ok (g', rest) ∧
      (I [] g' ∨ ∃ i l', I (i :: l') g' ∧ (g'.ghosts i).behaviour = .still) := by
  induction l generalizing g draws with
  | nil => exact .inr ⟨g, draws, rfl, .inl h⟩
  | cons i l ih =>
    rw [moveGhosts]
    split
    · rename_i halive
      split
      · rename_i hstill
        exact .inr ⟨g, draws, rfl, .inr ⟨i, l, h, hstill⟩⟩
      · rename_i hmoves
        rcases moveGhost_cases (hin _ g h i) draws with hm | ⟨n, rest, hm, hn⟩
        · exact .inl (by rw [hm, error_bind])
        · rw [hm, ok_bind]
          exact ih rest (step i l g n h halive hmoves hn)
    · rename_i hdead
      exact ih draws (skip i l g h (Bool.eq_false_iff.mpr hdead))

theorem Turn.rule (I : List (Fin numGhosts) → GameState → Prop)
    (hin : ∀ l g, I l g → ∀ i, Interior (g.ghosts i).position)
    (step : ∀ i l g n, I (i :: l) g → (g.ghosts i).isAlive = true →
      (g.ghosts i).behaviour ≠ .still → CanStep g i n → I l (ghostMoved g i n))
    (skip : ∀ i l g, I (i :: l) g → (g.ghosts i).isAlive = false → I l g)
    {l : List (Fin numGhosts)} {draws : List Nat} {now : GameState} (h : I l g)
    (ht : Turn i now l g draws) :
    (now.ghosts i).isAlive = true ∧ (now.ghosts i).behaviour ≠ .still ∧ ∃ l', I (i :: l') now := by
  induction ht with
  | here rest draws halive hmoves => exact ⟨halive, hmoves, rest, h⟩
  | dead j rest g draws hdead _ ih => exact ih (skip j rest g h hdead)
  | moved j rest g g' draws draws' halive hmoves hm _ ih =>
    apply ih
    rcases moveGhost_cases (hin _ g h j) draws with he | ⟨n, rest', he, hn⟩
    · cases hm.symm.trans he
    · cases hm.symm.trans he
      exact step j rest g n h halive hmoves hn

end GhostMoves

/-- The walls of a map are the ones of the predefined map. -/
def Walls (level : Nat) (map : Point → Char) : Prop :=
  ∀ p, InBounds p → (map p = '#' ↔ predefinedMaps level p = some '#')

theorem Walls.update {level : Nat} {map : Point → Char} (h : Walls level map) {p : Point}
    (hp : predefinedMaps level p ≠ some '#') {c : Char} (hc : c ≠ '#') :
    Walls level (Function.update map p c) := by
  intro q hq
  rw [Function.update_apply]
  split
  · rename_i he
    subst he
    exact iff_of_false hc hp
  · exact h q hq

/-- The walls stand, and no figure is in one. -/
structure Board (level : Nat) (g : GameState) : Prop where
  walls : Walls level g.map
  pacman : Open level g.pacman.position
  pacmanSpawn : Open level g.pacman.spawnPoint
  ghosts : ∀ i, Open level (g.ghosts i).position
  ghostSpawns : ∀ i, Open level (g.ghosts i).spawnPoint
  tiles : ∀ i, (g.ghosts i).tile ∈ [' ', '.', '*']

structure SamePlaces (g g' : GameState) : Prop where
  map : g'.map = g.map
  position : g'.pacman.position = g.pacman.position
  spawnPoint : g'.pacman.spawnPoint = g.pacman.spawnPoint
  ghostPosition : ∀ i, (g'.ghosts i).position = (g.ghosts i).position
  ghostSpawnPoint : ∀ i, (g'.ghosts i).spawnPoint = (g.ghosts i).spawnPoint
  tile : ∀ i, (g'.ghosts i).tile = (g.ghosts i).tile

theorem SamePlaces.trans {g₁ g₂ g₃ : GameState} (h : SamePlaces g₁ g₂) (h' : SamePlaces g₂ g₃) :
    SamePlaces g₁ g₃ where
  map := h'.map.trans h.map
  position := h'.position.trans h.position
  spawnPoint := h'.spawnPoint.trans h.spawnPoint
  ghostPosition i := (h'.ghostPosition i).trans (h.ghostPosition i)
  ghostSpawnPoint i := (h'.ghostSpawnPoint i).trans (h.ghostSpawnPoint i)
  tile i := (h'.tile i).trans (h.tile i)

theorem SamePlaces.rfl {g : GameState} : SamePlaces g g :=
  ⟨Eq.refl _, Eq.refl _, Eq.refl _, fun _ => Eq.refl _, fun _ => Eq.refl _, fun _ => Eq.refl _⟩

theorem updateBoost_same (g : GameState) (t : Nat) : SamePlaces g (updateBoost g t) := by
  unfold updateBoost
  split
  · dsimp only
    split
    · exact ⟨rfl, rfl, rfl, fun _ => rfl, fun _ => rfl, fun _ => rfl⟩
    · exact ⟨rfl, rfl, rfl, fun _ => rfl, fun _ => rfl, fun _ => rfl⟩
  · exact .rfl

theorem updateRespawn_same (g : GameState) (t : Nat) : SamePlaces g (updateRespawn g t) := by
  unfold updateRespawn
  split
  · exact .rfl
  · dsimp only
    split
    · exact ⟨rfl, rfl, rfl, fun _ => rfl, fun _ => rfl, fun _ => rfl⟩
    · exact ⟨rfl, rfl, rfl, fun _ => rfl, fun _ => rfl, fun _ => rfl⟩

theorem updateDead_body (t : Nat) (ghost : Ghost) :
    (updateDead t ghost).position = ghost.position ∧
    (updateDead t ghost).spawnPoint = ghost.spawnPoint ∧
    (updateDead t ghost).tile = ghost.tile ∧
    (updateDead t ghost).behaviour = ghost.behaviour := by
  unfold updateDead
  split
  · exact ⟨rfl, rfl, rfl, rfl⟩
  · exact ⟨rfl, rfl, rfl, rfl⟩

theorem updateTimerState_same (g : GameState) (t : Nat) : SamePlaces g (updateTimerState g t) := by
  have hmodes : SamePlaces g (updateRespawn (updateBoost g t) t) :=
    (updateBoost_same g t).trans (updateRespawn_same _ t)
  apply hmodes.trans
  refine ⟨rfl, rfl, rfl, ?_, ?_, ?_⟩
  · intro i
    exact (updateDead_body t _).1
  · intro i
    exact (updateDead_body t _).2.1
  · intro i
    exact (updateDead_body t _).2.2.1

section Invariant
variable {level : Nat} {g : GameState}

theorem Board.congr {g' : GameState} (h : Board level g) (hs : SamePlaces g g') :
    Board level g' where
  walls := hs.map ▸ h.walls
  pacman := hs.position ▸ h.pacman
  pacmanSpawn := hs.spawnPoint ▸ h.pacmanSpawn
  ghosts i := (hs.ghostPosition i) ▸ h.ghosts i
  ghostSpawns i := (hs.ghostSpawnPoint i) ▸ h.ghostSpawns i
  tiles i := (hs.tile i) ▸ h.tiles i

theorem Board.tile_ne (h : Board level g) (i : Fin numGhosts) : (g.ghosts i).tile ≠ '#' := by
  intro he
  have := h.tiles i
  rw [he] at this
  simp at this

theorem Board.interior (h : Board level g) (hl : level < numLevels) (i : Fin numGhosts) :
    Interior (g.ghosts i).position := (h.ghosts i).interior hl

theorem Board.target_inBounds (h : Board level g) (hl : level < numLevels) : InBounds (target g) :=
  (h.pacman.interior hl).next_inBounds _

theorem savedTile_mem (c : Char) : savedTile c ∈ [' ', '.', '*'] := by
  unfold savedTile
  split
  · simp
  · rename_i hitem
    simp only [not_and_or, ne_eq, not_not] at hitem
    rcases hitem with rfl | rfl | rfl <;> simp

theorem ghostIcon_ne (i : Fin numGhosts) : ghostIcon i ≠ '#' ∧ ghostIcon i ≠ '.' := by
  revert i
  decide

theorem Board.open_of_free (h : Board level g) {p : Point} (hp : InBounds p) (hw : g.map p ≠ '#') :
    Open level p := ⟨hp, fun he => hw ((h.walls p hp).mpr he)⟩

theorem Board.walked (h : Board level g) (hl : level < numLevels) : Board level (walked g) := by
  have hpos : Open level (Game.walked g).pacman.position := by
    rw [walked_position]
    split
    · exact h.pacman
    · exact h.open_of_free (h.target_inBounds hl) (by assumption)
  have hwalls : Walls level (Game.walked g).map := by
    intro p hp
    rw [walked_map]
    split
    · exact h.walls p hp
    · rename_i hw
      split
      · rename_i he
        exact iff_of_false (by decide) (he ▸ (h.open_of_free (h.target_inBounds hl) hw).2)
      · split
        · rename_i he
          exact iff_of_false (by decide) (he ▸ h.pacman.2)
        · exact h.walls p hp
  refine ⟨hwalls, hpos, walked_spawnPoint g ▸ h.pacmanSpawn, ?_, ?_, ?_⟩
  · intro i
    rw [(walked_ghosts g i).position]
    exact h.ghosts i
  · intro i
    rw [(walked_ghosts g i).spawnPoint]
    exact h.ghostSpawns i
  · intro i
    rw [(walked_ghosts g i).tile]
    exact h.tiles i

theorem Board.pacmanMoved (h : Board level g) (hl : level < numLevels) :
    Board level (pacmanMoved g) := by
  have hw := h.walked hl
  rcases pacmanMoved_cases g with ⟨_, he⟩ | ⟨_, _, he⟩ | ⟨_, _, hsame, hghosts⟩
  · rw [he]
    exact hw
  · rw [he]
    exact ⟨hw.walls, hw.pacmanSpawn, hw.pacmanSpawn, hw.ghosts, hw.ghostSpawns, hw.tiles⟩
  · refine ⟨hsame.map ▸ hw.walls, hsame.pacman ▸ hw.pacman, hsame.pacman ▸ hw.pacmanSpawn,
      ?_, ?_, ?_⟩ <;> intro i <;> rw [hghosts i] <;> split
    · exact hw.ghostSpawns i
    · exact hw.ghosts i
    · exact hw.ghostSpawns i
    · exact hw.ghostSpawns i
    · exact hw.tiles i
    · exact hw.tiles i

theorem ghostMoved_ghosts (g : GameState) (i : Fin numGhosts) (n : Point) (j : Fin numGhosts) :
    (ghostMoved g i n).ghosts j = if j = i
      then { g.ghosts i with tile := savedTile (g.map n), position := n, direction := .none }
      else g.ghosts j := by
  simp [ghostMoved, Function.update_apply]

theorem Board.ghostMoved {i : Fin numGhosts} {n : Point} (h : Board level g) (hn : CanStep g i n) :
    Board level (ghostMoved g i n) := by
  have hopen : Open level n := h.open_of_free hn.inBounds hn.notWall
  refine ⟨?_, h.pacman, h.pacmanSpawn, ?_, ?_, ?_⟩
  · exact (h.walls.update (h.ghosts i).2 (h.tile_ne i)).update hopen.2 (ghostIcon_ne i).1
  all_goals
    intro j
    rw [ghostMoved_ghosts]
    split
  · exact hopen
  · exact h.ghosts j
  · exact h.ghostSpawns i
  · exact h.ghostSpawns j
  · exact savedTile_mem _
  · exact h.tiles j

theorem processInput_same (g : GameState) (input : Char) : SamePlaces g (processInput g input) :=
  ⟨rfl, rfl, rfl, fun _ => rfl, fun _ => rfl, fun _ => rfl⟩

/-- One frame on the board: Pacman's part, the ghosts one after the other, the
timers. `I` is followed through the ghosts' part. -/
theorem updateGameState_rule (hl : level < numLevels) (h : Board level g)
    (I : List (Fin numGhosts) → GameState → Prop)
    (hI : I (List.finRange numGhosts) (Game.pacmanMoved g))
    (step : ∀ i l g n, Board level g → I (i :: l) g → (g.ghosts i).isAlive = true →
      (g.ghosts i).behaviour ≠ .still → CanStep g i n → I l (Game.ghostMoved g i n))
    (skip : ∀ i l g, I (i :: l) g → (g.ghosts i).isAlive = false → I l g) (draws : List Nat) :
    updateGameState g draws = .error .needsDraw ∨
    ∃ g₁, updateGameState g draws = .ok (updateTimerState g₁ 100) ∧ Board level g₁ ∧
      (I [] g₁ ∨ ∃ i l, I (i :: l) g₁ ∧ (g₁.ghosts i).behaviour = .still) := by
  have hghosts := moveGhosts_rule (fun l g => Board level g ∧ I l g)
    (fun l g hg i => hg.1.interior hl i)
    (fun i l g n hg halive hmoves hn => ⟨hg.1.ghostMoved hn, step i l g n hg.1 hg.2 halive hmoves hn⟩)
    (fun i l g hg hdead => ⟨hg.1, skip i l g hg.2 hdead⟩)
    (List.finRange numGhosts) draws ⟨h.pacmanMoved hl, hI⟩
  rw [updateGameState, updatePacmanPosition_eq h.pacman.1 (h.target_inBounds hl), ok_bind,
    updateGhostsPositions]
  rcases hghosts with he | ⟨g₁, rest, he, hdone⟩
  · exact .inl (by rw [he, error_bind])
  · refine .inr ⟨g₁, by simp only [he, ok_bind, pure_eq_ok], ?_⟩
    rcases hdone with ⟨hb, hnil⟩ | ⟨i, l, ⟨hb, hcons⟩, hstill⟩
    · exact ⟨hb, .inl hnil⟩
    · exact ⟨hb, .inr ⟨i, l, hcons, hstill⟩⟩

theorem Board.updateGameState_cases (h : Board level g) (hl : level < numLevels) (draws : List Nat) :
    updateGameState g draws = .error .needsDraw ∨
    ∃ g', updateGameState g draws = .ok g' ∧ Board level g' := by
  rcases updateGameState_rule hl h (fun _ _ => True) trivial (fun _ _ _ _ _ _ _ _ _ => trivial)
      (fun _ _ _ _ _ => trivial) draws with he | ⟨g₁, he, hb, _⟩
  · exact .inl he
  · exact .inr ⟨_, he, hb.congr (updateTimerState_same g₁ 100)⟩

theorem Board.playFrame {f : Frame} {g' : GameState} (h : Board level g) (hl : level < numLevels)
    (hf : playFrame g f = .ok g') : Board level g' := by
  rcases (h.congr (processInput_same g f.input)).updateGameState_cases hl f.draws with
    he | ⟨g₁, he, hb⟩
  · cases hf.symm.trans he
  · cases hf.symm.trans he
    exact hb

theorem Board.turn {draws : List Nat} {i : Fin numGhosts} {now : GameState} (h : Board level g)
    (hl : level < numLevels) (ht : GhostTurn g draws i now) : Board level now := by
  obtain ⟨g₁, he, ht⟩ := ht
  rw [updatePacmanPosition_eq h.pacman.1 (h.target_inBounds hl)] at he
  cases he
  obtain ⟨_, _, _, hb⟩ := Turn.rule (fun _ g => Board level g) (fun _ g hg => hg.interior hl)
    (fun i _ g n hg _ _ hn => hg.ghostMoved hn) (fun _ _ _ hg _ => hg) (h.pacmanMoved hl) ht
  exact hb

end Invariant

theorem spawns_open {level : Nat} (hl : level < numLevels) :
    Open level (pacmanSpawn level) ∧ ∀ i, Open level (ghostSpawns level i) := by
  have hzero : Open 0 (pacmanSpawn 0) ∧ ∀ i, Open 0 (ghostSpawns 0 i) := by decide +kernel
  have hone : Open 1 (pacmanSpawn 1) ∧ ∀ i, Open 1 (ghostSpawns 1 i) := by decide +kernel
  have hcases : level = 0 ∨ level = 1 := by
    simp only [numLevels] at hl
    omega
  rcases hcases with rfl | rfl
  · exact hzero
  · exact hone

section Rounds
variable {level lives score : Nat}

def initialState (level lives score : Nat) : GameState where
  pacman := initialPacman (pacmanSpawn level)
  ghosts := initialGhost (ghostSpawns level)
  score := score
  lives := lives
  pelletsRemaining := initialPellets level
  level := level
  map := Function.update (fun p => (predefinedMaps level p).getD '\x00') (pacmanSpawn level) 'C'

theorem initializeRound_eq (hl : level < numLevels) :
    initializeRound level lives score = .ok (initialState level lives score) := by
  unfold initializeRound
  rw [if_pos hl, writeMap_of (spawns_open hl).1.1]
  rfl

theorem initialState_board (hl : level < numLevels) :
    Board level (initialState level lives score) := by
  obtain ⟨hpacman, hghosts⟩ := spawns_open hl
  refine ⟨?_, hpacman, hpacman, hghosts, hghosts, ?_⟩
  · have hcopy : Walls level fun p => (predefinedMaps level p).getD '\x00' := by
      intro p _
      cases hc : predefinedMaps level p with
      | none => simp [hc]
      | some c => simp [hc]
    exact hcopy.update hpacman.2 (by decide)
  · intro i
    simp [initialState, initialGhost]

/-- The frames of a run all satisfy `P`, which sees the state they start in. -/
def Along (P : GameState → Frame → Prop) : List Frame → GameState → Prop
  | [], _ => True
  | f :: frames, g => P g f ∧ ∀ g', playFrame g f = .ok g' → Along P frames g'

theorem Along.rule {P : GameState → Frame → Prop} {I : GameState → Prop}
    (step : ∀ g f g', I g → P g f → playFrame g f = .ok g' → I g')
    {frames : List Frame} {g g' : GameState} (hI : I g) (hP : Along P frames g)
    (hplay : play frames g = .ok g') : I g' := by
  induction frames generalizing g with
  | nil =>
    cases hplay
    exact hI
  | cons f frames ih =>
    rw [play, List.foldlM_cons] at hplay
    obtain ⟨g₁, hf, hplay⟩ := bind_eq_ok.mp hplay
    exact ih (step g f g₁ hI hP.1 hf) (hP.2 g₁ hf) hplay

theorem Played.rule {I : GameState → Prop} (hl : level < numLevels)
    (init : I (initialState level lives score))
    (step : ∀ g f g', I g → playFrame g f = .ok g' → I g') {frames : List Frame} {g : GameState}
    (h : Played level lives score frames g) : I g := by
  obtain ⟨g₀, h₀, hplay⟩ := h
  rw [initializeRound_eq hl] at h₀
  cases h₀
  exact foldlM_preserves I (fun f g g' hg hf => step g f g' hg hf) frames init hplay

def PlayedUnder (P : GameState → Frame → Prop) (level lives score : Nat) (frames : List Frame)
    (g : GameState) : Prop :=
  ∃ start, initializeRound level lives score = .ok start ∧ Along P frames start ∧
    play frames start = .ok g

theorem PlayedUnder.rule {P : GameState → Frame → Prop} {I : GameState → Prop}
    (hl : level < numLevels) (init : I (initialState level lives score))
    (step : ∀ g f g', I g → P g f → playFrame g f = .ok g' → I g')
    {frames : List Frame} {g : GameState} (h : PlayedUnder P level lives score frames g) : I g := by
  obtain ⟨g₀, h₀, halong, hplay⟩ := h
  rw [initializeRound_eq hl] at h₀
  cases h₀
  exact halong.rule step init hplay

theorem Played.board (hl : level < numLevels) {frames : List Frame} {g : GameState}
    (h : Played level lives score frames g) : Board level g :=
  h.rule hl (initialState_board hl) fun _ _ _ hg hf => hg.playFrame hl hf

/-- A computed run: the policy is tested on every frame, `Q` on the last state. -/
def checkRun (P : GameState → Frame → Prop) [∀ g f, Decidable (P g f)] (Q : GameState → Prop)
    [DecidablePred Q] : List Frame → GameState → Bool
  | [], g => decide (Q g)
  | f :: frames, g => decide (P g f) &&
    match playFrame g f with
    | .ok g' => checkRun P Q frames g'
    | .error _ => false

section Checks
variable {P : GameState → Frame → Prop} [∀ g f, Decidable (P g f)] {Q : GameState → Prop}
  [DecidablePred Q]

theorem checkRun_cons (f : Frame) (frames : List Frame) (g : GameState) :
    checkRun P Q (f :: frames) g = (decide (P g f) &&
      match playFrame g f with
      | .ok g' => checkRun P Q frames g'
      | .error _ => false) := rfl

theorem checkRun_sound {frames : List Frame} {g : GameState} (h : checkRun P Q frames g = true) :
    ∃ g', Along P frames g ∧ play frames g = .ok g' ∧ Q g' := by
  induction frames generalizing g with
  | nil => exact ⟨g, trivial, rfl, of_decide_eq_true h⟩
  | cons f frames ih =>
    rw [checkRun_cons, Bool.and_eq_true] at h
    obtain ⟨hP, h⟩ := h
    cases hf : playFrame g f with
    | error e =>
      rw [hf] at h
      cases h
    | ok g₁ =>
      rw [hf] at h
      obtain ⟨g', halong, hplay, hQ⟩ := ih h
      refine ⟨g', ⟨of_decide_eq_true hP, ?_⟩, ?_, hQ⟩
      · intro g₂ h₂
        cases hf.symm.trans h₂
        exact halong
      · rw [play, List.foldlM_cons, hf, ok_bind]
        exact hplay

theorem PlayedUnder.of_check (hl : level < numLevels) {frames : List Frame}
    (h : checkRun P Q frames (initialState level lives score) = true) :
    ∃ g, PlayedUnder P level lives score frames g ∧ Q g := by
  obtain ⟨g, halong, hplay, hQ⟩ := checkRun_sound h
  exact ⟨g, ⟨_, initializeRound_eq hl, halong, hplay⟩, hQ⟩

theorem Played.of_check (hl : level < numLevels) {frames : List Frame}
    (h : checkRun (fun _ _ => True) Q frames (initialState level lives score) = true) :
    ∃ g, Played level lives score frames g ∧ Q g := by
  obtain ⟨g, _, hplay, hQ⟩ := checkRun_sound h
  exact ⟨g, ⟨_, initializeRound_eq hl, hplay⟩, hQ⟩

end Checks

/-- A round stays on the board, whatever is typed and drawn: the walls are never
written, all figures and their spawn points are on free cells, and the next frame
touches no cell outside the map and steps over no edge. -/
theorem round_stays_on_board (hl : level < numLevels) (frames : List Frame) (g : GameState)
    (h : Played level lives score frames g) :
    (∀ p, InBounds p → (g.map p = '#' ↔ predefinedMaps level p = some '#')) ∧
    (InBounds g.pacman.position ∧ g.map g.pacman.position ≠ '#') ∧
    (InBounds g.pacman.spawnPoint ∧ g.map g.pacman.spawnPoint ≠ '#') ∧
    (∀ i, InBounds (g.ghosts i).position ∧ g.map (g.ghosts i).position ≠ '#') ∧
    (∀ i, InBounds (g.ghosts i).spawnPoint ∧ g.map (g.ghosts i).spawnPoint ≠ '#') ∧
    (∀ i, (g.ghosts i).tile ∈ [' ', '.', '*']) ∧
    Interior g.pacman.position ∧
    ∀ input draws, updateGameState (processInput g input) draws ≠ .error .outOfBounds ∧
      ∀ i now, GhostTurn (processInput g input) draws i now → Interior (now.ghosts i).position := by
  have hb := h.board hl
  have hfree : ∀ p, Open level p → InBounds p ∧ g.map p ≠ '#' := by
    intro p hp
    exact ⟨hp.1, fun he => hp.2 ((hb.walls p hp.1).mp he)⟩
  refine ⟨hb.walls, hfree _ hb.pacman, hfree _ hb.pacmanSpawn, fun i => hfree _ (hb.ghosts i),
    fun i => hfree _ (hb.ghostSpawns i), hb.tiles, hb.pacman.interior hl, ?_⟩
  intro input draws
  have hin := hb.congr (processInput_same g input)
  constructor
  · intro he
    rcases hin.updateGameState_cases hl draws with he' | ⟨g', he', _⟩
    · cases he.symm.trans he'
    · cases he.symm.trans he'
  · intro i now ht
    exact (hin.turn hl ht).interior hl i

theorem round_stays_on_board_first_frame : ∃ g, Played 0 3 0 [⟨'s', [0, 1, 0, 1]⟩] g ∧
    (∀ i, (g.ghosts i).tile ∈ [' ', '.', '*']) ∧ Interior g.pacman.position := by
  have hrun : checkRun (fun _ _ => True) (fun _ => True) [⟨'s', [0, 1, 0, 1]⟩] (initialState 0 3 0) =
      true := by
    decide +kernel
  obtain ⟨g, hg, _⟩ := Played.of_check (by decide) hrun
  obtain ⟨_, _, _, _, _, htiles, hin, _⟩ := round_stays_on_board (by decide) _ g hg
  exact ⟨g, hg, htiles, hin⟩

end Rounds

end Zeos.Game
