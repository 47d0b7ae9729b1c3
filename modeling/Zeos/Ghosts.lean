import Zeos.Board
import Mathlib.Logic.Relation

/-!
# The ghosts' modes and places

Boosts, deaths and revivals set the behaviour of all ghosts at once, so that the
game runs a small machine of modes. Two facts hold in every round: still ghosts
mean a dead Pacman without a boost, and no two ghosts share a cell at the end of a
frame, although an eaten ghost goes home without looking.
-/

namespace Zeos.Game

open Loops Relation
set_option autoImplicit false

structure Mode where
  boosted : Bool
  alive : Bool
  behaviour : Behaviour
  deriving DecidableEq, Repr

structure HasMode (g : GameState) (m : Mode) : Prop where
  boosted : g.pacman.isBoosted = m.boosted
  alive : g.pacman.isAlive = m.alive
  behaviour : ∀ i, (g.ghosts i).behaviour = m.behaviour

def Mode.boost (m : Mode) : Mode := ⟨true, m.alive, .runAway⟩

/-- What happens to the mode apart from a new boost. -/
inductive ModeChange : Mode → Mode → Prop
  | lose (alive : Bool) (b : Behaviour) : ModeChange ⟨false, alive, b⟩ ⟨false, false, .still⟩
  | unboost (alive : Bool) (b : Behaviour) : ModeChange ⟨true, alive, b⟩ ⟨false, alive, .chase⟩
  | revive (boosted : Bool) (b : Behaviour) : ModeChange ⟨boosted, false, b⟩ ⟨boosted, true, .chase⟩

/-- Ghosts stand still for a dead Pacman only, and hunt every other one. -/
structure Mode.Calm (m : Mode) : Prop where
  still : m.behaviour = .still → m.boosted = false ∧ m.alive = false
  chase : m.boosted = false → m.alive = true → m.behaviour = .chase

theorem Mode.Calm.boost (m : Mode) : m.boost.Calm where
  still h := by cases h
  chase h := by cases h

theorem Mode.Calm.hunting (boosted alive : Bool) : (Mode.mk boosted alive .chase).Calm where
  still h := by cases h
  chase _ _ := rfl

theorem ModeChange.calm {m m' : Mode} (h : ModeChange m m') : m'.Calm := by
  cases h with
  | lose alive b => exact ⟨fun _ => ⟨rfl, rfl⟩, fun _ ha => nomatch ha⟩
  | unboost alive b => exact .hunting false alive
  | revive boosted b => exact .hunting boosted true

/-- Ghosts flee from every boosted Pacman, who has not been dead since. -/
def Mode.Fleeing (m : Mode) : Prop := m.boosted = true → m.alive = true ∧ m.behaviour = .runAway

theorem ModeChange.fleeing {m m' : Mode} (h : ModeChange m m') (hm : m.Fleeing) : m'.Fleeing := by
  intro hb
  cases h with
  | lose alive b => cases hb
  | unboost alive b => cases hb
  | revive boosted b =>
    obtain ⟨halive, _⟩ := hm hb
    cases halive

section FrameModes
variable {g : GameState} {m : Mode}

/-- Pacman gets a booster in the next step. -/
def EntersBooster (g : GameState) : Prop := item g (target g) = '*'

instance (g : GameState) : Decidable (EntersBooster g) := inferInstanceAs (Decidable (_ = _))

theorem item_eq (g : GameState) (n : Point) :
    item g n = if n = g.pacman.position then ' ' else g.map n := Function.update_apply ..

theorem EntersBooster.map (h : EntersBooster g) : g.map (target g) = '*' := by
  rw [EntersBooster, item_eq] at h
  split at h
  · cases h
  · exact h

theorem HasMode.walked (h : HasMode g m) :
    HasMode (walked g) (if EntersBooster g then m.boost else m) := by
  rcases walked_cases g with ⟨hw, he⟩ | ⟨_, ⟨hp, he⟩ | ⟨_, hb, he⟩ | ⟨_, hb, he⟩⟩
  · have hno : ¬ EntersBooster g := fun hb => absurd (hw.symm.trans hb.map) (by decide)
    rw [he, if_neg hno]
    exact h
  · have hno : ¬ EntersBooster g := fun hb => absurd (hp.symm.trans hb) (by decide)
    rw [he, if_neg hno]
    exact ⟨h.boosted, h.alive, h.behaviour⟩
  · have hyes : EntersBooster g := hb
    rw [he, if_pos hyes]
    exact ⟨rfl, h.alive, fun _ => rfl⟩
  · have hno : ¬ EntersBooster g := hb
    rw [he, if_neg hno]
    exact ⟨h.boosted, h.alive, h.behaviour⟩

theorem HasMode.lost (h : HasMode g m) (hb : g.pacman.isBoosted = false) :
    ∃ m', HasMode (losePacman g) m' ∧ ModeChange m m' := by
  obtain ⟨boosted, alive, b⟩ := m
  have hm : boosted = false := h.boosted.symm.trans hb
  subst hm
  exact ⟨⟨false, false, .still⟩, ⟨hb, rfl, fun _ => rfl⟩, .lose alive b⟩

theorem HasMode.pacmanMoved (h : HasMode g m) :
    ∃ m', HasMode (pacmanMoved g) m' ∧
      ReflGen ModeChange (if EntersBooster g then m.boost else m) m' := by
  have hw := h.walked
  rcases pacmanMoved_cases g with ⟨_, he⟩ | ⟨hb, _, he⟩ | ⟨_, _, hsame, hghosts⟩
  · rw [he]
    exact ⟨_, hw, .refl⟩
  · rw [he]
    obtain ⟨m', hm', hchange⟩ := hw.lost hb
    exact ⟨m', hm', .single hchange⟩
  · refine ⟨_, ⟨hsame.pacman ▸ hw.boosted, hsame.pacman ▸ hw.alive, ?_⟩, .refl⟩
    intro i
    rw [hghosts i]
    split
    · exact hw.behaviour i
    · exact hw.behaviour i

theorem HasMode.ghostMoved (h : HasMode g m) (i : Fin numGhosts) (n : Point) :
    HasMode (ghostMoved g i n) m := by
  refine ⟨h.boosted, h.alive, ?_⟩
  intro j
  rw [ghostMoved_ghosts]
  split
  · exact h.behaviour i
  · exact h.behaviour j

theorem HasMode.updateBoost (h : HasMode g m) (t : Nat) :
    ∃ m', HasMode (updateBoost g t) m' ∧ ReflGen ModeChange m m' := by
  obtain ⟨boosted, alive, b⟩ := m
  unfold Game.updateBoost
  split
  · rename_i hb
    have hm : boosted = true := h.boosted.symm.trans hb
    subst hm
    dsimp only
    split
    · exact ⟨⟨false, alive, .chase⟩, ⟨rfl, h.alive, fun _ => rfl⟩, .single (.unboost alive b)⟩
    · exact ⟨_, ⟨h.boosted, h.alive, h.behaviour⟩, .refl⟩
  · exact ⟨_, h, .refl⟩

theorem HasMode.updateRespawn (h : HasMode g m) (t : Nat) :
    ∃ m', HasMode (updateRespawn g t) m' ∧ ReflGen ModeChange m m' := by
  obtain ⟨boosted, alive, b⟩ := m
  unfold Game.updateRespawn
  split
  · exact ⟨_, h, .refl⟩
  · rename_i ha
    have hm : alive = false := h.alive.symm.trans (Bool.eq_false_iff.mpr ha)
    subst hm
    dsimp only
    split
    · exact ⟨⟨boosted, true, .chase⟩, ⟨h.boosted, rfl, fun _ => rfl⟩, .single (.revive boosted b)⟩
    · exact ⟨_, ⟨h.boosted, h.alive, h.behaviour⟩, .refl⟩

theorem HasMode.updateTimerState (h : HasMode g m) (t : Nat) :
    ∃ m', HasMode (updateTimerState g t) m' ∧ ReflTransGen ModeChange m m' := by
  obtain ⟨m₁, h₁, hc₁⟩ := h.updateBoost t
  obtain ⟨m₂, h₂, hc₂⟩ := h₁.updateRespawn t
  refine ⟨m₂, ⟨h₂.boosted, h₂.alive, ?_⟩, hc₁.to_reflTransGen.trans hc₂.to_reflTransGen⟩
  intro i
  exact (updateDead_body t _).2.2.2.trans (h₂.behaviour i)

theorem HasMode.playFrame {level : Nat} (hl : level < numLevels) (hb : Board level g)
    (h : HasMode g m) {f : Frame} {g' : GameState} (hf : playFrame g f = .ok g') :
    ∃ m', HasMode g' m' ∧ ReflTransGen ModeChange
      (if EntersBooster (processInput g f.input) then m.boost else m) m' := by
  have hin : HasMode (processInput g f.input) m := ⟨h.boosted, h.alive, h.behaviour⟩
  obtain ⟨m₁, h₁, hc₁⟩ := hin.pacmanMoved
  rcases updateGameState_rule hl (hb.congr (processInput_same g f.input)) (fun _ g => HasMode g m₁) h₁
      (fun i _ g n _ hg _ _ _ => hg.ghostMoved i n) (fun _ _ _ hg _ => hg) f.draws with
    he | ⟨g₂, he, _, hdone⟩
  · cases hf.symm.trans he
  · cases hf.symm.trans he
    have h₂ : HasMode g₂ m₁ := by
      rcases hdone with hnil | ⟨_, _, hcons, _⟩
      · exact hnil
      · exact hcons
    obtain ⟨m₃, h₃, hc₃⟩ := h₂.updateTimerState 100
    exact ⟨m₃, h₃, hc₁.to_reflTransGen.trans hc₃⟩

theorem calm_of_changes {m m' : Mode} (h : ReflTransGen ModeChange m m') (hm : m.Calm) : m'.Calm := by
  cases h with
  | refl => exact hm
  | tail _ hlast => exact hlast.calm

theorem fleeing_of_changes {m m' : Mode} (h : ReflTransGen ModeChange m m') (hm : m.Fleeing) :
    m'.Fleeing := by
  induction h with
  | refl => exact hm
  | tail _ hlast ih => exact hlast.fleeing ih

end FrameModes

/-- The ghosts have one mode, and it is calm. -/
def CalmModes (g : GameState) : Prop := ∃ m, HasMode g m ∧ m.Calm

section Rounds
variable {level lives score : Nat} {g : GameState}

theorem CalmModes.playFrame (hl : level < numLevels) (hb : Board level g) (h : CalmModes g)
    {f : Frame} {g' : GameState} (hf : playFrame g f = .ok g') : CalmModes g' := by
  obtain ⟨m, hm, hcalm⟩ := h
  obtain ⟨m', hm', hchanges⟩ := hm.playFrame hl hb hf
  refine ⟨m', hm', calm_of_changes hchanges ?_⟩
  split
  · exact .boost m
  · exact hcalm

theorem initialState_mode (level lives score : Nat) :
    HasMode (initialState level lives score) ⟨false, true, .chase⟩ := ⟨rfl, rfl, fun _ => rfl⟩

theorem initialState_calm (level lives score : Nat) : CalmModes (initialState level lives score) :=
  ⟨_, initialState_mode level lives score, .hunting false true⟩

/-- A Pacman who is still dead takes no booster in this frame. -/
def NoBoostWhileDead (g : GameState) (f : Frame) : Prop :=
  g.pacman.isAlive = false → ¬ EntersBooster (processInput g f.input)

instance (g : GameState) (f : Frame) : Decidable (NoBoostWhileDead g f) :=
  inferInstanceAs (Decidable (_ → _))

/-- The ghosts flee from a boosted Pacman and hunt a living one without a boost,
as long as no booster is taken between a death and the next respawn. The end of
that respawn would turn the boosted Pacman's ghosts back to hunting. -/
theorem ghosts_follow_boost (hl : level < numLevels) (frames : List Frame) (g : GameState)
    (h : PlayedUnder NoBoostWhileDead level lives score frames g) :
    (g.pacman.isBoosted = true → ∀ i, (g.ghosts i).behaviour = .runAway) ∧
    (g.pacman.isBoosted = false → g.pacman.isAlive = true →
      ∀ i, (g.ghosts i).behaviour = .chase) := by
  have hinv : Board level g ∧ ∃ m, HasMode g m ∧ m.Calm ∧ m.Fleeing := by
    refine h.rule (I := fun g => Board level g ∧ ∃ m, HasMode g m ∧ m.Calm ∧ m.Fleeing) hl ?_ ?_
    · refine ⟨initialState_board hl, _, initialState_mode level lives score, ?_, ?_⟩
      · exact .hunting false true
      · intro hb
        cases hb
    · rintro g f g' ⟨hb, m, hm, hcalm, hflee⟩ hpolicy hf
      obtain ⟨m', hm', hchanges⟩ := hm.playFrame hl hb hf
      refine ⟨hb.playFrame hl hf, m', hm', calm_of_changes hchanges ?_,
        fleeing_of_changes hchanges ?_⟩
      · split
        · exact .boost m
        · exact hcalm
      · split
        · rename_i hbooster
          intro _
          have halive : g.pacman.isAlive = true := by
            cases ha : g.pacman.isAlive with
            | false => exact absurd hbooster (hpolicy ha)
            | true => rfl
          exact ⟨hm.alive.symm.trans halive, rfl⟩
        · exact hflee
  obtain ⟨_, m, hm, hcalm, hflee⟩ := hinv
  constructor
  · intro hb i
    rw [hm.behaviour i]
    exact (hflee (hm.boosted.symm.trans hb)).2
  · intro hb ha i
    rw [hm.behaviour i]
    exact hcalm.chase (hm.boosted.symm.trans hb) (hm.alive.symm.trans ha)

/-- The keys of Pacman with the moves of ghost 0; the other ghosts go up and down. -/
def upAndDown : List (Char × Nat) → List Frame
  | [] => []
  | [(key, d)] => [⟨key, [d, 0, 0, 0]⟩]
  | (key, d) :: (key', d') :: rest => ⟨key, [d, 0, 0, 0]⟩ :: ⟨key', [d', 1, 1, 1]⟩ :: upAndDown rest

def boosterRun : List Frame :=
  upAndDown ((List.replicate 6 's' ++ List.replicate 3 'd').zip [0, 1, 0, 1, 0, 1, 0, 1, 0])

theorem ghosts_follow_boost_booster : ∃ g, PlayedUnder NoBoostWhileDead 0 3 0 boosterRun g ∧
    g.pacman.isBoosted = true ∧ ∀ i, (g.ghosts i).behaviour = .runAway := by
  have hrun : checkRun NoBoostWhileDead (fun g => g.pacman.isBoosted = true) boosterRun
      (initialState 0 3 0) = true := by
    decide +kernel
  obtain ⟨g, hg, hb⟩ := PlayedUnder.of_check (by decide) hrun
  exact ⟨g, hg, hb, (ghosts_follow_boost (by decide) boosterRun g hg).1 hb⟩

def contactRun : List Frame :=
  upAndDown ((List.replicate 11 'a' ++ List.replicate 7 's').zip
    (0 :: (List.replicate 13 2 ++ List.replicate 4 1)))

/-- He waits to be caught, goes to the same booster while he is dead, and waits
there until he is alive again. -/
def deadBoostRun : List Frame :=
  contactRun ++ ⟨' ', []⟩ :: (List.replicate 6 's' ++ List.replicate 2 'd').map (⟨·, []⟩) ++
    upAndDown (('d', 0) :: (List.range 20).map fun k => (' ', (k + 1) % 2))

theorem boosted_ghosts_hunt : ∃ g, Played 0 3 0 deadBoostRun g ∧ 0 < g.lives ∧
    g.pacman.isBoosted = true ∧ ∀ i, (g.ghosts i).behaviour = .chase :=
  Played.of_check (by decide) (by decide +kernel)

end Rounds

/-- Spawn points never change, and dead ghosts are at home. -/
structure Homes (level : Nat) (g : GameState) : Prop where
  spawnPoint : ∀ i, (g.ghosts i).spawnPoint = ghostSpawns level i
  dead : ∀ i, (g.ghosts i).isAlive = false → (g.ghosts i).position = (g.ghosts i).spawnPoint

def Apart (g : GameState) : Prop := ∀ i j, i ≠ j → (g.ghosts i).position ≠ (g.ghosts j).position

/-- Two ghosts on one cell come from a meal, and one of them is alive and has
still to move. -/
def Parting (l : List (Fin numGhosts)) (g : GameState) : Prop :=
  ∀ i j, i ≠ j → (g.ghosts i).position = (g.ghosts j).position →
    g.pacman.isBoosted = true ∧ ∃ k, (k = i ∨ k = j) ∧ (g.ghosts k).isAlive = true ∧ k ∈ l

theorem ghostSpawns_injective (level : Nat) {i j : Fin numGhosts} (hne : i ≠ j) :
    ghostSpawns level i ≠ ghostSpawns level j := by
  by_cases hl : level = 0
  · subst hl
    revert i j
    decide
  · have hone : ∀ i, ghostSpawns level i = ghostSpawns 1 i := by
      intro i
      unfold ghostSpawns
      simp [hl]
    rw [hone, hone]
    revert i j
    decide

section PlaceSteps
variable {level : Nat} {g : GameState}

theorem Homes.walked (h : Homes level g) : Homes level (walked g) := by
  refine ⟨fun i => ?_, fun i hd => ?_⟩
  · rw [(walked_ghosts g i).spawnPoint]
    exact h.spawnPoint i
  · rw [(walked_ghosts g i).isAlive] at hd
    rw [(walked_ghosts g i).spawnPoint, (walked_ghosts g i).position]
    exact h.dead i hd

theorem Homes.pacmanMoved (h : Homes level g) : Homes level (pacmanMoved g) := by
  have hw := h.walked
  rcases pacmanMoved_cases g with ⟨_, he⟩ | ⟨_, _, he⟩ | ⟨_, _, _, hghosts⟩
  · rw [he]
    exact hw
  · rw [he]
    exact ⟨hw.spawnPoint, hw.dead⟩
  · refine ⟨fun i => ?_, fun i => ?_⟩ <;> rw [hghosts i] <;> split
    · exact hw.spawnPoint i
    · exact hw.spawnPoint i
    · exact fun _ => rfl
    · exact hw.dead i

theorem Homes.ghostMoved (h : Homes level g) {i : Fin numGhosts} (halive : (g.ghosts i).isAlive = true)
    (n : Point) : Homes level (ghostMoved g i n) := by
  refine ⟨fun j => ?_, fun j => ?_⟩ <;> rw [ghostMoved_ghosts] <;> split
  · rename_i hj
    rw [hj]
    exact h.spawnPoint i
  · exact h.spawnPoint j
  · intro hd
    cases halive.symm.trans hd
  · exact h.dead j

theorem updateBoost_life (g : GameState) (t : Nat) (i : Fin numGhosts) :
    ((updateBoost g t).ghosts i).isAlive = (g.ghosts i).isAlive ∧
    ((updateBoost g t).ghosts i).deadTimer = (g.ghosts i).deadTimer := by
  unfold updateBoost
  split
  · dsimp only
    split
    · exact ⟨rfl, rfl⟩
    · exact ⟨rfl, rfl⟩
  · exact ⟨rfl, rfl⟩

theorem updateRespawn_life (g : GameState) (t : Nat) (i : Fin numGhosts) :
    ((updateRespawn g t).ghosts i).isAlive = (g.ghosts i).isAlive ∧
    ((updateRespawn g t).ghosts i).deadTimer = (g.ghosts i).deadTimer := by
  unfold updateRespawn
  split
  · exact ⟨rfl, rfl⟩
  · dsimp only
    split
    · exact ⟨rfl, rfl⟩
    · exact ⟨rfl, rfl⟩

theorem updateDead_isAlive (t : Nat) (ghost : Ghost) : (updateDead t ghost).isAlive =
    (ghost.isAlive || decide (uint32 (ghost.deadTimer - t) ≤ 0)) := by
  unfold updateDead
  cases h : ghost.isAlive with
  | true => simp [h]
  | false => simp

theorem updateTimerState_isAlive (g : GameState) (t : Nat) (i : Fin numGhosts) :
    ((updateTimerState g t).ghosts i).isAlive =
      ((g.ghosts i).isAlive || decide (uint32 ((g.ghosts i).deadTimer - t) ≤ 0)) := by
  obtain ⟨hboost, hboost'⟩ := updateBoost_life g t i
  obtain ⟨hrespawn, hrespawn'⟩ := updateRespawn_life (updateBoost g t) t i
  calc ((updateTimerState g t).ghosts i).isAlive
      = (updateDead t ((updateRespawn (updateBoost g t) t).ghosts i)).isAlive := rfl
    _ = _ := by rw [updateDead_isAlive, hrespawn, hrespawn', hboost, hboost']

theorem Homes.updateTimerState (h : Homes level g) (t : Nat) : Homes level (updateTimerState g t) := by
  have hs := updateTimerState_same g t
  refine ⟨fun i => ?_, fun i hd => ?_⟩
  · rw [hs.ghostSpawnPoint]
    exact h.spawnPoint i
  · rw [updateTimerState_isAlive, Bool.or_eq_false_iff] at hd
    rw [hs.ghostPosition, hs.ghostSpawnPoint]
    exact h.dead i hd.1

/-- Only one ghost can be eaten in a frame, and its home is nobody else's. -/
theorem Apart.pacmanMoved (h : Apart g) (hh : Homes level g) :
    Parting (List.finRange numGhosts) (pacmanMoved g) := by
  have hw : Apart (Game.walked g) := by
    intro i j hne
    rw [(walked_ghosts g i).position, (walked_ghosts g j).position]
    exact h i j hne
  have hhome := hh.pacmanMoved
  intro i j hne hsame
  rcases pacmanMoved_cases g with ⟨_, he⟩ | ⟨_, _, he⟩ | ⟨hb, _, hate, hghosts⟩
  · rw [he] at hsame
    exact absurd hsame (hw i j hne)
  · rw [he] at hsame
    exact absurd hsame (hw i j hne)
  · refine ⟨hate.pacman ▸ hb, ?_⟩
    -- two dead ghosts would be at two homes
    cases hi : ((Game.pacmanMoved g).ghosts i).isAlive with
    | true => exact ⟨i, .inl rfl, hi, List.mem_finRange i⟩
    | false =>
      cases hj : ((Game.pacmanMoved g).ghosts j).isAlive with
      | true => exact ⟨j, .inr rfl, hj, List.mem_finRange j⟩
      | false =>
        rw [hhome.dead i hi, hhome.dead j hj, hhome.spawnPoint, hhome.spawnPoint] at hsame
        exact absurd hsame (ghostSpawns_injective level hne)

theorem Parting.ghostMoved {i : Fin numGhosts} {l : List (Fin numGhosts)} {n : Point}
    (h : Parting (i :: l) g) (hn : CanStep g i n) : Parting l (ghostMoved g i n) := by
  intro j k hne hsame
  have hj : j ≠ i := by
    intro he
    rw [ghostMoved_ghosts, ghostMoved_ghosts, if_pos he, if_neg (he ▸ hne.symm)] at hsame
    exact hn.free k hsame.symm
  have hk : k ≠ i := by
    intro he
    rw [ghostMoved_ghosts, ghostMoved_ghosts, if_pos he, if_neg hj] at hsame
    exact hn.free j hsame
  rw [ghostMoved_ghosts, ghostMoved_ghosts, if_neg hj, if_neg hk] at hsame
  obtain ⟨hb, c, hc, halive, hmem⟩ := h j k hne hsame
  have hci : c ≠ i := by
    rcases hc with rfl | rfl
    · exact hj
    · exact hk
  refine ⟨hb, c, hc, ?_, ?_⟩
  · rw [ghostMoved_ghosts, if_neg hci]
    exact halive
  · exact (List.mem_cons.mp hmem).resolve_left hci

theorem Parting.skip {i : Fin numGhosts} {l : List (Fin numGhosts)} (h : Parting (i :: l) g)
    (hdead : (g.ghosts i).isAlive = false) : Parting l g := by
  intro j k hne hsame
  obtain ⟨hb, c, hc, halive, hmem⟩ := h j k hne hsame
  refine ⟨hb, c, hc, halive, (List.mem_cons.mp hmem).resolve_left ?_⟩
  intro he
  rw [he] at halive
  cases halive.symm.trans hdead

/-- Once all ghosts have moved they are apart again; and when they stand still,
nobody has been eaten. -/
theorem Apart.playFrame (hl : level < numLevels) (hb : Board level g) (hc : CalmModes g)
    (hh : Homes level g) (h : Apart g) {f : Frame} {g' : GameState} (hf : playFrame g f = .ok g') :
    Homes level g' ∧ Apart g' := by
  obtain ⟨m, hm, hcalm⟩ := hc
  have hin : HasMode (processInput g f.input) m := ⟨hm.boosted, hm.alive, hm.behaviour⟩
  obtain ⟨m₁, hm₁, hchange⟩ := hin.pacmanMoved
  have hcalm₁ : m₁.Calm := by
    apply calm_of_changes hchange.to_reflTransGen
    split
    · exact .boost m
    · exact hcalm
  have hhin : Homes level (processInput g f.input) := ⟨hh.spawnPoint, hh.dead⟩
  have hain : Apart (processInput g f.input) := h
  rcases updateGameState_rule hl (hb.congr (processInput_same g f.input))
      (fun l g => HasMode g m₁ ∧ Homes level g ∧ Parting l g)
      ⟨hm₁, hhin.pacmanMoved, hain.pacmanMoved hhin⟩
      (fun i _ _ n _ hg halive _ hn =>
        ⟨hg.1.ghostMoved i n, hg.2.1.ghostMoved halive n, hg.2.2.ghostMoved hn⟩)
      (fun _ _ _ hg hdead => ⟨hg.1, hg.2.1, hg.2.2.skip hdead⟩) f.draws with
    he | ⟨g₂, he, _, hdone⟩
  · cases hf.symm.trans he
  · cases hf.symm.trans he
    have hplaces := updateTimerState_same g₂ 100
    have hend : Homes level g₂ ∧ Apart g₂ := by
      rcases hdone with ⟨_, hh₂, hpart⟩ | ⟨i, l, ⟨hm₂, hh₂, hpart⟩, hstill⟩
      · refine ⟨hh₂, fun i j hne hsame => ?_⟩
        obtain ⟨_, _, _, _, hmem⟩ := hpart i j hne hsame
        cases hmem
      · refine ⟨hh₂, fun i j hne hsame => ?_⟩
        have hno := (hcalm₁.still ((hm₂.behaviour _).symm.trans hstill)).1
        obtain ⟨hboosted, _⟩ := hpart i j hne hsame
        cases (hm₂.boosted.symm.trans hboosted).symm.trans hno
    refine ⟨hend.1.updateTimerState 100, fun i j hne => ?_⟩
    rw [hplaces.ghostPosition, hplaces.ghostPosition]
    exact hend.2 i j hne

end PlaceSteps

/-- What holds at the end of every frame. -/
structure Settled (level : Nat) (g : GameState) : Prop where
  board : Board level g
  modes : CalmModes g
  homes : Homes level g
  apart : Apart g

section Rounds
variable {level lives score : Nat} {g : GameState}

theorem initialState_settled (hl : level < numLevels) :
    Settled level (initialState level lives score) where
  board := initialState_board hl
  modes := initialState_calm level lives score
  homes := ⟨fun _ => rfl, fun _ _ => rfl⟩
  apart _ _ hne := ghostSpawns_injective level hne

theorem Settled.processInput (h : Settled level g) (input : Char) :
    Settled level (processInput g input) := by
  obtain ⟨m, hm, hcalm⟩ := h.modes
  exact ⟨h.board.congr (processInput_same g input),
    ⟨m, ⟨hm.boosted, hm.alive, hm.behaviour⟩, hcalm⟩, ⟨h.homes.spawnPoint, h.homes.dead⟩, h.apart⟩

theorem Settled.playFrame (hl : level < numLevels) (h : Settled level g) {f : Frame} {g' : GameState}
    (hf : playFrame g f = .ok g') : Settled level g' := by
  obtain ⟨hhomes, hapart⟩ := h.apart.playFrame hl h.board h.modes h.homes hf
  exact ⟨h.board.playFrame hl hf, h.modes.playFrame hl h.board hf, hhomes, hapart⟩

theorem Played.settled (hl : level < numLevels) {frames : List Frame}
    (h : Played level lives score frames g) : Settled level g :=
  h.rule hl (initialState_settled hl) fun _ _ _ hg hf => hg.playFrame hl hf

/-- No two ghosts are ever on one cell at the end of a frame. -/
theorem ghosts_apart (hl : level < numLevels) (frames : List Frame) (g : GameState)
    (h : Played level lives score frames g) (i j : Fin numGhosts) (hne : i ≠ j) :
    (g.ghosts i).position ≠ (g.ghosts j).position :=
  (h.settled hl).apart i j hne

theorem ghosts_apart_contact : ∃ g, Played 0 3 0 contactRun g ∧
    (g.ghosts 0).position ≠ (g.ghosts 1).position := by
  have hrun : checkRun (fun _ _ => True) (fun _ => True) contactRun (initialState 0 3 0) = true := by
    decide +kernel
  obtain ⟨g, hg, _⟩ := Played.of_check (by decide) hrun
  exact ⟨g, hg, ghosts_apart (by decide) contactRun g hg 0 1 (by decide)⟩

end Rounds

end Zeos.Game
