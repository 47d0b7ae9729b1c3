import Zeos.Ghosts
import Zeos.Lib.Countdown

/-!
# The timers of the game

A boost, a death of Pacman and a death of a ghost are each counted down by
`updateTimerState`. The timers are unsigned and are compared with `<= 0`, so a
boost or a death ends only because they never step over 0.
-/

namespace Zeos.Game

open Loops Countdown
set_option autoImplicit false

abbrev frameTime : Nat := 100

def boostTimer (g : GameState) : Timer := ⟨g.pacman.isBoosted, g.pacman.boostedTimer⟩

def respawnTimer (g : GameState) : Timer := ⟨!g.pacman.isAlive, g.pacman.respawnTimer⟩

def ghostTimer (ghost : Ghost) : Timer := ⟨!ghost.isAlive, ghost.deadTimer⟩

/-- The timers that run have at least `elapsedTime` left, so that taking it away
does not wrap. -/
structure CanElapse (elapsedTime : Nat) (g : GameState) : Prop where
  boost : g.pacman.isBoosted = true → elapsedTime ≤ g.pacman.boostedTimer
  respawn : g.pacman.isAlive = false → elapsedTime ≤ g.pacman.respawnTimer
  dead : ∀ i, (g.ghosts i).isAlive = false → elapsedTime ≤ (g.ghosts i).deadTimer

/-- All timers hold whole frames. -/
structure Timed (g : GameState) : Prop where
  boost : Whole frameTime boostedTime (boostTimer g)
  respawn : Whole frameTime respawnTime (respawnTimer g)
  dead : ∀ i, Whole frameTime respawnTime (ghostTimer (g.ghosts i))

structure SameTimers (g g' : GameState) : Prop where
  boost : boostTimer g' = boostTimer g
  respawn : respawnTimer g' = respawnTimer g
  dead : ∀ i, ghostTimer (g'.ghosts i) = ghostTimer (g.ghosts i)

section FrameTimers
variable {g g' : GameState}

theorem SameTimers.trans {g₁ g₂ g₃ : GameState} (h : SameTimers g₁ g₂) (h' : SameTimers g₂ g₃) :
    SameTimers g₁ g₃ :=
  ⟨h'.boost.trans h.boost, h'.respawn.trans h.respawn, fun i => (h'.dead i).trans (h.dead i)⟩

theorem Timed.congr (h : Timed g) (hs : SameTimers g g') : Timed g' := by
  refine ⟨?_, ?_, fun i => ?_⟩
  · rw [hs.boost]
    exact h.boost
  · rw [hs.respawn]
    exact h.respawn
  · rw [hs.dead]
    exact h.dead i

theorem Timed.canElapse (h : Timed g) : CanElapse frameTime g where
  boost := h.boost.unit_le
  respawn halive := h.respawn.unit_le (by simp [respawnTimer, halive])
  dead i halive := (h.dead i).unit_le (by simp [ghostTimer, halive])

theorem tick_elapsed {limit : Nat} {t : Timer} (h : Whole frameTime limit t)
    (hlimit : limit ≤ boostedTime) (hon : t.on = true) :
    (uint32 (t.left - frameTime) ≤ 0 → tick frameTime t = ⟨false, uint32 (t.left - frameTime)⟩) ∧
    (¬ uint32 (t.left - frameTime) ≤ 0 → tick frameTime t = ⟨true, uint32 (t.left - frameTime)⟩) := by
  have hleft : uint32 (t.left - frameTime) = t.left - frameTime := by
    have hle := h.unit_le hon
    have hbound := h.le
    unfold boostedTime at hlimit
    unfold uint32 frameTime at *
    omega
  rw [tick_of_on hon, hleft]
  constructor
  · intro hzero
    rw [decide_eq_false (Nat.not_lt.mpr hzero)]
  · intro hpos
    rw [decide_eq_true (Nat.not_le.mp hpos)]

theorem boostTimer_updateBoost (h : Whole frameTime boostedTime (boostTimer g)) :
    boostTimer (updateBoost g frameTime) = tick frameTime (boostTimer g) := by
  unfold updateBoost
  split
  · rename_i hon
    obtain ⟨hend, hgoes⟩ := tick_elapsed h (Nat.le_refl _) hon
    dsimp only
    split
    · rename_i hzero
      exact (hend hzero).symm
    · rename_i hpos
      rw [hgoes hpos, ← hon]
      rfl
  · rename_i hoff
    exact (tick_of_off (Bool.eq_false_iff.mpr hoff)).symm

theorem respawnTimer_updateRespawn (h : Whole frameTime respawnTime (respawnTimer g)) :
    respawnTimer (updateRespawn g frameTime) = tick frameTime (respawnTimer g) := by
  unfold updateRespawn
  split
  · rename_i halive
    exact (tick_of_off (by simp [respawnTimer, halive])).symm
  · rename_i hdead
    have hon : (respawnTimer g).on = true := by simpa [respawnTimer] using hdead
    obtain ⟨hend, hgoes⟩ := tick_elapsed h (by decide) hon
    dsimp only
    split
    · rename_i hzero
      exact (hend hzero).symm
    · rename_i hpos
      rw [hgoes hpos, ← hon]
      rfl

theorem ghostTimer_updateDead {ghost : Ghost} (h : Whole frameTime respawnTime (ghostTimer ghost)) :
    ghostTimer (updateDead frameTime ghost) = tick frameTime (ghostTimer ghost) := by
  unfold updateDead
  split
  · rename_i halive
    exact (tick_of_off (by simp [ghostTimer, halive])).symm
  · rename_i hdead
    have hon : (ghostTimer ghost).on = true := by simpa [ghostTimer] using hdead
    obtain ⟨hend, hgoes⟩ := tick_elapsed h (by decide) hon
    dsimp only [ghostTimer]
    by_cases hzero : uint32 (ghost.deadTimer - frameTime) ≤ 0
    · rw [decide_eq_true hzero]
      exact (hend hzero).symm
    · rw [decide_eq_false hzero]
      exact (hgoes hzero).symm

theorem updateBoost_others (g : GameState) (t : Nat) :
    respawnTimer (updateBoost g t) = respawnTimer g := by
  unfold updateBoost
  split
  · dsimp only
    split
    · rfl
    · rfl
  · rfl

theorem updateRespawn_others (g : GameState) (t : Nat) :
    boostTimer (updateRespawn g t) = boostTimer g := by
  unfold updateRespawn
  split
  · rfl
  · dsimp only
    split
    · rfl
    · rfl

/-- The state `g'` shows the timers of `g` one frame later. -/
structure Ticked (g g' : GameState) : Prop where
  boost : boostTimer g' = tick frameTime (boostTimer g)
  respawn : respawnTimer g' = tick frameTime (respawnTimer g)
  dead : ∀ i, ghostTimer (g'.ghosts i) = tick frameTime (ghostTimer (g.ghosts i))

theorem Timed.updateTimerState (h : Timed g) : Ticked g (updateTimerState g frameTime) := by
  refine ⟨?_, ?_, fun i => ?_⟩
  · exact (updateRespawn_others _ _).trans (boostTimer_updateBoost h.boost)
  · have hr : Whole frameTime respawnTime (respawnTimer (updateBoost g frameTime)) := by
      rw [updateBoost_others]
      exact h.respawn
    exact (respawnTimer_updateRespawn hr).trans (congrArg _ (updateBoost_others g frameTime))
  · have hsame : ghostTimer ((updateRespawn (updateBoost g frameTime) frameTime).ghosts i) =
        ghostTimer (g.ghosts i) := by
      unfold ghostTimer
      rw [(updateRespawn_life _ _ i).1, (updateRespawn_life _ _ i).2, (updateBoost_life g _ i).1,
        (updateBoost_life g _ i).2]
    have hd : Whole frameTime respawnTime
        (ghostTimer ((updateRespawn (updateBoost g frameTime) frameTime).ghosts i)) := by
      rw [hsame]
      exact h.dead i
    exact (ghostTimer_updateDead hd).trans (congrArg _ hsame)

theorem Timed.ticked (h : Timed g) (ht : Ticked g g') : Timed g' := by
  refine ⟨?_, ?_, fun i => ?_⟩
  · rw [ht.boost]
    exact h.boost.tick
  · rw [ht.respawn]
    exact h.respawn.tick
  · rw [ht.dead]
    exact (h.dead i).tick

theorem boostTimer_walked (g : GameState) : boostTimer (walked g) =
    if EntersBooster g then started boostedTime else boostTimer g := by
  rcases walked_cases g with ⟨hw, he⟩ | ⟨_, ⟨hp, he⟩ | ⟨_, hb, he⟩ | ⟨_, hb, he⟩⟩
  · have hno : ¬ EntersBooster g := fun hb => absurd (hw.symm.trans hb.map) (by decide)
    rw [he, if_neg hno]
  · have hno : ¬ EntersBooster g := fun hb => absurd (hp.symm.trans hb) (by decide)
    rw [he, if_neg hno]
    rfl
  · have hyes : EntersBooster g := hb
    rw [he, if_pos hyes]
    rfl
  · have hno : ¬ EntersBooster g := hb
    rw [he, if_neg hno]
    rfl

theorem respawnTimer_walked (g : GameState) : respawnTimer (walked g) = respawnTimer g :=
  walked_same respawnTimer g (fun _ _ _ => rfl) (fun _ _ => rfl) (fun _ _ => rfl) (fun _ => rfl)

theorem ghostTimer_walked (g : GameState) (i : Fin numGhosts) :
    ghostTimer ((walked g).ghosts i) = ghostTimer (g.ghosts i) :=
  walked_same (fun g => ghostTimer (g.ghosts i)) g (fun _ _ _ => rfl) (fun _ _ => rfl)
    (fun _ _ => rfl) (fun _ => rfl)

/-- What starts a timer: a booster, an encounter that Pacman loses, and one that
he wins, which is with a live ghost. -/
structure Started (g g' : GameState) : Prop where
  boost : boostTimer g' = if EntersBooster g then started boostedTime else boostTimer g
  respawn : respawnTimer g' = respawnTimer g ∨ respawnTimer g' = started respawnTime
  dead : ∀ i, ghostTimer (g'.ghosts i) = ghostTimer (g.ghosts i) ∨
    (g.ghosts i).isAlive = true ∧ ghostTimer (g'.ghosts i) = started respawnTime

theorem pacmanMoved_started (g : GameState) : Started g (pacmanMoved g) := by
  rcases pacmanMoved_cases g with ⟨_, he⟩ | ⟨_, _, he⟩ | ⟨_, _, hsame, hghosts⟩
  · rw [he]
    exact ⟨boostTimer_walked g, .inl (respawnTimer_walked g), fun i => .inl (ghostTimer_walked g i)⟩
  · rw [he]
    exact ⟨boostTimer_walked g, .inr rfl, fun i => .inl (ghostTimer_walked g i)⟩
  · refine ⟨?_, .inl ?_, fun i => ?_⟩
    · rw [← boostTimer_walked, boostTimer, hsame.pacman]
      rfl
    · rw [← respawnTimer_walked g, respawnTimer, hsame.pacman]
      rfl
    · rw [hghosts i]
      split
      · rename_i hmeets
        exact .inr ⟨(walked_ghosts g i).isAlive.symm.trans hmeets.2, rfl⟩
      · exact .inl (ghostTimer_walked g i)

theorem Timed.started (h : Timed g) (hs : Started g g') : Timed g' := by
  have hrespawn : Whole frameTime respawnTime (Countdown.started respawnTime) :=
    .started (by decide) (by decide)
  refine ⟨?_, ?_, fun i => ?_⟩
  · rw [hs.boost]
    split
    · exact .started (by decide) (by decide)
    · exact h.boost
  · rcases hs.respawn with he | he
    · rw [he]
      exact h.respawn
    · rw [he]
      exact hrespawn
  · rcases hs.dead i with he | ⟨_, he⟩
    · rw [he]
      exact h.dead i
    · rw [he]
      exact hrespawn

theorem ghostMoved_timers (g : GameState) (i : Fin numGhosts) (n : Point) :
    SameTimers g (ghostMoved g i n) := by
  refine ⟨rfl, rfl, fun j => ?_⟩
  rw [ghostMoved_ghosts]
  split
  · rename_i hj
    rw [hj]
    rfl
  · rfl

def moveFigures (g : GameState) (draws : List Nat) : Except Stop (GameState × List Nat) := do
  let g ← updatePacmanPosition g
  updateGhostsPositions g draws

variable {level : Nat}

theorem updateGameState_eq (g : GameState) (draws : List Nat) :
    updateGameState g draws = (do
      let (moved, _) ← moveFigures g draws
      pure (updateTimerState moved frameTime)) := by
  unfold updateGameState moveFigures
  cases updatePacmanPosition g with
  | error e => rfl
  | ok g₁ => rfl

theorem moveFigures_timers (hl : level < numLevels) (hb : Board level g) {draws rest : List Nat}
    {moved : GameState} (hm : moveFigures g draws = .ok (moved, rest)) :
    SameTimers (pacmanMoved g) moved := by
  rw [moveFigures, updatePacmanPosition_eq hb.pacman.1 (hb.target_inBounds hl), ok_bind,
    updateGhostsPositions] at hm
  rcases moveGhosts_rule (fun _ g₁ => Board level g₁ ∧ SameTimers (pacmanMoved g) g₁)
      (fun _ g₁ hg => hg.1.interior hl)
      (fun i _ g₁ n hg _ _ hn => ⟨hg.1.ghostMoved hn, hg.2.trans (ghostMoved_timers g₁ i n)⟩)
      (fun _ _ _ hg _ => hg) (List.finRange numGhosts) draws
      ⟨hb.pacmanMoved hl, rfl, rfl, fun _ => rfl⟩ with he | ⟨g₁, rest', he, hdone⟩
  · cases hm.symm.trans he
  · cases hm.symm.trans he
    rcases hdone with hnil | ⟨_, _, hcons, _⟩
    · exact hnil.2
    · exact hcons.2

theorem playFrame_ticked (hl : level < numLevels) (hb : Board level g) (ht : Timed g) {f : Frame}
    (hf : playFrame g f = .ok g') :
    Timed (pacmanMoved (processInput g f.input)) ∧
    Ticked (pacmanMoved (processInput g f.input)) g' := by
  have hb' := hb.congr (processInput_same g f.input)
  have ht' : Timed (processInput g f.input) := ⟨ht.boost, ht.respawn, ht.dead⟩
  rw [playFrame, updateGameState_eq] at hf
  obtain ⟨⟨moved, rest⟩, hm, hf⟩ := bind_eq_ok.mp hf
  cases hf
  have hsame := moveFigures_timers hl hb' hm
  have htm := ht'.started (pacmanMoved_started _)
  have htick := (htm.congr hsame).updateTimerState
  refine ⟨htm, ⟨?_, ?_, fun i => ?_⟩⟩
  · rw [← hsame.boost]
    exact htick.boost
  · rw [← hsame.respawn]
    exact htick.respawn
  · rw [← hsame.dead]
    exact htick.dead i

end FrameTimers

section Rounds
variable {level lives score : Nat} {g g' : GameState}

theorem initialState_timed (level lives score : Nat) : Timed (initialState level lives score) :=
  ⟨.stopped _ _, .stopped _ _, fun _ => .stopped _ _⟩

structure InTime (level : Nat) (g : GameState) : Prop where
  board : Board level g
  timed : Timed g

theorem InTime.playFrame (hl : level < numLevels) (h : InTime level g) {f : Frame}
    (hf : playFrame g f = .ok g') : InTime level g' := by
  obtain ⟨htm, ht⟩ := playFrame_ticked hl h.board h.timed hf
  exact ⟨h.board.playFrame hl hf, htm.ticked ht⟩

theorem Played.inTime (hl : level < numLevels) {frames : List Frame}
    (h : Played level lives score frames g) : InTime level g :=
  h.rule hl ⟨initialState_board hl, initialState_timed _ _ _⟩ fun _ _ _ hg hf => hg.playFrame hl hf

theorem Played.level_lt {frames : List Frame} (h : Played level lives score frames g) :
    level < numLevels := by
  obtain ⟨start, hstart, _⟩ := h
  unfold initializeRound at hstart
  split at hstart
  · assumption
  · cases hstart

def NoBooster (g : GameState) (f : Frame) : Prop := ¬ EntersBooster (processInput g f.input)

instance (g : GameState) (f : Frame) : Decidable (NoBooster g f) := inferInstanceAs (Decidable (¬ _))

theorem boostTimer_play (hl : level < numLevels) {rest : List Frame} (h : InTime level g)
    (hno : Along NoBooster rest g) (hplay : play rest g = .ok g') :
    boostTimer g' = (tick frameTime)^[rest.length] (boostTimer g) := by
  induction rest generalizing g with
  | nil =>
    cases hplay
    rfl
  | cons f rest ih =>
    rw [play, List.foldlM_cons] at hplay
    obtain ⟨g₁, hf, hplay⟩ := bind_eq_ok.mp hplay
    obtain ⟨_, ht⟩ := playFrame_ticked hl h.board h.timed hf
    have hs := pacmanMoved_started (processInput g f.input)
    rw [ih (h.playFrame hl hf) (hno.2 g₁ hf) hplay, ht.boost, hs.boost, if_neg hno.1]
    rfl

/-- A dead ghost cannot be eaten, so that frames only run its death down. -/
theorem ghostTimer_play (hl : level < numLevels) {i : Fin numGhosts} {n : Nat} {rest : List Frame}
    (h : InTime level g) (hg : ghostTimer (g.ghosts i) = (tick frameTime)^[n] (started respawnTime))
    (hn : (n + rest.length) * frameTime ≤ respawnTime) (hplay : play rest g = .ok g') :
    ghostTimer (g'.ghosts i) = (tick frameTime)^[n + rest.length] (started respawnTime) := by
  induction rest generalizing g n with
  | nil =>
    cases hplay
    exact hg
  | cons f rest ih =>
    rw [play, List.foldlM_cons] at hplay
    obtain ⟨g₁, hf, hplay⟩ := bind_eq_ok.mp hplay
    obtain ⟨_, ht⟩ := playFrame_ticked hl h.board h.timed hf
    rw [List.length_cons] at hn ⊢
    have hdead : (g.ghosts i).isAlive = false := by
      have hon : (ghostTimer (g.ghosts i)).on = true := by
        rw [hg, tick_iterate_started_on (by decide)]
        unfold frameTime at *
        omega
      simpa [ghostTimer] using hon
    have hkept : ghostTimer ((pacmanMoved (processInput g f.input)).ghosts i) =
        ghostTimer (g.ghosts i) := by
      rcases (pacmanMoved_started (processInput g f.input)).dead i with he | ⟨halive, _⟩
      · exact he
      · cases hdead.symm.trans halive
    have hnext : ghostTimer (g₁.ghosts i) = (tick frameTime)^[n + 1] (started respawnTime) := by
      rw [ht.dead, hkept, hg, Function.iterate_succ_apply']
    have hsum : n + (rest.length + 1) = n + 1 + rest.length := by omega
    rw [hsum] at hn ⊢
    exact ih (h.playFrame hl hf) hnext hn hplay

/-- The frame that takes a booster and 49 frames without one: the boost is over
at the end of the last. -/
theorem boost_lasts (hl : level < numLevels) (h : InTime level g) {f : Frame} {rest : List Frame}
    {g₁ : GameState} (hf : playFrame g f = .ok g₁) (hbooster : EntersBooster (processInput g f.input))
    (hno : Along NoBooster rest g₁) (hplay : play rest g₁ = .ok g') :
    g'.pacman.isBoosted = true ↔ rest.length + 1 < 50 := by
  obtain ⟨_, ht⟩ := playFrame_ticked hl h.board h.timed hf
  have hs := pacmanMoved_started (processInput g f.input)
  have hstart : boostTimer g₁ = (tick frameTime)^[1] (started boostedTime) := by
    rw [ht.boost, hs.boost, if_pos hbooster]
    rfl
  have hend : boostTimer g' = (tick frameTime)^[rest.length + 1] (started boostedTime) := by
    rw [boostTimer_play hl (h.playFrame hl hf) hno hplay, hstart, ← Function.iterate_add_apply]
  have hon : g'.pacman.isBoosted = (boostTimer g').on := rfl
  rw [hon, hend, tick_iterate_started_on (by decide)]
  unfold frameTime boostedTime
  omega

theorem death_lasts (hl : level < numLevels) (h : InTime level g) {i : Fin numGhosts} {f : Frame}
    {rest : List Frame} {met g₁ : GameState} (halive : (g.ghosts i).isAlive = true)
    (hmet : updatePacmanPosition (processInput g f.input) = .ok met)
    (hdead : (met.ghosts i).isAlive = false) (hf : playFrame g f = .ok g₁)
    (hplay : play rest g₁ = .ok g') (hlen : rest.length + 1 ≤ 30) :
    (g'.ghosts i).isAlive = true ↔ rest.length + 1 = 30 := by
  obtain ⟨_, ht⟩ := playFrame_ticked hl h.board h.timed hf
  have hb := h.board.congr (processInput_same g f.input)
  rw [updatePacmanPosition_eq hb.pacman.1 (hb.target_inBounds hl)] at hmet
  cases hmet
  have hstart : ghostTimer (g₁.ghosts i) = (tick frameTime)^[1] (started respawnTime) := by
    rcases (pacmanMoved_started (processInput g f.input)).dead i with he | ⟨_, he⟩
    · have hon : (!((pacmanMoved (processInput g f.input)).ghosts i).isAlive) = !(g.ghosts i).isAlive :=
        congrArg Timer.on he
      rw [hdead, halive] at hon
      cases hon
    · rw [ht.dead, he]
      rfl
  have hend := ghostTimer_play hl (h.playFrame hl hf) hstart
    (by unfold frameTime respawnTime; omega) hplay
  have hon : (ghostTimer (g'.ghosts i)).on = true ↔ (1 + rest.length) * frameTime < respawnTime := by
    rw [hend, tick_iterate_started_on (by decide)]
  rw [← Bool.not_eq_false, ← Bool.not_eq_true']
  refine (not_congr hon).trans ?_
  unfold frameTime respawnTime
  omega

/-- The timers of a round: they tell who is boosted and who is dead, no frame
takes them below 0, and they run for as long as they should. -/
theorem timers_run_down (frames : List Frame) (g : GameState)
    (h : Played level lives score frames g) :
    (g.pacman.isBoosted = true ↔ 0 < g.pacman.boostedTimer ∧ g.pacman.boostedTimer ≤ boostedTime) ∧
    (g.pacman.isAlive = false ↔ 0 < g.pacman.respawnTimer ∧ g.pacman.respawnTimer ≤ respawnTime) ∧
    (∀ i, (g.ghosts i).isAlive = false ↔
      0 < (g.ghosts i).deadTimer ∧ (g.ghosts i).deadTimer ≤ respawnTime) ∧
    (∀ input draws moved rest, moveFigures (processInput g input) draws = .ok (moved, rest) →
      CanElapse frameTime moved) ∧
    (∀ f g₁ rest g', playFrame g f = .ok g₁ → EntersBooster (processInput g f.input) →
      Along NoBooster rest g₁ → play rest g₁ = .ok g' →
      (g'.pacman.isBoosted = true ↔ rest.length + 1 < 50)) ∧
    (∀ i f met g₁ rest g', (g.ghosts i).isAlive = true →
      updatePacmanPosition (processInput g f.input) = .ok met → (met.ghosts i).isAlive = false →
      playFrame g f = .ok g₁ → play rest g₁ = .ok g' → rest.length + 1 ≤ 30 →
      ((g'.ghosts i).isAlive = true ↔ rest.length + 1 = 30)) := by
  have hl := h.level_lt
  have hin := h.inTime hl
  refine ⟨hin.timed.boost.on_iff_range, ?_, fun i => ?_, ?_, ?_, ?_⟩
  · simpa [respawnTimer] using hin.timed.respawn.on_iff_range
  · simpa [ghostTimer] using (hin.timed.dead i).on_iff_range
  · intro input draws moved rest hm
    have ht : Timed (processInput g input) := ⟨hin.timed.boost, hin.timed.respawn, hin.timed.dead⟩
    have hsame := moveFigures_timers hl (hin.board.congr (processInput_same g input)) hm
    exact ((ht.started (pacmanMoved_started _)).congr hsame).canElapse
  · intro f g₁ rest g' hf hbooster hno hplay
    exact boost_lasts hl hin hf hbooster hno hplay
  · intro i f met g₁ rest g' halive hmet hdead hf hplay hlen
    exact death_lasts hl hin halive hmet hdead hf hplay hlen

/-- Frames without a key in which the ghosts go up and down. -/
def waiting (n : Nat) : List Frame :=
  (List.range n).map fun k => ⟨' ', List.replicate 4 ((k + 1) % 2)⟩

theorem timers_run_down_booster : ∃ g g₁ g', Played 0 3 0 (boosterRun.take 8) g ∧
    playFrame g ⟨'d', [0, 0, 0, 0]⟩ = .ok g₁ ∧ play (waiting 49) g₁ = .ok g' ∧
    g'.pacman.isBoosted = false := by
  have hrun : checkRun (fun _ _ => True)
      (fun g => EntersBooster (processInput g 'd') ∧ checkRun (fun _ _ => True)
        (fun g₁ => checkRun NoBooster (fun _ => True) (waiting 49) g₁ = true)
        [⟨'d', [0, 0, 0, 0]⟩] g = true) (boosterRun.take 8) (initialState 0 3 0) = true := by
    decide +kernel
  obtain ⟨g, hg, hbooster, hnext⟩ := Played.of_check (by decide) hrun
  obtain ⟨g₁, _, hplay, hwait⟩ := checkRun_sound hnext
  rw [play, List.foldlM_cons] at hplay
  obtain ⟨g₂, hf, he⟩ := bind_eq_ok.mp hplay
  cases he
  obtain ⟨g', hno, hplay, _⟩ := checkRun_sound hwait
  obtain ⟨_, _, _, _, hboost, _⟩ := timers_run_down _ g hg
  have hover := (hboost _ g₁ _ g' hf hbooster hno hplay).not.mpr (by decide)
  exact ⟨g, g₁, g', hg, hf, hplay, Bool.eq_false_iff.mpr hover⟩

end Rounds

end Zeos.Game
