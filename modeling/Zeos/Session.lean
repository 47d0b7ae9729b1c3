import Zeos.Pages
import Zeos.Pellets

/-!
# `gameloop`

The loop of `user.c` around the rounds: a player types a name and plays until the
last life is lost, the leaderboard gets an entry, and after two games nothing more
happens. One step is what the process does between two waits: for the name, for the
next frame, or for the end of a `sleep`.
-/

namespace Zeos.Game

open Loops Runs Libc
set_option autoImplicit false

abbrev numLives : Nat := 1

/-- What the stack holds where the functions have arrays that they do not set. -/
structure Stack where
  clearStr : Buffer
  buffer : Buffer

/-- Where the process waits. -/
inductive Phase where
  | naming
  | playing
  | gameOver
  | scores
  | over
  deriving DecidableEq, Repr

/-- `player` is the array of `gameloop`, `currentPlayer` the one of the game. -/
structure Session where
  screen : Screen
  leaderboard : Nat → LeaderboardEntry
  leaderboardSize : Nat
  player : Buffer
  currentPlayer : Buffer
  game : GameState
  phase : Phase

def playerHasNoLife (game : GameState) : Bool := decide (game.lives ≤ 0)

def initializeEntry (leaderboard : Nat → LeaderboardEntry) (i : Nat) : Option (Nat → LeaderboardEntry) := do
  let name ← strcpy 4 (leaderboard i).name fun j => ((literal "sus")[j]?).getD 0
  some (Function.update leaderboard i ⟨name, 0⟩)

def initializeLeaderboard (leaderboard : Nat → LeaderboardEntry) : Option (Nat → LeaderboardEntry) :=
  (List.range maxLeaderboardEntries).foldlM initializeEntry leaderboard

/-- The `int` of the parameter `score` is stored as an `unsigned int` again. -/
def updateLeaderboard (s : Session) : Option Session :=
  if s.leaderboardSize < maxLeaderboardEntries then do
    let name ← strcpy (maxNameLength + 1) (s.leaderboard s.leaderboardSize).name s.currentPlayer
    some { s with
      leaderboard := Function.update s.leaderboard s.leaderboardSize ⟨name, s.game.score⟩
      leaderboardSize := s.leaderboardSize + 1 }
  else some s

/-- The head of the outer loop. -/
def nextPlayer (s : Session) (stack : Stack) : Session :=
  if maxLeaderboardEntries ≤ s.leaderboardSize then
    { s with screen := renderGameOver s.screen s.game.score stack.buffer, phase := .over }
  else { s with screen := renderIntroduceName s.screen, phase := .naming }

/-- `initializeRound`, with the copy of the name, and the first picture. -/
def startRound (s : Session) (level lives score : Nat) (name : Buffer) (ticks : Nat) (stack : Stack) :
    Option Session := do
  let currentPlayer ← strcpy (maxNameLength + 1) s.currentPlayer name
  let game ← (initializeRound level lives score).toOption
  let screen ← renderGame s.screen game currentPlayer ticks stack.clearStr stack.buffer
  some { s with screen := screen, currentPlayer := currentPlayer, game := game, phase := .playing }

/-- Once the name is typed; `get_player_name` also shows it. -/
def startGame (s : Session) (samples : List UInt8) (ticks : Nat) (stack : Stack) : Option Session := do
  let player ← getPlayerName s.player samples
  let screen := s.screen.print (chars (maxNameLength + 1) player)
  startRound { s with screen := screen, player := player } 0 numLives 0 player ticks stack

def endGame (s : Session) (stack : Stack) : Option Session := do
  let s ← updateLeaderboard s
  some { s with screen := renderGameOver s.screen s.game.score stack.buffer, phase := .gameOver }

def gameFrame (s : Session) (f : Frame) (ticks : Nat) (stack : Stack) : Option Session := do
  let game ← (playFrame s.game f).toOption
  let s := { s with game := game }
  if playerHasNoLife game then endGame s stack
  else if isRoundOver game then
    if game.level = 0 then startRound s 1 game.lives game.score s.currentPlayer ticks stack
    else endGame s stack
  else do
    let screen ← renderGame s.screen game s.currentPlayer ticks stack.clearStr stack.buffer
    some { s with screen := screen }

/-- What the process waits for, with what the stack then holds. -/
inductive Input where
  | name (samples : List UInt8) (ticks : Nat) (stack : Stack)
  | frame (f : Frame) (ticks : Nat) (stack : Stack)
  | awake (stack : Stack)

def Session.next (s : Session) (input : Input) : Option Session :=
  match s.phase, input with
  | .naming, .name samples ticks stack => startGame s samples ticks stack
  | .playing, .frame f ticks stack => gameFrame s f ticks stack
  | .gameOver, .awake stack =>
    some { s with
      screen := renderLeaderboard s.screen s.leaderboard s.leaderboardSize stack.buffer
      phase := .scores }
  | .scores, .awake stack => some (nextPlayer s stack)
  | _, _ => none

def SessionStep (s : Session) (input : Input) (t : Session) : Prop := s.next input = some t

/-- Before the loop: everything but the last byte of `player` and the leaderboard is
what the stack holds. -/
def gameloopStart (s : Session) (stack : Stack) : Option Session := do
  let player := Function.update s.player maxNameLength 0
  let leaderboard ← initializeLeaderboard s.leaderboard
  let buff := itodeca 0 stack.buffer
  some (nextPlayer { s with
    screen := s.screen.print (chars 32 buff)
    leaderboard := leaderboard
    leaderboardSize := 0
    player := player } stack)

section Steps
variable {s t : Session} {stack : Stack} {ticks : Nat}

theorem toOption_eq_some {α : Type} {x : Except Stop α} {a : α} : x.toOption = some a ↔ x = .ok a := by
  cases x with
  | error e => exact iff_of_false nofun nofun
  | ok b =>
    rw [Except.ok.injEq]
    exact Option.some_inj

theorem startRound_cases {level lives score : Nat} {name : Buffer}
    (h : startRound s level lives score name ticks stack = some t) :
    ∃ currentPlayer game screen, strcpy (maxNameLength + 1) s.currentPlayer name = some currentPlayer ∧
      initializeRound level lives score = .ok game ∧
      renderGame s.screen game currentPlayer ticks stack.clearStr stack.buffer = some screen ∧
      t = { s with screen := screen, currentPlayer := currentPlayer, game := game, phase := .playing } := by
  obtain ⟨currentPlayer, hcopy, h⟩ := Option.bind_eq_some_iff.mp h
  obtain ⟨game, hinit, h⟩ := Option.bind_eq_some_iff.mp h
  obtain ⟨screen, hrender, h⟩ := Option.bind_eq_some_iff.mp h
  exact ⟨currentPlayer, game, screen, hcopy, toOption_eq_some.mp hinit, hrender, (Option.some.inj h).symm⟩

theorem startGame_cases {samples : List UInt8} (h : startGame s samples ticks stack = some t) :
    ∃ player, getPlayerName s.player samples = some player ∧
      startRound { s with screen := s.screen.print (chars (maxNameLength + 1) player), player := player }
        0 numLives 0 player ticks stack = some t := Option.bind_eq_some_iff.mp h

theorem endGame_cases (h : endGame s stack = some t) (hsize : s.leaderboardSize < maxLeaderboardEntries) :
    ∃ name, strcpy (maxNameLength + 1) (s.leaderboard s.leaderboardSize).name s.currentPlayer = some name ∧
      t = { s with
        leaderboard := Function.update s.leaderboard s.leaderboardSize ⟨name, s.game.score⟩
        leaderboardSize := s.leaderboardSize + 1
        screen := renderGameOver s.screen s.game.score stack.buffer
        phase := .gameOver } := by
  obtain ⟨s₁, hupdate, h⟩ := Option.bind_eq_some_iff.mp h
  rw [updateLeaderboard, if_pos hsize] at hupdate
  obtain ⟨name, hcopy, hupdate⟩ := Option.bind_eq_some_iff.mp hupdate
  cases hupdate
  exact ⟨name, hcopy, (Option.some.inj h).symm⟩

theorem gameFrame_cases {f : Frame} (h : gameFrame s f ticks stack = some t) :
    ∃ game, playFrame s.game f = .ok game ∧
      ((game.lives = 0 ∧ endGame { s with game := game } stack = some t) ∨
        (game.lives ≠ 0 ∧ isRoundOver game = true ∧
          (startRound { s with game := game } 1 game.lives game.score s.currentPlayer ticks stack = some t ∨
            endGame { s with game := game } stack = some t)) ∨
        (game.lives ≠ 0 ∧ isRoundOver game = false ∧
          ∃ screen, renderGame s.screen game s.currentPlayer ticks stack.clearStr stack.buffer = some screen ∧
            t = { s with game := game, screen := screen })) := by
  obtain ⟨game, hplay, h⟩ := Option.bind_eq_some_iff.mp h
  refine ⟨game, toOption_eq_some.mp hplay, ?_⟩
  by_cases hlives : game.lives = 0
  · refine .inl ⟨hlives, ?_⟩
    rw [if_pos (by simp [playerHasNoLife, hlives])] at h
    exact h
  · rw [if_neg (by simpa [playerHasNoLife] using hlives)] at h
    cases hover : isRoundOver game with
    | true =>
      refine .inr (.inl ⟨hlives, rfl, ?_⟩)
      rw [hover, if_pos rfl] at h
      split at h
      · exact .inl h
      · exact .inr h
    | false =>
      rw [hover, if_neg (by decide)] at h
      obtain ⟨screen, hrender, h⟩ := Option.bind_eq_some_iff.mp h
      exact .inr (.inr ⟨hlives, rfl, screen, hrender, (Option.some.inj h).symm⟩)

theorem Session.next_cases {input : Input} (h : s.next input = some t) :
    (∃ samples ticks stack, input = .name samples ticks stack ∧ s.phase = .naming ∧
      startGame s samples ticks stack = some t) ∨
    (∃ f ticks stack, input = .frame f ticks stack ∧ s.phase = .playing ∧
      gameFrame s f ticks stack = some t) ∨
    (∃ stack, input = .awake stack ∧ s.phase = .gameOver ∧
      t = { s with
        screen := renderLeaderboard s.screen s.leaderboard s.leaderboardSize stack.buffer
        phase := .scores }) ∨
    (∃ stack, input = .awake stack ∧ s.phase = .scores ∧ t = nextPlayer s stack) := by
  unfold Session.next at h
  split at h
  · rename_i hphase
    exact .inl ⟨_, _, _, rfl, hphase, h⟩
  · rename_i hphase
    exact .inr (.inl ⟨_, _, _, rfl, hphase, h⟩)
  · rename_i hphase
    exact .inr (.inr (.inl ⟨_, rfl, hphase, (Option.some.inj h).symm⟩))
  · rename_i hphase
    exact .inr (.inr (.inr ⟨_, rfl, hphase, (Option.some.inj h).symm⟩))
  · cases h

end Steps

section Games
variable {level lives score : Nat} {frames : List Frame} {g g' : GameState} {f : Frame}

theorem Played.snoc (h : Played level lives score frames g) (hf : playFrame g f = .ok g') :
    Played level lives score (frames ++ [f]) g' := by
  obtain ⟨start, hstart, hplay⟩ := h
  refine ⟨start, hstart, ?_⟩
  have happend : play (frames ++ [f]) start = play frames start >>= fun g => play [f] g :=
    List.foldlM_append
  rw [happend, hplay, ok_bind]
  change (playFrame g f >>= pure) = .ok g'
  rw [hf]
  rfl

theorem pacmanMoved_lives (g : GameState) :
    (pacmanMoved g).lives = g.lives ∨ (pacmanMoved g).lives = uint32 (g.lives - 1) := by
  rcases pacmanMoved_cases g with ⟨_, he⟩ | ⟨_, _, he⟩ | ⟨_, _, hate, _⟩
  · rw [he, walked_lives]
    exact .inl rfl
  · have hlose : (losePacman (walked g)).lives = uint32 ((walked g).lives - 1) := rfl
    rw [he, hlose, walked_lives]
    exact .inr rfl
  · rw [hate.lives, walked_lives]
    exact .inl rfl

theorem Played.last_life (hl : level < numLevels) (h : Played level lives score frames g)
    (hone : g.lives = 1) (hf : playFrame g f = .ok g') : g'.lives = 1 ∨ g'.lives = 0 := by
  have hb := (h.board hl).congr (processInput_same g f.input)
  have hlives := (updateGameState_account hl hb hf).1
  have hinput : (processInput g f.input).lives = 1 := hone
  rcases pacmanMoved_lives (processInput g f.input) with he | he
  · exact .inl (hlives.trans (he.trans hinput))
  · rw [hinput] at he
    exact .inr (hlives.trans he)

end Games

inductive Move where
  | typed (samples : List UInt8)
  | frame (f : Frame)

def Input.moves : Input → List Move
  | .name samples _ _ => [.typed samples]
  | .frame f _ _ => [.frame f]
  | .awake _ => []

def nameOf (b : Buffer) : List UInt8 := (chars maxNameLength b).takeWhile fun c => c ≠ 0

/-- A game from its name to the last life: always on the first level. -/
structure Finished where
  samples : List UInt8
  before : Buffer
  player : Buffer
  named : getPlayerName before samples = some player
  frames : List Frame
  last : GameState
  played : Played 0 numLives 0 frames last
  lost : last.lives = 0

def Finished.moves (game : Finished) : List Move := .typed game.samples :: game.frames.map .frame

structure Current (s : Session) (current : List Move) : Prop where
  room : s.leaderboardSize < maxLeaderboardEntries
  name : HoldsString s.currentPlayer (nameOf s.player)
  lives : s.game.lives = numLives
  moves : ∃ before samples frames, getPlayerName before samples = some s.player ∧
    current = .typed samples :: frames.map .frame ∧ Played 0 numLives 0 frames s.game

def InPhase (s : Session) (games : List Finished) (current : List Move) : Prop :=
  match s.phase with
  | .naming => s.leaderboardSize < maxLeaderboardEntries ∧ current = []
  | .playing => Current s current
  | .gameOver | .scores => current = [] ∧ ∃ game, games.getLast? = some game ∧ s.game = game.last
  | .over => s.leaderboardSize = maxLeaderboardEntries ∧ current = [] ∧
    ∃ game, games.getLast? = some game ∧ s.game = game.last

/-- The leaderboard lists the finished games, the first one first. -/
structure Ledger (s : Session) (games : List Finished) (current : List Move) : Prop where
  size : games.length = s.leaderboardSize
  most : s.leaderboardSize ≤ maxLeaderboardEntries
  entries : ∀ i game, games[i]? = some game → (s.leaderboard i).score = game.last.score ∧
    HoldsString (s.leaderboard i).name (nameOf game.player)
  phase : InPhase s games current

theorem length_chars (size : Nat) (b : Buffer) : (chars size b).length = size := by
  rw [chars, List.length_map, List.length_range]

theorem nameOf_length (b : Buffer) : (nameOf b).length ≤ maxNameLength :=
  Nat.le_trans (List.takeWhile_prefix _).length_le (Nat.le_of_eq (length_chars maxNameLength b))

theorem holdsString_nameOf {b : Buffer} (h : b maxNameLength = 0) : HoldsString b (nameOf b) := by
  have hget : ∀ j v, (chars maxNameLength b)[j]? = some v → b j = v := by
    intro j v hj
    have hlt := (List.getElem?_eq_some_iff.mp hj).1
    rw [length_chars] at hlt
    simp only [chars, List.getElem?_map, List.getElem?_range hlt, Option.map_some] at hj
    exact Option.some.inj hj
  have hsplit : nameOf b ++ (chars maxNameLength b).dropWhile (fun c => c ≠ 0) = chars maxNameLength b :=
    List.takeWhile_append_dropWhile
  refine ⟨?_, ?_, ?_⟩
  · intro j v hj
    rw [Nat.zero_add]
    apply hget
    rw [← hsplit, List.getElem?_append_left (List.getElem?_eq_some_iff.mp hj).1]
    exact hj
  · intro hm
    exact absurd (List.mem_takeWhile_imp hm) (by decide)
  · -- the next byte is the first NUL, or the one behind the array's last character
    cases hrest : (chars maxNameLength b).dropWhile (fun c => c ≠ 0) with
    | nil =>
      have hlen := congrArg List.length hsplit
      rw [hrest, List.append_nil, length_chars] at hlen
      rw [hlen]
      exact h
    | cons d rest =>
      have hd : d = 0 := by
        have hstop := List.head_dropWhile_not (fun c : UInt8 => decide (c ≠ 0))
          (l := chars maxNameLength b) (by rw [hrest]; exact List.cons_ne_nil _ _)
        simp only [hrest, List.head_cons] at hstop
        simpa using hstop
      apply hget
      rw [← hsplit, hrest, List.getElem?_append_right (Nat.le_refl _), Nat.sub_self, hd]
      rfl

theorem getPlayerName_end {name player : Buffer} {samples : List UInt8}
    (h : getPlayerName name samples = some player) : player maxNameLength = 0 := by
  obtain ⟨s', hs', rfl⟩ := Option.map_eq_some_iff.mp h
  have hadd := nameLoop_added (s := ⟨Function.update name maxNameLength 0, 0, 0⟩) (Nat.zero_le _) hs'
  have hrest := hadd.rest maxNameLength (.inr (by rw [Nat.zero_add]; exact List.length_take_le ..))
  rw [hrest]
  change Function.update name maxNameLength 0 maxNameLength = 0
  rw [Function.update_self]

section Ledgers
variable {s t : Session} {games : List Finished} {current : List Move} {stack : Stack} {ticks : Nat}

theorem Ledger.startGame {samples : List UInt8} (h : Ledger s games current) (hphase : s.phase = .naming)
    (ht : startGame s samples ticks stack = some t) :
    current = [] ∧ Ledger t games [.typed samples] := by
  have hin := h.phase
  rw [InPhase, hphase] at hin
  obtain ⟨player, hnamed, hstart⟩ := startGame_cases ht
  obtain ⟨name, game, screen, hcopy, hinit, _, rfl⟩ := startRound_cases hstart
  obtain ⟨name', hcopy', hholds, _⟩ := strcpy_spec (holdsString_nameOf (getPlayerName_end hnamed))
    (Nat.lt_succ_of_le (nameOf_length player)) s.currentPlayer
  cases hcopy.symm.trans hcopy'
  refine ⟨hin.2, h.size, h.most, h.entries, ?_⟩
  have hlives : game.lives = numLives := by
    cases (initializeRound_eq (by decide)).symm.trans hinit
    rfl
  exact ⟨hin.1, hholds, hlives, s.player, samples, [], hnamed, rfl, _, hinit, rfl⟩

/-- The counter of the pellets never ends the round, so a frame goes on or ends the game. -/
theorem Ledger.gameFrame {f : Frame} (h : Ledger s games current) (hphase : s.phase = .playing)
    (ht : gameFrame s f ticks stack = some t) :
    ∃ games' current', games.flatMap Finished.moves ++ current ++ [.frame f] =
      games'.flatMap Finished.moves ++ current' ∧ Ledger t games' current' := by
  have hin := h.phase
  rw [InPhase, hphase] at hin
  obtain ⟨hroom, hname, hlives, before, samples, frames, hnamed, rfl, hplayed⟩ := hin
  obtain ⟨game, hplay, hcases⟩ := gameFrame_cases ht
  have hsnoc := hplayed.snoc hplay
  rcases hcases with ⟨hlost, hend⟩ | ⟨_, hover, _⟩ | ⟨halive, _, screen, _, rfl⟩
  · obtain ⟨name, hcopy, rfl⟩ := endGame_cases hend hroom
    obtain ⟨name', hcopy', hholds, _⟩ := strcpy_spec hname (Nat.lt_succ_of_le (nameOf_length s.player))
      (s.leaderboard s.leaderboardSize).name
    cases hcopy.symm.trans hcopy'
    let last : Finished := ⟨samples, before, s.player, hnamed, frames ++ [f], game, hsnoc, hlost⟩
    refine ⟨games ++ [last], [], ?_, ?_, hroom, ?_, rfl, last, List.getLast?_concat, rfl⟩
    · simp only [List.flatMap_append, List.flatMap_singleton, Finished.moves, last, List.map_append,
        List.map_singleton, List.cons_append, List.append_assoc, List.append_nil]
    · rw [List.length_append, h.size]
      rfl
    · intro i entry hi
      dsimp only
      rcases Nat.lt_trichotomy i games.length with hlt | rfl | hgt
      · rw [List.getElem?_append_left hlt] at hi
        rw [Function.update_of_ne (by rw [← h.size]; exact Nat.ne_of_lt hlt)]
        exact h.entries i entry hi
      · rw [List.getElem?_concat_length] at hi
        cases hi
        rw [h.size, Function.update_self]
        exact ⟨rfl, hholds⟩
      · rw [List.getElem?_eq_none (by rw [List.length_append]; exact hgt)] at hi
        cases hi
  · rw [isRoundOver, hsnoc.pelletsRemaining (by decide)] at hover
    exact absurd hover (by decide)
  · refine ⟨games, .typed samples :: (frames ++ [f]).map .frame, ?_, h.size, h.most, h.entries, ?_⟩
    · rw [List.map_append, List.append_assoc]
      rfl
    · have hone : game.lives = numLives := (hplayed.last_life (by decide) hlives hplay).resolve_right halive
      have hcurrent : Current { s with game := game, screen := screen }
          (.typed samples :: (frames ++ [f]).map .frame) :=
        ⟨hroom, hname, hone, before, samples, frames ++ [f], hnamed, rfl, hsnoc⟩
      unfold InPhase
      split
      all_goals rename_i hother
      all_goals first | exact hcurrent | cases hphase.symm.trans hother

theorem Ledger.next {input : Input} (h : Ledger s games current) (ht : s.next input = some t) :
    ∃ games' current', games.flatMap Finished.moves ++ current ++ input.moves =
      games'.flatMap Finished.moves ++ current' ∧ Ledger t games' current' := by
  have hin := h.phase
  rcases Session.next_cases ht with ⟨samples, ticks, stack, rfl, hphase, ht⟩ |
    ⟨f, ticks, stack, rfl, hphase, ht⟩ | ⟨stack, rfl, hphase, rfl⟩ | ⟨stack, rfl, hphase, rfl⟩
  · obtain ⟨rfl, hledger⟩ := h.startGame hphase ht
    refine ⟨games, _, ?_, hledger⟩
    rw [List.append_nil]
    rfl
  · exact h.gameFrame hphase ht
  · rw [InPhase, hphase] at hin
    exact ⟨games, current, List.append_nil _, h.size, h.most, h.entries, hin⟩
  · rw [InPhase, hphase] at hin
    refine ⟨games, current, List.append_nil _, ?_⟩
    unfold nextPlayer
    split
    · rename_i hfull
      exact ⟨h.size, h.most, h.entries, le_antisymm h.most hfull, hin⟩
    · rename_i hroom
      exact ⟨h.size, h.most, h.entries, not_le.mp hroom, hin.1⟩

end Ledgers

theorem gameloopStart_ledger {s start : Session} {stack : Stack} (h : gameloopStart s stack = some start) :
    Ledger start [] [] := by
  unfold gameloopStart at h
  obtain ⟨leaderboard, _, h⟩ := Option.bind_eq_some_iff.mp h
  cases h
  have hphase : InPhase (nextPlayer { s with
      screen := s.screen.print (chars 32 (itodeca 0 stack.buffer))
      leaderboard := leaderboard
      leaderboardSize := 0
      player := Function.update s.player maxNameLength 0 } stack) [] [] := ⟨Nat.succ_pos 1, rfl⟩
  exact ⟨rfl, Nat.zero_le _, fun i game hi => (by cases hi), hphase⟩

/-- What was typed and played is split into games without a gap: each lasts from its name
to the last life, on the first level. The leaderboard lists these, with their scores and
names, in this order; there are never more than two. -/
theorem session_lists_games (s start t : Session) (stack : Stack) (tr : List Input)
    (hstart : gameloopStart s stack = some start) (h : Run SessionStep start tr t) :
    ∃ games current, tr.reverse.flatMap Input.moves = games.flatMap Finished.moves ++ current ∧
      Ledger t games current := by
  apply h.invariant_trace (fun tr t => ∃ games current,
    tr.reverse.flatMap Input.moves = games.flatMap Finished.moves ++ current ∧ Ledger t games current)
  · exact ⟨[], [], rfl, gameloopStart_ledger hstart⟩
  · intro tr t input u ht hstep
    obtain ⟨games, current, htrace, hledger⟩ := ht
    obtain ⟨games', current', hmoves, hledger'⟩ := hledger.next hstep
    refine ⟨games', current', ?_, hledger'⟩
    rw [List.reverse_cons, List.flatMap_append, htrace, List.flatMap_singleton]
    exact hmoves

/-- A frame after which the game goes on. -/
def GoesOn (g : GameState) (f : Frame) : Prop :=
  ∀ g', playFrame g f = .ok g' → g'.lives ≠ 0 ∧ isRoundOver g' = false

section Plays
variable {s : Session} {ticks : Nat} {frames : List Frame} {g : GameState}

theorem Session.next_name {samples : List UInt8} {stack : Stack} (hphase : s.phase = .naming) :
    s.next (.name samples ticks stack) = startGame s samples ticks stack := by
  unfold Session.next
  rw [hphase]

theorem Session.next_frame {f : Frame} {stack : Stack} (hphase : s.phase = .playing) :
    s.next (.frame f ticks stack) = gameFrame s f ticks stack := by
  unfold Session.next
  rw [hphase]

theorem renderGame_some (screen : Screen) {currentPlayer : Buffer} {name : List UInt8}
    (hticks : ticks + 1 < 4294967296) (hname : HoldsString currentPlayer name)
    (hlen : name.length ≤ maxNameLength) (clearStr buffer : Buffer) :
    ∃ screen', renderGame screen g currentPlayer ticks clearStr buffer = some screen' :=
  ⟨_, renderFooter_eq hticks hname hlen⟩

theorem exists_frames_run {name : List UInt8} (stack : Stack) (hticks : ticks + 1 < 4294967296)
    (hphase : s.phase = .playing) (hname : HoldsString s.currentPlayer name)
    (hlen : name.length ≤ maxNameLength)
    (halong : Along GoesOn frames s.game) (hplay : play frames s.game = .ok g) :
    ∃ tr screen, Run SessionStep s tr { s with game := g, screen := screen } ∧
      tr.reverse.flatMap Input.moves = frames.map .frame := by
  induction frames generalizing s with
  | nil =>
    cases hplay
    exact ⟨[], s.screen, .nil, rfl⟩
  | cons f frames ih =>
    rw [play, List.foldlM_cons] at hplay
    obtain ⟨g₁, hf, hplay⟩ := bind_eq_ok.mp hplay
    obtain ⟨halive, hover⟩ := halong.1 g₁ hf
    obtain ⟨screen, hrender⟩ := renderGame_some s.screen (g := g₁) hticks hname hlen
      stack.clearStr stack.buffer
    have hstep : SessionStep s (.frame f ticks stack) { s with game := g₁, screen := screen } := by
      have hlife : playerHasNoLife g₁ = false := by simpa [playerHasNoLife] using halive
      simp only [SessionStep, Session.next_frame hphase, gameFrame, hf, Except.toOption, Option.bind_eq_bind,
        Option.bind_some, hlife, hover, hrender]
      rfl
    obtain ⟨tr, screen', hrun, hmoves⟩ := ih (s := { s with game := g₁, screen := screen }) hphase hname
      (halong.2 g₁ hf) hplay
    refine ⟨tr ++ [.frame f ticks stack], screen', (Run.nil.snoc hstep).append hrun, ?_⟩
    rw [List.reverse_append, List.flatMap_append, hmoves]
    rfl

theorem exists_game (samples : List UInt8) {player : Buffer} {f : Frame} {g' : GameState} (stack : Stack)
    (hticks : ticks + 1 < 4294967296) (hphase : s.phase = .naming)
    (hroom : s.leaderboardSize < maxLeaderboardEntries)
    (hnamed : getPlayerName s.player samples = some player)
    (halong : Along GoesOn frames (initialState 0 numLives 0))
    (hplay : play frames (initialState 0 numLives 0) = .ok g) (hf : playFrame g f = .ok g')
    (hlost : g'.lives = 0) :
    ∃ tr t, Run SessionStep s tr t ∧ t.phase = .gameOver ∧ t.leaderboardSize = s.leaderboardSize + 1 ∧
      tr.reverse.flatMap Input.moves = .typed samples :: (frames ++ [f]).map .frame := by
  have hname := holdsString_nameOf (getPlayerName_end hnamed)
  have hlen := nameOf_length player
  obtain ⟨currentPlayer, hcopy, hholds, _⟩ := strcpy_spec hname (Nat.lt_succ_of_le hlen) s.currentPlayer
  obtain ⟨screen, hrender⟩ := renderGame_some (s.screen.print (chars (maxNameLength + 1) player))
    (g := initialState 0 numLives 0) hticks hholds hlen stack.clearStr stack.buffer
  have hstep : SessionStep s (.name samples ticks stack) { s with
      screen := screen
      player := player
      currentPlayer := currentPlayer
      game := initialState 0 numLives 0
      phase := .playing } := by
    simp only [SessionStep, Session.next_name hphase, startGame, startRound, hnamed, hcopy, Except.toOption,
      initializeRound_eq (show 0 < numLevels by decide), hrender, Option.bind_eq_bind, Option.bind_some]
  obtain ⟨tr, screen', hrun, hmoves⟩ := exists_frames_run (s := { s with
      screen := screen
      player := player
      currentPlayer := currentPlayer
      game := initialState 0 numLives 0
      phase := .playing }) stack hticks rfl hholds hlen halong hplay
  obtain ⟨entry, hentry, _, _⟩ := strcpy_spec hholds (Nat.lt_succ_of_le hlen)
    (s.leaderboard s.leaderboardSize).name
  have hlast : SessionStep { s with
        screen := screen'
        player := player
        currentPlayer := currentPlayer
        game := g
        phase := .playing } (.frame f ticks stack) { s with
      screen := renderGameOver screen' g'.score stack.buffer
      player := player
      currentPlayer := currentPlayer
      game := g'
      leaderboard := Function.update s.leaderboard s.leaderboardSize ⟨entry, g'.score⟩
      leaderboardSize := s.leaderboardSize + 1
      phase := .gameOver } := by
    have hlife : playerHasNoLife g' = true := by simp [playerHasNoLife, hlost]
    rw [SessionStep, Session.next_frame rfl]
    simp only [gameFrame, hf, Except.toOption, Option.bind_eq_bind,
      Option.bind_some, hlife, if_true, endGame, updateLeaderboard, if_pos hroom, hentry]
  refine ⟨_, _, ((Run.nil.snoc hstep).append hrun).snoc hlast, rfl, rfl, ?_⟩
  rw [List.reverse_cons, List.reverse_append, List.flatMap_append, List.flatMap_append, hmoves,
    List.map_append]
  rfl

end Plays

theorem exists_initializeEntry (leaderboard : Nat → LeaderboardEntry) (i : Nat) :
    ∃ leaderboard', initializeEntry leaderboard i = some leaderboard' := by
  have hsus : HoldsString (fun j => ((literal "sus")[j]?).getD 0) (text "sus") := by
    refine ⟨?_, by decide, rfl⟩
    intro j v hj
    have hlt : j < 3 := (List.getElem?_eq_some_iff.mp hj).1
    interval_cases j <;> exact Option.some.inj hj
  obtain ⟨name, hcopy, _⟩ := strcpy_spec hsus (n := 4) (by decide) (leaderboard i).name
  refine ⟨Function.update leaderboard i ⟨name, 0⟩, ?_⟩
  rw [initializeEntry, hcopy]
  rfl

theorem exists_foldlM_some {σ α : Type} {f : σ → α → Option σ} (hf : ∀ s a, ∃ s', f s a = some s')
    (l : List α) (s : σ) : ∃ s', l.foldlM f s = some s' := by
  induction l generalizing s with
  | nil => exact ⟨s, rfl⟩
  | cons a l ih =>
    obtain ⟨t, ht⟩ := hf s a
    obtain ⟨s', hs'⟩ := ih t
    refine ⟨s', ?_⟩
    rw [List.foldlM_cons, ht]
    exact hs'

theorem exists_gameloopStart (s : Session) (stack : Stack) : ∃ start, gameloopStart s stack = some start ∧
    start.phase = .naming ∧ start.leaderboardSize = 0 ∧
    start.player = Function.update s.player maxNameLength 0 := by
  obtain ⟨leaderboard, hinit⟩ := exists_foldlM_some exists_initializeEntry (List.range maxLeaderboardEntries)
    s.leaderboard
  have hstart : gameloopStart s stack = some (nextPlayer { s with
      screen := s.screen.print (chars 32 (itodeca 0 stack.buffer))
      leaderboard := leaderboard
      leaderboardSize := 0
      player := Function.update s.player maxNameLength 0 } stack) := by
    rw [gameloopStart, initializeLeaderboard, hinit]
    rfl
  exact ⟨_, hstart, rfl, rfl, rfl⟩

instance (g : GameState) (f : Frame) : Decidable (GoesOn g f) :=
  match h : playFrame g f with
  | .error _ => isTrue fun g' h' => by cases h.symm.trans h'
  | .ok g₁ =>
    if halive : g₁.lives ≠ 0 ∧ isRoundOver g₁ = false then
      isTrue fun g' h' => by cases h.symm.trans h'; exact halive
    else isFalse fun hon => halive (hon g₁ h)

theorem exists_caught : ∃ start tr t frames, gameloopStart
      ⟨.initial fun _ => 0, fun _ => ⟨fun _ => 0, 0⟩, 0, fun _ => 0, fun _ => 0, initialState 0 1 0, .over⟩
      ⟨fun _ => 0, fun _ => 0⟩ = some start ∧ Run SessionStep start tr t ∧ t.phase = .gameOver ∧
    t.leaderboardSize = 1 ∧
    tr.reverse.flatMap Input.moves = .typed [charCode '.'] :: List.map .frame frames := by
  have hcheck : checkRun GoesOn
      (fun g => checkRun (fun _ _ => True) (fun g' => g'.lives = 0) [⟨' ', []⟩] g = true)
      contactRun (initialState 0 numLives 0) = true := by
    decide +kernel
  obtain ⟨g, halong, hplay, hnext⟩ := checkRun_sound hcheck
  obtain ⟨g', _, hlast, hlost⟩ := checkRun_sound hnext
  have hf : playFrame g ⟨' ', []⟩ = .ok g' := by
    rw [play, List.foldlM_cons] at hlast
    obtain ⟨g₁, hf, he⟩ := bind_eq_ok.mp hlast
    cases he
    exact hf
  obtain ⟨start, hstart, hphase, hsize, hplayer⟩ := exists_gameloopStart
    ⟨.initial fun _ => 0, fun _ => ⟨fun _ => 0, 0⟩, 0, fun _ => 0, fun _ => 0, initialState 0 1 0, .over⟩
    ⟨fun _ => 0, fun _ => 0⟩
  obtain ⟨tr, t, hrun, hover, hone, hmoves⟩ := exists_game (s := start) [charCode '.']
    ⟨fun _ => 0, fun _ => 0⟩ (show 80 + 1 < 4294967296 by decide) hphase (by rw [hsize]; decide) rfl
    halong hplay hf hlost
  exact ⟨start, tr, t, _, hstart, hrun, hover, hone.trans (by rw [hsize]), hmoves⟩

/-- His game is the only one of the list. -/
theorem session_lists_games_caught : ∃ start tr t game, gameloopStart
      ⟨.initial fun _ => 0, fun _ => ⟨fun _ => 0, 0⟩, 0, fun _ => 0, fun _ => 0, initialState 0 1 0, .over⟩
      ⟨fun _ => 0, fun _ => 0⟩ = some start ∧ Run SessionStep start tr t ∧ t.leaderboardSize = 1 ∧
    Ledger t [game] [] := by
  obtain ⟨start, tr, t, _, hstart, hrun, hover, hone, _⟩ := exists_caught
  obtain ⟨games, current, _, hledger⟩ := session_lists_games _ start t _ tr hstart hrun
  have hin := hledger.phase
  rw [InPhase, hover] at hin
  have hlen := hledger.size
  rw [hone] at hlen
  obtain ⟨game, rfl⟩ := List.length_eq_one_iff.mp hlen
  exact ⟨start, tr, t, game, hstart, hrun, hone, hin.1 ▸ hledger⟩

end Zeos.Game
