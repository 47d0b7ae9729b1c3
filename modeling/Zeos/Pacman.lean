import Zeos.Types
import Zeos.Lib.Loops
import Mathlib.Data.List.FinRange

/-!
# `pacman.c`

The video game of the user program, without its rendering. The player's name and
the leaderboard belong to the session around it. Coordinates, score, lives and
timers are `unsigned int`, so that a coordinate below 0 is a huge number; every
access to the map is checked here, as the source should but does not. `random` is
given by the results of `rand_range(0, 4)`, one list for each frame.
-/

namespace Zeos.Game

open Loops
set_option autoImplicit false

/-- Why an update does not return: an access outside the map, or a retry loop
that has used up all draws of the frame and asks for the next one. -/
inductive Stop where
  | outOfBounds
  | needsDraw
  deriving DecidableEq, Repr

abbrev mapHeight : Nat := 24
abbrev mapWidth : Nat := 80
abbrev numLevels : Nat := 2
abbrev numGhosts : Nat := 4
abbrev pelletPoints : Nat := 10
abbrev boosterPoints : Nat := 50
abbrev ghostPoints : Nat := 200
abbrev boostedTime : Nat := 5000
abbrev respawnTime : Nat := 3000

inductive Color where
  | black
  | cyan
  | red
  | lightGreen
  | lightCyan
  | lightMagenta
  | white
  deriving DecidableEq, Repr

structure Point where
  x : Nat
  y : Nat
  deriving DecidableEq, Repr

inductive Algorithm where
  | random
  | bfs
  | dfs
  | dijkstra
  deriving DecidableEq, Repr

inductive Direction where
  | up
  | down
  | right
  | left
  | none
  deriving DecidableEq, Repr

inductive Behaviour where
  | chase
  | runAway
  | still
  deriving DecidableEq, Repr

structure Ghost where
  spawnPoint : Point
  position : Point
  direction : Direction
  skin : Char
  tile : Char
  fgColor : Color
  bgColor : Color
  isAlive : Bool
  deadTimer : Nat
  algorithm : Algorithm
  behaviour : Behaviour
  deriving DecidableEq, Repr

structure Pacman where
  position : Point
  spawnPoint : Point
  direction : Direction
  fgColor : Color
  bgColor : Color
  skin : Char
  isBoosted : Bool
  boostedTimer : Nat
  isAlive : Bool
  respawnTimer : Nat
  deriving DecidableEq, Repr

structure GameState where
  pacman : Pacman
  ghosts : Fin numGhosts → Ghost
  score : Nat
  lives : Nat
  pelletsRemaining : Nat
  level : Nat
  map : Point → Char

def predefinedMap0 : List String :=
  ["################################################################################",
   "#*...................................#####....................................*#",
   "#.###.###.###.###.###.###.###.###.##.#####.##.###.###.###.###.###.###.###.####.#",
   "#.###.###.###.###.###.###.###.###.##.#####.##.###.###.###.###.###.###.###.####.#",
   "#.###.###.###.###.###*###.###.###.##.#####.##.###.###.###*###.###.###.###.####.#",
   "#.............###.###.###.###.###.##.#####.##.###.###.###.###.###..............#",
   "#.###.###.###.###.###.###.###.###.##.#####.##.###.###.###.###.###.###.###.####.#",
   "#.###.###.###.###.###.###..............*..............###.###.###.###.###.####.#",
   "#.###.###.###.###.###.###.#######.###########.#######.###.###.###.###.###.####.#",
   "#*........................#######.#.........#.#######.........................*#",
   "#################.###.###.........#.........#.........###.###.##################",
   "#################*###.###.#########.........#########.###*###.##################",
   "#################.###.###..............*..............###.###.##################",
   "#################.###.###.#########.........#########.###.###.##################",
   "#*................................#.........#.................................*#",
   "#.###.###.###.###.###.###.#######.#.........#.#######.###.###.###.###.###.####.#",
   "#.###.###.###.###.###.###.#######.#.........#.#######.###.###.###.###.###.####.#",
   "#.###.###.###.###.###.###.#######.###########.#######.###.###.###.###.###.####.#",
   "#.............###.###.###..............*..............###.###.###..............#",
   "#.###.###.###.###.###*###.###.###.##.#####.##.###.###.###*###.###.###.###.####.#",
   "#.###.###.###.###.###.###.###.###.##.#####.##.###.###.###.###.###.###.###.####.#",
   "#.###.###.###.###.###.###.###.###.##.#####.##.###.###.###.###.###.###.###.####.#",
   "#*...................................#####....................................*#",
   "################################################################################"]

def predefinedMap1 : List String :=
  ["################################################################################",
   "#.................*..........................................................*.#",
   "#..............................................................................#",
   "#...######...############...####...############...#######...####...#########...#",
   "#...######...############...####...############...#######...####...#########...#",
   "#..........*....................................*..............................#",
   "#...######...####...############...#######...#######...############.*.#######..#",
   "#...######...####...############.*.#######...#######...############...#######..#",
   "#..............................................................................#",
   "#..*######...################...########...#######...########...###########....#",
   "#...######...################...########...#######...########...###########*...#",
   "#..............................................................................#",
   "#...####...*..###############....########...*..#################...*...####....#",
   "#...####......###############....########......#################.......####....#",
   "#..............................................................................#",
   "#...######...##########...#######.......###############...#######...########...#",
   "#...######...##########...#######.......###############...#######...########...#",
   "#..............................................................................#",
   "#...######...################...#######...#######...################...#####...#",
   "#...######.*.################...#######...#######.*.################.*.#####...#",
   "#...######...################...#######...#######...################...#####...#",
   "#..............................................................................#",
   "#.*...........................*................................................#",
   "################################################################################"]

/-- A `char` of a string, which in the source is the array of its bytes. -/
def charAt (s : String) (x : Nat) : Option Char :=
  s.toUTF8.data.toList[x]?.map fun b => Char.ofNat b.toNat

/-- The cell of `predefinedMaps[level]`; past the end of the array there is none. -/
def predefinedMaps (level : Nat) (p : Point) : Option Char :=
  match level with
  | 0 => predefinedMap0[p.y]?.bind (charAt · p.x)
  | 1 => predefinedMap1[p.y]?.bind (charAt · p.x)
  | _ => none

def InBounds (p : Point) : Prop := p.x < mapWidth ∧ p.y < mapHeight

instance (p : Point) : Decidable (InBounds p) := inferInstanceAs (Decidable (_ ∧ _))

def readMap (game : GameState) (p : Point) : Except Stop Char :=
  if InBounds p then .ok (game.map p) else .error .outOfBounds

def setMap (game : GameState) (p : Point) (c : Char) : GameState :=
  { game with map := Function.update game.map p c }

def writeMap (game : GameState) (p : Point) (c : Char) : Except Stop GameState :=
  if InBounds p then .ok (setMap game p c) else .error .outOfBounds

def isPellet (game : GameState) (p : Point) : Except Stop Bool := do
  let c ← readMap game p
  pure (c == '.')

def isWall (game : GameState) (p : Point) : Except Stop Bool := do
  let c ← readMap game p
  pure (c == '#')

def isBooster (game : GameState) (p : Point) : Except Stop Bool := do
  let c ← readMap game p
  pure (c == '*')

def isEmpty (game : GameState) (p : Point) : Except Stop Bool := do
  let c ← readMap game p
  pure (c == ' ')

def removeItem (game : GameState) (p : Point) : Except Stop GameState := writeMap game p ' '

def equalPoints (a b : Point) : Bool := a.x == b.x && a.y == b.y

def isGhost (game : GameState) (p : Point) : Bool :=
  (List.finRange numGhosts).any fun i => equalPoints (game.ghosts i).position p

/-- The bounds are tested first, and the map only inside them. -/
def isValidMove (game : GameState) (p : Point) : Except Stop Bool :=
  if InBounds p then do
    let wall ← isWall game p
    pure (!wall)
  else pure false

def lower (c : Char) : Char := if 'A' ≤ c ∧ c ≤ 'Z' then Char.ofNat (c.toNat + 32) else c

def setDirection (game : GameState) (d : Direction) : GameState :=
  { game with pacman := { game.pacman with direction := d } }

def inputDirection (input : Char) : Direction :=
  if lower input = 'w' then .up
  else if lower input = 's' then .down
  else if lower input = 'a' then .left
  else if lower input = 'd' then .right
  else .none

def processInput (game : GameState) (input : Char) : GameState :=
  setDirection game (inputDirection input)

/-- The defaults of `initializePacman`, which also draws the player. -/
def initialPacman (spawn : Point) : Pacman where
  spawnPoint := spawn
  position := spawn
  direction := .none
  fgColor := .white
  bgColor := .black
  skin := 'C'
  isBoosted := false
  boostedTimer := 0
  respawnTimer := 0
  isAlive := true

def ghostAlgorithm : Fin numGhosts → Algorithm
  | 0 => .random
  | 1 => .bfs
  | 2 => .dfs
  | 3 => .dijkstra

def ghostColor : Fin numGhosts → Color
  | 0 => .lightCyan
  | 1 => .lightMagenta
  | 2 => .lightGreen
  | 3 => .red

/-- The defaults of `initializeGhosts`. The ghosts are not drawn. -/
def initialGhost (spawn : Fin numGhosts → Point) (i : Fin numGhosts) : Ghost where
  spawnPoint := spawn i
  position := spawn i
  direction := .none
  skin := '0'
  tile := '.'
  fgColor := ghostColor i
  bgColor := .black
  isAlive := true
  deadTimer := 0
  algorithm := ghostAlgorithm i
  behaviour := .chase

def pacmanSpawn (level : Nat) : Point := if level = 0 then ⟨36, 1⟩ else ⟨42, 10⟩

def ghostSpawns (level : Nat) : Fin numGhosts → Point
  | 0 => if level = 0 then ⟨38, 11⟩ else ⟨78, 1⟩
  | 1 => if level = 0 then ⟨40, 11⟩ else ⟨1, 22⟩
  | 2 => if level = 0 then ⟨38, 13⟩ else ⟨1, 1⟩
  | 3 => if level = 0 then ⟨40, 13⟩ else ⟨78, 22⟩

def initialPellets (level : Nat) : Nat := if level = 0 then 736 else 1013

/-- `strcpy` from `predefinedMaps[level]` has no meaning past the last level. -/
def initializeRound (level lives score : Nat) : Except Stop GameState :=
  if level < numLevels then
    writeMap
      { pacman := initialPacman (pacmanSpawn level)
        ghosts := initialGhost (ghostSpawns level)
        score := score
        lives := lives
        pelletsRemaining := initialPellets level
        level := level
        map := fun p => (predefinedMaps level p).getD '\x00' }
      (pacmanSpawn level) 'C'
  else .error .outOfBounds

def setGhost (game : GameState) (i : Fin numGhosts) (ghost : Ghost) : GameState :=
  { game with ghosts := Function.update game.ghosts i ghost }

def changeGhostsBehaviour (game : GameState) (bh : Behaviour) : GameState :=
  { game with
    ghosts := fun i => { game.ghosts i with
      behaviour := bh
      fgColor := if bh = .runAway then .cyan else ghostColor i } }

/-- Where Pacman goes: up is towards row 0. -/
def nextPosition (pos : Point) : Direction → Point
  | .up => { pos with y := uint32 (pos.y - 1) }
  | .down => { pos with y := uint32 (pos.y + 1) }
  | .left => { pos with x := uint32 (pos.x - 1) }
  | .right => { pos with x := uint32 (pos.x + 1) }
  | .none => pos

def setPosition (game : GameState) (p : Point) : GameState :=
  { game with pacman := { game.pacman with position := p } }

def addScore (game : GameState) (points : Nat) : GameState :=
  { game with score := uint32 (game.score + points) }

def boostPacman (game : GameState) : GameState :=
  changeGhostsBehaviour
    { game with pacman := { game.pacman with isBoosted := true, boostedTimer := boostedTime } } .runAway

/-- The branch for a cell that is no wall. -/
def enterCell (game : GameState) (next : Point) : Except Stop GameState := do
  let game ← writeMap game game.pacman.position ' '
  let game := setPosition game next
  let pellet ← isPellet game next
  let game ←
    if pellet then removeItem (addScore game pelletPoints) next
    else do
      let booster ← isBooster game next
      if booster then do
        let game ← removeItem (addScore game boosterPoints) next
        pure (boostPacman game)
      else pure game
  writeMap game game.pacman.position 'C'

/-- Ghost `i` is eaten: it goes back to its spawn point. -/
def eatGhost (game : GameState) (i : Fin numGhosts) : GameState :=
  addScore (setGhost game i { game.ghosts i with
    position := (game.ghosts i).spawnPoint
    deadTimer := respawnTime
    isAlive := false }) ghostPoints

def losePacman (game : GameState) : GameState :=
  changeGhostsBehaviour
    { game with
      lives := uint32 (game.lives - 1)
      pacman := { game.pacman with
        position := game.pacman.spawnPoint
        isAlive := false
        respawnTimer := respawnTime } } .still

/-- The loop over the ghosts, with its `break` once Pacman is caught. -/
def collide (next : Point) : List (Fin numGhosts) → GameState → GameState
  | [], game => game
  | i :: rest, game =>
    if equalPoints (game.ghosts i).position next && (game.ghosts i).isAlive then
      if game.pacman.isBoosted then collide next rest (eatGhost game i) else losePacman game
    else collide next rest game

def updatePacmanPosition (game : GameState) : Except Stop GameState := do
  let next := nextPosition game.pacman.position game.pacman.direction
  let wall ← isWall game next
  let game ← if wall then pure game else enterCell game next
  pure (if isGhost game next then collide next (List.finRange numGhosts) game else game)

def random (draw : Nat) : Direction :=
  match draw with
  | 0 => .up
  | 1 => .down
  | 2 => .left
  | 3 => .right
  | _ => .none

/-- Where a ghost goes: up is away from row 0. -/
def getNextPoint (initial : Point) : Direction → Point
  | .up => { initial with y := uint32 (initial.y + 1) }
  | .down => { initial with y := uint32 (initial.y - 1) }
  | .right => { initial with x := uint32 (initial.x + 1) }
  | .left => { initial with x := uint32 (initial.x - 1) }
  | .none => initial

def determineDirection (start next : Point) : Direction :=
  if start.x < next.x then .right
  else if next.x < start.x then .left
  else if start.y < next.y then .down
  else if next.y < start.y then .up
  else .none

def isTaken (game : GameState) (p : Point) : Except Stop Bool := do
  let wall ← isWall game p
  pure (wall || isGhost game p)

/-- The `while` loop that draws until the cell is neither wall nor ghost. -/
def retry (game : GameState) (initial : Point) : Point → List Nat → Except Stop (Point × List Nat)
  | next, [] => do
    let taken ← isTaken game next
    if taken then .error .needsDraw else pure (next, [])
  | next, d :: draws => do
    let taken ← isTaken game next
    if taken then retry game initial (getNextPoint initial (random d)) draws
    else pure (next, d :: draws)

def ghostIcon : Fin numGhosts → Char
  | 0 => '0'
  | 1 => '1'
  | 2 => '2'
  | 3 => '3'

/-- The branch for a valid move: the cell under the ghost is restored, the next
one saved. What is no item is saved as an empty cell. -/
def stepGhost (game : GameState) (i : Fin numGhosts) (next : Point) : Except Stop GameState := do
  let game ← writeMap game (game.ghosts i).position (game.ghosts i).tile
  let tile ← readMap game next
  let empty ← isEmpty game next
  let booster ← isBooster game next
  let pellet ← isPellet game next
  let ghost := { game.ghosts i with
    tile := if !empty && !booster && !pellet then ' ' else tile
    position := next }
  let game ← writeMap (setGhost game i ghost) next (ghostIcon i)
  pure (setGhost game i { ghost with direction := determineDirection ghost.position next })

/-- One live ghost that is not still. Whatever its algorithm, it takes `random`:
the calls of the searches are commented out. -/
def moveGhost (game : GameState) (i : Fin numGhosts) (draws : List Nat) :
    Except Stop (GameState × List Nat) :=
  match draws with
  | [] => .error .needsDraw
  | d :: draws => do
    let initial := (game.ghosts i).position
    let (next, draws) ← retry game initial (getNextPoint initial (random d)) draws
    let valid ← isValidMove game next
    let game ← if valid then stepGhost game i next else pure game
    pure (game, draws)

/-- The loop over the ghosts; a live ghost that is still ends it. -/
def moveGhosts : List (Fin numGhosts) → GameState → List Nat → Except Stop (GameState × List Nat)
  | [], game, draws => .ok (game, draws)
  | i :: rest, game, draws =>
    if (game.ghosts i).isAlive then
      if (game.ghosts i).behaviour = .still then .ok (game, draws)
      else do
        let (game, draws) ← moveGhost game i draws
        moveGhosts rest game draws
    else moveGhosts rest game draws

def updateGhostsPositions (game : GameState) (draws : List Nat) :
    Except Stop (GameState × List Nat) :=
  moveGhosts (List.finRange numGhosts) game draws

/-- The loop over the ghosts, from the first state on, comes to a second state
where ghost `i` is about to move. -/
inductive Turn (i : Fin numGhosts) (now : GameState) :
    List (Fin numGhosts) → GameState → List Nat → Prop
  | here (rest : List (Fin numGhosts)) (draws : List Nat) :
    (now.ghosts i).isAlive = true → (now.ghosts i).behaviour ≠ .still → Turn i now (i :: rest) now draws
  | dead (j : Fin numGhosts) (rest : List (Fin numGhosts)) (game : GameState) (draws : List Nat) :
    (game.ghosts j).isAlive = false → Turn i now rest game draws → Turn i now (j :: rest) game draws
  | moved (j : Fin numGhosts) (rest : List (Fin numGhosts)) (game next : GameState)
      (draws draws' : List Nat) :
    (game.ghosts j).isAlive = true → (game.ghosts j).behaviour ≠ .still →
    moveGhost game j draws = .ok (next, draws') → Turn i now rest next draws' →
    Turn i now (j :: rest) game draws

/-- In the frame that starts in `game`, ghost `i` is about to move in `now`. -/
def GhostTurn (game : GameState) (draws : List Nat) (i : Fin numGhosts) (now : GameState) : Prop :=
  ∃ walked, updatePacmanPosition game = .ok walked ∧
    Turn i now (List.finRange numGhosts) walked draws

def updateBoost (game : GameState) (elapsedTime : Nat) : GameState :=
  if game.pacman.isBoosted then
    let timer := uint32 (game.pacman.boostedTimer - elapsedTime)
    let game := { game with pacman := { game.pacman with boostedTimer := timer } }
    if timer ≤ 0 then
      changeGhostsBehaviour { game with pacman := { game.pacman with isBoosted := false } } .chase
    else game
  else game

def updateRespawn (game : GameState) (elapsedTime : Nat) : GameState :=
  if game.pacman.isAlive then game
  else
    let timer := uint32 (game.pacman.respawnTimer - elapsedTime)
    let game := { game with pacman := { game.pacman with respawnTimer := timer } }
    if timer ≤ 0 then
      changeGhostsBehaviour { game with pacman := { game.pacman with isAlive := true } } .chase
    else game

def updateDead (elapsedTime : Nat) (ghost : Ghost) : Ghost :=
  if ghost.isAlive then ghost
  else
    let timer := uint32 (ghost.deadTimer - elapsedTime)
    { ghost with deadTimer := timer, isAlive := decide (timer ≤ 0) }

def updateTimerState (game : GameState) (elapsedTime : Nat) : GameState :=
  let game := updateRespawn (updateBoost game elapsedTime) elapsedTime
  { game with ghosts := fun i => updateDead elapsedTime (game.ghosts i) }

def isRoundOver (game : GameState) : Bool := decide (game.pelletsRemaining ≤ 0)

/-- The time argument of the source is not used. -/
def updateGameState (game : GameState) (draws : List Nat) : Except Stop GameState := do
  let game ← updatePacmanPosition game
  let (game, _) ← updateGhostsPositions game draws
  pure (updateTimerState game 100)

/-- What the outside gives to one frame: the key held, and enough draws. -/
structure Frame where
  input : Char
  draws : List Nat
  deriving DecidableEq, Repr

def playFrame (game : GameState) (f : Frame) : Except Stop GameState :=
  updateGameState (processInput game f.input) f.draws

/-- The frames of a round, one after the other. -/
def play (frames : List Frame) (game : GameState) : Except Stop GameState :=
  frames.foldlM playFrame game

/-- The state of a round after some frames. -/
def Played (level lives score : Nat) (frames : List Frame) (game : GameState) : Prop :=
  ∃ start, initializeRound level lives score = .ok start ∧ play frames start = .ok game

end Zeos.Game
